import FcModel.Io.Json.Reading

-- How the parsers read strings, words and numbers.

namespace Json

open Ascii

set_option maxRecDepth 8000

section Strings

variable {fuel : Nat} {token s t rest : Bytes}

theorem stringFromStream_go_run (h : Body PlainLiteral s t) (hf : s.length < fuel) :
    (stringFromStream.go fuel token).run ⟨s ++ quote :: rest, false⟩ = .ok (token ++ t) ⟨rest, false⟩ := by
  induction h generalizing fuel token
  case nil =>
    cases fuel
    case zero => cases hf
    case succ => rw [List.append_nil]; rfl
  case literal b s t hb _ hi =>
    cases fuel
    case zero => cases hf
    case succ fuel =>
      have h4 : b ≠ 4 := fun he => absurd hb.control (by rw [he]; decide)
      simp only [stringFromStream.go, EStateM.run_bind, EStateM.run_get, Bool.false_eq_true,
        if_false,
        List.cons_append, peekChar_cons, if_neg hb.backslash, if_neg h4, if_neg hb.quote, getc_cons]
      rw [hi (Nat.lt_of_succ_lt_succ hf), List.append_assoc, List.singleton_append]
  case escape b s t _ hi =>
    cases fuel
    case zero => cases hf
    case succ fuel =>
      simp only [stringFromStream.go, EStateM.run_bind, EStateM.run_get, Bool.false_eq_true,
        if_false,
        List.cons_append, peekChar_cons, if_true, parseEscape_cons]
      rw [hi (Nat.lt_of_succ_lt (Nat.lt_of_succ_lt_succ hf)), List.append_assoc,
        List.singleton_append]

theorem readsName_stringFromStream {n : Nat} (h : Body PlainLiteral s t) (hf : n < fuel) :
    ReadsName (stringFromStream fuel) n ([quote] ++ s ++ [quote]) t := by
  intro rest _ hn
  simp only [List.length_append] at hn
  refine ⟨false, ?_, fun _ => rfl⟩
  have hgo := @stringFromStream_go_run fuel [] s t rest h (by omega)
  simpa [stringFromStream] using hgo

namespace Relaxed

variable {strict : Bool}

theorem quoteLoop_run (h : Body PlainLiteral s t) (hf : s.length < fuel) :
    (quoteLoop true quote fuel token).run ⟨s ++ quote :: rest, false⟩ = .ok (token ++ t) ⟨rest, false⟩ := by
  induction h generalizing fuel token
  case nil =>
    cases fuel
    case zero => cases hf
    case succ => rw [List.append_nil]; rfl
  case literal b s t hb _ hi =>
    cases fuel
    case zero => cases hf
    case succ fuel =>
      have hcontrol (a : UInt8) (ha : a.toNat < 0x20) : b ≠ a := fun he => absurd hb.control (by rw [he]; omega)
      have hend : ¬(b = carriageReturn ∨ b = newline) :=
        not_or.mpr ⟨hcontrol _ (by decide), hcontrol _ (by decide)⟩
      simp only [quoteLoop, EStateM.run_bind, List.cons_append, peekChar_cons, if_neg hb.eof,
        if_neg hb.quote,
        if_neg (hcontrol 4 (by decide)), hb.backslash, and_false, if_false, if_neg hend, getc_cons]
      rw [hi (Nat.lt_of_succ_lt_succ hf), List.append_assoc, List.singleton_append]
  case escape b s t _ hi =>
    cases fuel
    case zero => cases hf
    case succ fuel =>
      have hne (a : UInt8) (ha : a ≠ backslash) : ¬backslash = a := Ne.symm ha
      simp only [quoteLoop, EStateM.run_bind, List.cons_append, peekChar_cons,
        if_neg (hne 0xff (by decide)),
        if_neg (hne quote (by decide)), if_neg (hne 4 (by decide)), and_self, if_true, parseEscape_cons]
      rw [hi (Nat.lt_of_succ_lt (Nat.lt_of_succ_lt_succ hf)), List.append_assoc,
        List.singleton_append]

theorem head_ne_quote {c : UInt8} (h : Body PlainLiteral (c :: s) t) : c ≠ quote := by
  cases h
  case literal hb _ => exact hb.quote
  case escape     => decide

theorem quoteStringFromStream_run (h : Body PlainLiteral s t) (hr : rest.head? ≠ some quote)
    (hf : s.length < fuel) :
    Leaves rest t ((quoteStringFromStream strict true fuel).run ⟨quote :: (s ++ quote :: rest), false⟩) := by
  have hq : ¬(quote = apostrophe ∧ strict = true) := fun h => absurd h.1 (by decide)
  have hq' : ¬(quote ≠ apostrophe ∧ quote ≠ quote) := fun h => h.2 rfl
  cases s
  case nil =>
    cases h
    cases rest
    case nil =>
      refine ⟨true, ?_, absurd rfl⟩
      simp only [quoteStringFromStream, EStateM.run_bind, getChar_cons, if_neg hq, if_neg hq',
        List.nil_append,
        peek_cons, if_true, getc_cons, peek_nil]
      rfl
    case cons c rest =>
      have hc : some c ≠ some quote := hr
      refine ⟨false, ?_, fun _ => rfl⟩
      simp only [quoteStringFromStream, EStateM.run_bind, getChar_cons, if_neg hq, if_neg hq',
        List.nil_append,
        peek_cons, if_true, getc_cons, if_pos hc]
      rfl
  case cons c s =>
    have hc : some c ≠ some quote := fun he => head_ne_quote h (Option.some.inj he)
    have hloop := @quoteLoop_run fuel [] _ _ rest h hf
    refine ⟨false, ?_, fun _ => rfl⟩
    rw [List.cons_append] at hloop ⊢
    simp only [quoteStringFromStream, EStateM.run_bind, getChar_cons, if_neg hq, if_neg hq',
      peek_cons, if_neg hc,
      hloop, List.nil_append]

theorem readsName_stringFromStream {n : Nat} (h : Body PlainLiteral s t) (hf : n < fuel) :
    ReadsName (stringFromStream strict fuel) n ([quote] ++ s ++ [quote]) t := by
  intro rest hr hn
  simp only [List.length_append] at hn
  have hrun := @quoteStringFromStream_run fuel s t rest strict h hr (by omega)
  have hq : ¬(quote = apostrophe ∧ strict = true) := fun h => absurd h.1 (by decide)
  have hs : [quote] ++ s ++ [quote] ++ rest = quote :: (s ++ quote :: rest) := by simp
  rw [hs]
  simp only [stringFromStream, EStateM.run_bind, peekChar_cons, if_neg hq, or_true, if_true]
  exact hrun

end Relaxed

end Strings

section Legacy

variable {fuel : Nat} {ss ds t : Bytes}

theorem numberFromStream_go_follow (ht : Follow t) :
    Leaves t (.number ss false) ((numberFromStream.go (fuel + 1) ss false).run ⟨t, false⟩) := by
  cases t
  case nil => exact ⟨true, rfl, absurd rfl⟩
  case cons c t =>
    have hc : c ≠ dot ∧ isDigit c = false ∧ c ≠ 0 ∧ isalnum c = false := by
      have hall : ∀ c ∈ [comma, space, tab, newline, carriageReturn, closeBracket, closeBrace],
        c ≠ dot ∧ isDigit c = false ∧ c ≠ 0 ∧ isalnum c = false := by decide
      exact hall c ht.mem
    refine ⟨false, ?_, fun _ => rfl⟩
    simp only [numberFromStream.go, EStateM.run_bind, peekChar_cons, if_neg hc.1, hc.2.1,
      if_neg hc.2.2.1, hc.2.2.2]
    rfl

theorem numberFromStream_go_run (hd : ∀ d ∈ ds, isDigit d) (ht : Follow t) (hf : ds.length < fuel) :
    Leaves t (.number (ss ++ ds) false) ((numberFromStream.go fuel ss false).run ⟨ds ++ t, false⟩) := by
  induction ds generalizing fuel ss
  case nil =>
    cases fuel
    case zero => cases hf
    case succ => rw [List.append_nil]; exact numberFromStream_go_follow ht
  case cons d ds hi =>
    cases fuel
    case zero => cases hf
    case succ fuel =>
      have hdigit := hd d (List.mem_cons_self ..)
      have hdot : d ≠ Ascii.dot := fun h => by rw [h] at hdigit; cases hdigit
      have hi := @hi fuel (ss ++ [d]) (fun d hm => hd d (List.mem_cons_of_mem _ hm)) (Nat.lt_of_succ_lt_succ hf)
      rw [List.append_assoc, List.singleton_append] at hi
      simpa only [numberFromStream.go, EStateM.run_bind, List.cons_append, peekChar_cons, if_neg hdot,
        if_pos hdigit, getChar_cons] using hi

-- None of the texts that are rejected has a digit.
theorem numeric_of_mem {str : Bytes} {d : UInt8} (hm : d ∈ str) (hd : isDigit d) :
    ¬(str = ascii "-." ∨ str = ascii "." ∨ str = ascii "-") := by
  have hne {s : Bytes} (hs : ∀ b ∈ s, isDigit b = false) : str ≠ s := by
    intro h
    rw [hs d (h ▸ hm)] at hd
    cases hd
  rintro (h | h | h)
  all_goals exact hne (by decide) h

variable {L : LexicalCast} {stringDoubles : Bool}

theorem numberFromStream_digits (hL : L.Exact) (hn : Decimal.Numeral ds)
    (hv : Decimal.value ds < 2 ^ 64)
    (ht : Follow t) (hf : ds.length < fuel) :
    Leaves t (.uint64 (.ofNat (Decimal.value ds)))
      ((numberFromStream L stringDoubles fuel).run ⟨ds ++ t, false⟩) := by
  have ⟨e, hgo, he⟩ := @numberFromStream_go_run fuel [] _ _ hn.digits ht hf
  refine ⟨e, ?_, he⟩
  have hto := hL.toUint64 hn
  rw [if_pos hv] at hto
  cases ds
  case nil => exact absurd rfl hn.nonempty
  case cons d ds =>
    have hd := hn.digits d (List.mem_cons_self ..)
    have hm : some d ≠ some minus := fun h => by rw [Option.some.inj h] at hd; cases hd
    rw [List.cons_append] at hgo ⊢
    simp only [numberFromStream, EStateM.run_bind, peek_cons, if_neg hm, hgo, List.nil_append]
    rw [numberFromStream.result, if_neg (numeric_of_mem (List.mem_cons_self ..) hd),
      if_neg Bool.false_ne_true, hto]
    rfl

theorem numberFromStream_minus (hL : L.Exact) (hn : Decimal.Numeral ds)
    (hv : Decimal.value ds ≤ 2 ^ 63)
    (ht : Follow t) (hf : ds.length < fuel) :
    Leaves t (.int64 (.ofInt (-Decimal.value ds)))
      ((numberFromStream L stringDoubles fuel).run ⟨minus :: (ds ++ t), false⟩) := by
  have ⟨e, hgo, he⟩ := @numberFromStream_go_run fuel [minus] _ _ hn.digits ht hf
  refine ⟨e, ?_, he⟩
  have hto := hL.toInt64Neg hn
  rw [if_pos hv] at hto
  have ⟨d, hd⟩ := List.exists_mem_of_ne_nil _ hn.nonempty
  simp only [numberFromStream, EStateM.run_bind, peek_cons, if_true, getChar_cons, hgo,
    List.singleton_append]
  rw [numberFromStream.result, if_neg (numeric_of_mem (List.mem_cons_of_mem _ hd) (hn.digits d hd)),
    if_neg Bool.false_ne_true, hto]
  rfl

-- A number is signed if there is a sign.
def Number.legacy (n : Number) : Variant :=
  if n.neg then .int64 (.ofInt n.intValue) else .uint64 (.ofNat (Decimal.value n.int))

theorem numberFromStream_plain (hL : L.Exact) {n : Number} (hn : n.Plain) (ht : Follow t)
    (hf : n.text.length < fuel) :
    Leaves t n.legacy ((numberFromStream L stringDoubles fuel).run ⟨n.text ++ t, false⟩) := by
  have hlower := hn.lower
  have hupper := hn.upper
  rw [Number.text_eq hn.isInteger] at hf ⊢
  rw [Number.legacy]
  simp only [Number.intValue] at hlower hupper ⊢
  cases hneg : n.neg
  case false =>
    simp only [hneg, Bool.false_eq_true, if_false, List.nil_append] at *
    exact numberFromStream_digits hL n.numeral (by omega) ht hf
  case true =>
    simp only [hneg, if_true, List.nil_append, List.length_cons, List.cons_append] at *
    exact numberFromStream_minus hL n.numeral (by omega) ht (by omega)

theorem tokenFromStream_go_follow (ht : Follow t) :
    Leaves t ss ((tokenFromStream.go (fuel + 1) ss).run ⟨t, false⟩) := by
  cases t
  case nil => exact ⟨true, rfl, absurd rfl⟩
  case cons c t =>
    have hc : c ∉ ascii "nultrefas" := by
      have hall : ∀ c ∈ [comma, space, tab, newline, carriageReturn, closeBracket, closeBrace],
        c ∉ ascii "nultrefas" := by decide
      exact hall c ht.mem
    refine ⟨false, ?_, fun _ => rfl⟩
    simp only [tokenFromStream.go, EStateM.run_bind, peekChar_cons, if_neg hc]
    rfl

theorem tokenFromStream_go_run (hd : ∀ d ∈ ds, d ∈ ascii "nultrefas") (ht : Follow t)
    (hf : ds.length < fuel) :
    Leaves t (ss ++ ds) ((tokenFromStream.go fuel ss).run ⟨ds ++ t, false⟩) := by
  induction ds generalizing fuel ss
  case nil =>
    cases fuel
    case zero => cases hf
    case succ => rw [List.append_nil]; exact tokenFromStream_go_follow ht
  case cons d ds hi =>
    cases fuel
    case zero => cases hf
    case succ fuel =>
      have hi := @hi fuel (ss ++ [d]) (fun d hm => hd d (List.mem_cons_of_mem _ hm)) (Nat.lt_of_succ_lt_succ hf)
      rw [List.append_assoc, List.singleton_append] at hi
      simpa only [tokenFromStream.go, EStateM.run_bind, List.cons_append, peekChar_cons,
        if_pos (hd d (List.mem_cons_self ..)), getChar_cons] using hi

theorem tokenFromStream_null (ht : Follow t) (hf : (ascii "null").length < fuel) :
    Leaves t .null ((tokenFromStream fuel).run ⟨ascii "null" ++ t, false⟩) := by
  have ⟨e, hgo, he⟩ := @tokenFromStream_go_run fuel [] (ascii "null") _ (by decide) ht hf
  refine ⟨e, ?_, he⟩
  simp only [tokenFromStream, EStateM.run_bind, hgo]
  rfl

theorem tokenFromStream_bool (b : Bool) (ht : Follow t)
    (hf : (ascii (if b then "true" else "false")).length < fuel) :
    Leaves t (.bool b) ((tokenFromStream fuel).run ⟨ascii (if b then "true" else "false") ++ t, false⟩) := by
  have ⟨e, hgo, he⟩ := @tokenFromStream_go_run fuel [] (ascii (if b then "true" else "false")) _
    (by cases b <;> decide) ht hf
  refine ⟨e, ?_, he⟩
  simp only [tokenFromStream, EStateM.run_bind, hgo]
  cases b <;> rfl

end Legacy

namespace Relaxed

section Tokens

variable {fuel : Nat} {token s t : Bytes}

-- One character after a token can be consumed with it.
theorem tokenFromStream_go_follow (ht : Follow t) :
    ∃ t', Leaves t' token ((tokenFromStream.go (fuel + 1) token).run ⟨t, false⟩) ∧ Drops t t' := by
  cases t
  case nil => exact ⟨[], ⟨true, rfl, absurd rfl⟩, .refl []⟩
  case cons c t =>
    have hc : c ≠ backslash ∧ isTokenChar c = false ∧ (isDelimiter c → isSeparator c) := by
      have hall : ∀ c ∈ [comma, space, tab, newline, carriageReturn, closeBracket, closeBrace],
        c ≠ backslash ∧ isTokenChar c = false ∧ (isDelimiter c → isSeparator c) := by decide
      exact hall c ht.mem
    by_cases hd : isDelimiter c
    case pos =>
      refine ⟨t, ⟨false, ?_, fun _ => rfl⟩, [c], rfl, List.forall_mem_singleton.mpr (hc.2.2 hd)⟩
      simp only [tokenFromStream.go, EStateM.run_bind, peekChar_cons, if_neg hc.1, hd, if_true,
        getc_cons]
      rfl
    case neg =>
      refine ⟨c :: t, ⟨false, ?_, fun _ => rfl⟩, .refl _⟩
      simp only [tokenFromStream.go, EStateM.run_bind, peekChar_cons, if_neg hc.1, hd, hc.2.1]
      rfl

-- No character of a token is an escape or a delimiter.
theorem tokenChar_cases {c : UInt8} (h : isTokenChar c) : c ≠ backslash ∧
    isDelimiter c = false := by
  have hne {a : UInt8} (ha : isTokenChar a = false) : c ≠ a := fun he => by rw [he, ha] at h; cases h
  refine ⟨hne (by decide), ?_⟩
  simp only [isDelimiter, decide_eq_false_iff_not, not_or]
  refine ⟨hne ?_, hne ?_, hne ?_, hne ?_, hne ?_, hne ?_, hne ?_⟩
  all_goals decide

theorem tokenFromStream_go_run (hs : ∀ c ∈ s, isTokenChar c) (ht : Follow t)
    (hf : s.length < fuel) :
    ∃ t', Leaves t' (token ++ s) ((tokenFromStream.go fuel token).run ⟨s ++ t, false⟩) ∧
    Drops t t' := by
  induction s generalizing fuel token
  case nil =>
    cases fuel
    case zero => cases hf
    case succ => rw [List.append_nil]; exact tokenFromStream_go_follow ht
  case cons c s hi =>
    cases fuel
    case zero => cases hf
    case succ fuel =>
      have ⟨hc, hs⟩ := List.forall_mem_cons.mp hs
      have ⟨hbackslash, hdelimiter⟩ := tokenChar_cases hc
      have hi := @hi fuel (token ++ [c]) hs (Nat.lt_of_succ_lt_succ hf)
      rw [List.append_assoc, List.singleton_append] at hi
      simpa only [tokenFromStream.go, EStateM.run_bind, List.cons_append, peekChar_cons, if_neg hbackslash, hdelimiter,
        Bool.false_eq_true, if_false, hc, if_true, getc_cons] using hi

theorem tokenFromStream_reads (hs : ∀ c ∈ s, isTokenChar c) (hne : s ≠ []) (ht : Follow t)
    (hf : s.length < fuel) :
    Reads (tokenFromStream fuel) s t s := by
  have hgo := @tokenFromStream_go_run fuel [] s t hs ht hf
  cases s
  case nil  => exact absurd rfl hne
  case cons => exact hgo

theorem wordFromStream_null {strict : Bool} (ht : Follow t) (hf : (ascii "null").length < fuel) :
    Reads (wordFromStream strict fuel) (ascii "null") t .null :=
  (tokenFromStream_reads (by decide) (by decide) ht hf).bind rfl

theorem wordFromStream_bool {strict : Bool} (b : Bool) (ht : Follow t)
    (hf : (ascii (if b then "true" else "false")).length < fuel) :
    Reads (wordFromStream strict fuel) (ascii (if b then "true" else "false")) t (.bool b) := by
  refine (tokenFromStream_reads ?_ ?_ ht hf).bind ?_
  all_goals cases b
  all_goals first | rfl | decide

end Tokens

section Numbers

variable {L : LexicalCast} {strict : Bool} {token ds r q : Bytes}

theorem numberLoop_digits (hr : ∀ d ∈ r, isDigit d) :
    numberLoop L strict token ds (r ++ q) = numberLoop L strict token ds q := by
  induction r
  case nil => rfl
  case cons d r hi =>
    have ⟨hd, hr⟩ := List.forall_mem_cons.mp hr
    rw [List.cons_append, numberLoop, if_pos hd, hi hr]

theorem exponentDigits_digits (hr : ∀ d ∈ r, isDigit d) :
    exponentDigits L strict token r = toDouble L token := by
  induction r
  case nil => rfl
  case cons d r hi =>
    have ⟨hd, hr⟩ := List.forall_mem_cons.mp hr
    rw [exponentDigits, if_pos hd, hi hr]

theorem exponent_text (e : Exponent) :
    exponent L strict token (e.sign.toList ++ e.digits) = toDouble L token := by
  have hne := e.numeral.nonempty
  cases hs : e.sign
  case none =>
    cases hd : e.digits
    case nil => exact absurd hd hne
    case cons d ds =>
      have ⟨hdigit, hds⟩ := List.forall_mem_cons.mp (hd ▸ e.numeral.digits)
      have hsign : ¬(d = plus ∨ d = minus) := by
        rintro (he | he) <;> rw [he] at hdigit <;> cases hdigit
      rw [Option.toList_none, List.nil_append, exponent, if_neg hsign, if_pos hdigit,
        exponentDigits_digits hds]
  case some c =>
    rw [Option.toList_some, List.singleton_append, exponent, if_pos (e.isSign c hs), if_neg hne,
      exponentDigits_digits e.numeral.digits]

-- What is made of a number. The point is not read as part of it.
def ofNumber (L : LexicalCast) (n : Number) (token : Bytes) : Except Error Variant :=
  match n.frac, n.exp with
  | some _, _    => .ok (.string token)
  | none, some _ => toDouble L token
  | none, none   => if n.int = [zero] then .ok (.uint64 0) else parseInt 10 token n.int

theorem numberLoop_text {n : Number} (h : n.IsInteger → n.int ≠ [zero]) :
    numberLoop L strict token n.unsigned (n.fracText ++ n.expText) = ofNumber L n token := by
  rw [ofNumber, Number.unsigned, Number.fracText, Number.expText]
  cases hf : n.frac
  case some ds => rfl
  case none =>
    cases he : n.exp
    case none =>
      simp only [Option.elim_none, List.append_nil, if_neg (h ⟨hf, he⟩)]
      rfl
    case some e =>
      have hletter : isDigit e.letter = false ∧ e.letter ≠ dot := by
        rcases e.isE with h | h <;> rw [h] <;> decide
      simp only [Option.elim_none, Option.elim_some, List.nil_append, Exponent.text,
        List.cons_append]
      rw [numberLoop, if_neg (by rw [hletter.1]; exact Bool.false_ne_true), if_neg hletter.2,
        if_pos e.isE,
        exponent_text]

theorem afterZero_text {n : Number} (hz : n.int = [zero]) :
    afterZero L strict token n.unsigned (n.fracText ++ n.expText) = ofNumber L n token := by
  by_cases hn : n.IsInteger
  case pos => simp only [Number.fracText, Number.expText, ofNumber, hn.1, hn.2, hz]; rfl
  case neg =>
    have htail := @numberLoop_text L strict token n fun h => absurd h hn
    have hcases : ∃ c q, n.fracText ++ n.expText = c :: q ∧ (c = dot ∨ c = 'e'.toUInt8 ∨ c = 'E'.toUInt8) := by
      rw [Number.fracText, Number.expText]
      cases hf : n.frac
      case some ds => exact ⟨dot, _, rfl, .inl rfl⟩
      case none =>
        cases he : n.exp
        case none   => exact absurd ⟨hf, he⟩ hn
        case some e => exact ⟨e.letter, _, rfl, .inr e.isE⟩
    obtain ⟨c, q, he, hc⟩ := hcases
    rw [he] at htail ⊢
    have hne : ∀ b ∈ [dot, 'e'.toUInt8, 'E'.toUInt8], ¬(b = 'b'.toUInt8 ∨ b = 'B'.toUInt8) ∧
      ¬(b = 'o'.toUInt8 ∨ b = 'O'.toUInt8) ∧ ¬(b = 'x'.toUInt8 ∨ b = 'X'.toUInt8) := by decide
    obtain ⟨hb, ho, hx⟩ := hne c (by simpa using hc)
    have hs : ¬(strict = true ∧ ¬(c = dot ∨ c = 'e'.toUInt8 ∨ c = 'E'.toUInt8)) := fun h => h.2 hc
    rw [afterZero, if_neg hb, if_neg ho, if_neg hx, if_neg hs, htail]

theorem unsignedNumber_text (n : Number) :
    unsignedNumber L strict token n.unsigned = ofNumber L n token := by
  have hdigits := n.numeral.digits
  have hunsigned : n.unsigned = n.int ++ (n.fracText ++ n.expText) := List.append_assoc ..
  cases hint : n.int
  case nil => exact absurd hint n.numeral.nonempty
  case cons d r =>
    have ⟨hd, hr⟩ := List.forall_mem_cons.mp (hint ▸ hdigits)
    rw [hint, List.cons_append] at hunsigned
    by_cases hz : d = zero
    case pos =>
      have hzero := n.noLeadingZero (by rw [hint, hz]; rfl)
      have hnil : r = [] := (List.cons.inj (hint.symm.trans hzero)).2
      have hafter := @afterZero_text L strict token n hzero
      rw [hunsigned, hnil, List.nil_append] at hafter ⊢
      rw [unsignedNumber, if_pos hz, hafter]
    case neg =>
      have hne : n.int ≠ [zero] := fun he => hz (List.cons.inj (hint.symm.trans he)).1
      have hloop := @numberLoop_text L strict token n fun _ => hne
      rw [hunsigned] at hloop ⊢
      rw [unsignedNumber, if_neg hz, if_pos hd, numberLoop_digits hr, hloop]

-- A number of the grammar, in either mode.
theorem parseNumberOrStr_text (n : Number) :
    parseNumberOrStr L strict n.text = ofNumber L n n.text := by
  have hunsigned := @unsignedNumber_text L strict n.text n
  cases hneg : n.neg
  case true =>
    have htext : n.text = minus :: n.unsigned := by simp [Number.text, hneg]
    have hplus : ¬(minus = plus ∧ strict = true) := fun h => absurd h.1 (by decide)
    rw [htext] at hunsigned ⊢
    simp only [parseNumberOrStr, if_neg hplus, or_true, if_true, hunsigned]
  case false =>
    have htext : n.text = n.unsigned := by simp [Number.text, hneg]
    obtain ⟨d, r, hint⟩ := List.exists_cons_of_ne_nil n.numeral.nonempty
    have hd := n.numeral.digits d (by rw [hint]; exact List.mem_cons_self ..)
    have hcons : n.unsigned = d :: (r ++ n.fracText ++ n.expText) := by
      rw [Number.unsigned, hint]
      rfl
    have hsign : ¬(d = plus ∨ d = minus) := by
      rintro (he | he) <;> rw [he] at hd <;> cases hd
    rw [htext, hcons] at hunsigned ⊢
    simp only [parseNumberOrStr, if_neg fun h : d = plus ∧ strict = true => hsign (.inl h.1),
      if_neg hsign, hunsigned]

theorem charValue_digit {d : UInt8} (h : isDigit d) :
    charValue d ≠ 0xff ∧ (charValue d).toUInt64.toNat = d.toNat - 0x30 ∧ d.toNat - 0x30 ≤ 9 := by
  have hd := isDigit_iff.mp h
  have hn : (charValue d).toNat = d.toNat - 0x30 := by
    rw [charValue, if_pos h, UInt8.toNat_sub_of_le d 0x30 (UInt8.le_iff_toNat_le.mpr hd.1)]
    rfl
  refine ⟨fun he => ?_, hn, by omega⟩
  rw [he] at hn
  have hff : (0xff : UInt8).toNat = 255 := rfl
  omega

theorem le_foldl_digits (ds : Bytes) (n : Nat) :
    n ≤ ds.foldl (fun n d => n * 10 + (d.toNat - 0x30)) n := by
  induction ds generalizing n
  case nil => exact Nat.le_refl _
  case cons d ds hi =>
    rw [List.foldl_cons]
    exact (by omega : n ≤ n * 10 + (d.toNat - 0x30)).trans (hi _)

-- No round overflows unless the number itself does.
theorem parseInt_go_digits (hd : ∀ d ∈ ds, isDigit d) {val : UInt64}
    (hv : ds.foldl (fun n d => n * 10 + (d.toNat - 0x30)) val.toNat < 2 ^ 64) :
    parseInt.go 10 val ds = .ok (.ofNat (ds.foldl (fun n d => n * 10 + (d.toNat - 0x30)) val.toNat)) := by
  induction ds generalizing val
  case nil => simp [parseInt.go]; rfl
  case cons d ds hi =>
    have ⟨hdigit, hds⟩ := List.forall_mem_cons.mp hd
    have ⟨hne, hvalue, hle⟩ := charValue_digit hdigit
    rw [List.foldl_cons] at hv ⊢
    have hbound := Nat.lt_of_le_of_lt (le_foldl_digits ds _) hv
    have hmul : (val * 10).toNat = val.toNat * 10 := by
      rw [UInt64.toNat_mul, Nat.mod_eq_of_lt]
      · rfl
      · exact Nat.lt_of_le_of_lt (Nat.le_add_right ..) hbound
    have hadd : (val * 10 + (charValue d).toUInt64).toNat = val.toNat * 10 + (d.toNat - 0x30) := by
      rw [UInt64.toNat_add, hmul, hvalue, Nat.mod_eq_of_lt hbound]
    have hdiv : ¬((0xffffffffffffffff : UInt64) / 10 < val) := by
      rw [UInt64.lt_iff_toNat_lt]
      have : ((0xffffffffffffffff : UInt64) / 10).toNat = 1844674407370955161 := by decide
      omega
    have hlt : ¬(val * 10 + (charValue d).toUInt64 < val * 10) := by
      rw [UInt64.lt_iff_toNat_lt, hadd, hmul]
      omega
    rw [← hadd] at hv ⊢
    simp only [parseInt.go, if_neg hne, if_neg hdiv, if_neg hlt, hi hds hv]

theorem parseInt_plain {n : Number} (hn : n.Plain) : parseInt 10 n.text n.int = .ok n.legacy := by
  have hlower := hn.lower
  have hupper := hn.upper
  have hgo : Decimal.value n.int < 2 ^ 64 → parseInt.go 10 0 n.int = .ok (.ofNat (Decimal.value n.int)) :=
    @parseInt_go_digits _ n.numeral.digits 0
  rw [parseInt, if_neg n.numeral.nonempty, Number.text_eq hn.isInteger, Number.legacy]
  simp only [Number.intValue] at hlower hupper ⊢
  cases hneg : n.neg
  case false =>
    have hminus : n.int.head? ≠ some minus := by
      intro he
      have hd := n.numeral.digits _ (List.mem_of_mem_head? he)
      cases hd
    simp only [hneg, Bool.false_eq_true, if_false, List.nil_append] at hupper ⊢
    rw [hgo (by omega)]
    simp only [hminus]
    rfl
  case true =>
    simp only [hneg, if_true] at hlower ⊢
    have hle : Decimal.value n.int ≤ 2 ^ 63 := by omega
    have hval : (UInt64.ofNat (Decimal.value n.int)).toNat = Decimal.value n.int :=
      UInt64.toNat_ofNat_of_lt' (by simp [UInt64.size]; omega)
    have hover : ¬(int64MaxPlusOne < UInt64.ofNat (Decimal.value n.int)) := by
      rw [UInt64.lt_iff_toNat_lt, hval]
      exact Nat.not_lt.mpr hle
    have hneg : -(UInt64.ofNat (Decimal.value n.int)).toInt64 = Int64.ofInt (-Decimal.value n.int) := by
      rw [Int64.ofInt_neg, Int64.ofInt_eq_ofNat]
      rfl
    rw [hgo (by omega)]
    simp only [bind, Except.bind, List.singleton_append, List.head?_cons, if_true, if_neg hover]
    split
    case isTrue he =>
      have hmax : Decimal.value n.int = 2 ^ 63 := by rw [← hval, he]; rfl
      rw [hmax]
      rfl
    case isFalse => rw [hneg]; rfl

-- Zero has no sign.
def ofPlain (n : Number) : Variant :=
  if n.int = [zero] then .uint64 0 else n.legacy

theorem ofNumber_plain {n : Number} (hn : n.Plain) : ofNumber L n n.text = .ok (ofPlain n) := by
  simp only [ofNumber, hn.isInteger.1, hn.isInteger.2, ofPlain]
  split
  case isTrue   => rfl
  case isFalse  => exact parseInt_plain hn

theorem isTokenChar_digit {d : UInt8} (h : isDigit d) : isTokenChar d := by
  simp [isTokenChar, isalnum, h]

theorem isTokenChar_text (n : Number) : ∀ c ∈ n.text, isTokenChar c := by
  intro c hc
  simp only [Number.text, Number.unsigned, List.mem_append] at hc
  rcases hc with hc | (hc | hc) | hc
  case inl => 
    cases hneg : n.neg
    all_goals simp [hneg] at hc
    rw [hc]
    decide
  case inr.inl.inl => exact isTokenChar_digit (n.numeral.digits c hc)
  case inr.inl.inr =>
    rw [Number.fracText] at hc
    cases hf : n.frac
    case none => rw [hf] at hc; cases hc
    case some ds =>
      rw [hf] at hc
      rcases List.mem_cons.mp hc with rfl | hc
      case inl => decide
      case inr => exact isTokenChar_digit ((n.fracNumeral ds hf).digits c hc)
  case inr.inr =>
    rw [Number.expText] at hc
    cases he : n.exp
    case none => rw [he] at hc; cases hc
    case some e =>
      rw [he] at hc
      simp only [Option.elim_some, Exponent.text, List.mem_append, List.mem_singleton,
        Option.mem_toList] at hc
      rcases hc with (hc | hc) | hc
      case inl.inl => rcases e.isE with h | h <;> rw [hc, h] <;> decide
      case inl.inr => rcases e.isSign c hc with h | h <;> rw [h] <;> decide
      case inr     => exact isTokenChar_digit (e.numeral.digits c hc)

theorem Number.text_ne_nil (n : Number) : n.text ≠ [] := by
  have hne := n.numeral.nonempty
  simp [Number.text, Number.unsigned, hne]

variable {fuel : Nat} {t : Bytes}

-- A number of the grammar is read as its text says, and rejected in strict mode if the result is
-- none.
theorem numberFromStream_text {n : Number} {v : Variant} (hn : ofNumber L n n.text = .ok v)
    (hv : strict = true → isNumber v) (ht : Follow t) (hf : n.text.length < fuel) :
    Reads (numberFromStream L strict fuel) n.text t v := by
  refine (tokenFromStream_reads (isTokenChar_text n) (Number.text_ne_nil n) ht hf).bind ?_
  have hnumber : ¬(strict = true ∧ (!isNumber v) = true) := fun h => by simp [hv h.1] at h
  simp only [parseNumberOrStr_text, hn, if_neg hnumber]

theorem isNumber_ofPlain (n : Number) : isNumber (ofPlain n) := by
  rw [ofPlain, Number.legacy]
  split_ifs <;> rfl

theorem numberFromStream_plain {n : Number} (hn : n.Plain) (ht : Follow t)
    (hf : n.text.length < fuel) :
    Reads (numberFromStream L strict fuel) n.text t (ofPlain n) :=
  numberFromStream_text (ofNumber_plain hn) (fun _ => isNumber_ofPlain n) ht hf

end Numbers

end Relaxed

end Json
