import FcModel.Io.Json.Progress
import FcModel.Io.Json.Completeness

-- The language that the strict parser accepts: what it consumes when it returns a value.

namespace Json

open Ascii

variable {α β : Type}

-- If the run returns, then what it has consumed and what it returns are in `P`.
def Consumes (x : Parser α) (s : Stringstream) (P : Bytes → α → Prop) : Prop :=
  Ensures x s (fun a s' => ∃ t, s.unread = t ++ s'.unread ∧ P t a) fun _ => True

namespace Consumes

variable {x y : Parser α} {f : α → Parser β} {s : Stringstream} {P Q : Bytes → α → Prop}
    {R : Bytes → β → Prop}

theorem pure {a : α} (h : P [] a) : Consumes (Pure.pure a) s P :=
  Ensures.pure ⟨[], rfl, h⟩

theorem throw {e : Error} : Consumes (MonadExcept.throw e : Parser α) s P :=
  Ensures.throw trivial

theorem ite {p : Prop} [Decidable p] (h : p → Consumes x s P) (h' : ¬p → Consumes y s P) :
    Consumes (if p then x else y) s P :=
  Ensures.ite h h'

theorem imp (h : Consumes x s P) (hP : ∀ t a, P t a → Q t a) : Consumes x s Q :=
  Ensures.imp h fun _ _ ⟨t, ht, hp⟩ => ⟨t, ht, hP t _ hp⟩

theorem bind (h : Consumes x s P) (hf : ∀ t a s', P t a → Consumes (f a) s' fun t' => R (t ++ t')) :
    Consumes (x >>= f) s R := by
  refine Ensures.bind (Ensures.imp h fun a s' ⟨t, ht, hp⟩ => Ensures.imp (hf t a s' hp) fun b s'' ⟨t', ht', hr⟩ => ?_)
  exact ⟨t ++ t', by rw [ht, ht', List.append_assoc], hr⟩

theorem map {g : α → β} (h : Consumes x s fun t a => R t (g a)) :
    Consumes (do return g (← x)) s R :=
  h.bind fun t a s' hr => .pure (by rwa [List.append_nil])

theorem never {e : Error} : Consumes (x >>= fun _ => (MonadExcept.throw e : Parser β)) s R := by
  rw [Consumes, Ensures, EStateM.run_bind]
  cases x.run s
  case ok    => trivial
  case error => trivial

-- Where it makes no difference that the end has been seen.
theorem peek {f : Option UInt8 → Parser β}
    (h : ∀ s', s'.unread = s.unread → Consumes (f s'.unread.head?) s' R) :
    Consumes (Json.peek >>= f) s R :=
  Ensures.bind (ensures_peek fun s' hs => Ensures.imp (h s' hs) fun _ _ ⟨t, ht, hr⟩ => ⟨t, hs ▸ ht, hr⟩)

theorem peekChar {f : UInt8 → Parser β}
    (h : ∀ s', s'.unread = s.unread → Consumes (f (s'.unread.head?.getD 0xff)) s' R) :
    Consumes (Json.peekChar >>= f) s R :=
  Ensures.bind (ensures_peekChar fun s' hs => Ensures.imp (h s' hs) fun _ _ ⟨t, ht, hr⟩ => ⟨t, hs ▸ ht, hr⟩)

theorem getc {f : Option UInt8 → Parser β} {c : UInt8} (hc : s.unread.head? = some c)
    (h : ∀ s', Consumes (f (some c)) s' fun t => R (c :: t)) : Consumes (Json.getc >>= f) s R := by
  obtain ⟨u, e⟩ := s
  cases u
  case nil => cases hc
  case cons b q =>
    obtain rfl : b = c := Option.some.inj hc
    refine Ensures.bind (.of_run getc_cons (Ensures.imp (h ⟨q, e⟩) fun _ _ ⟨t, ht, hr⟩ => ⟨b :: t, ?_, hr⟩))
    exact congrArg (b :: ·) ht

theorem getChar {f : UInt8 → Parser β} (h : ∀ c s', Consumes (f c) s' fun t => R (c :: t))
    (hend : Consumes (f 0xff) ⟨[], true⟩ R) : Consumes (Json.getChar >>= f) s R := by
  obtain ⟨u, e⟩ := s
  cases u
  case nil => exact Ensures.bind (.of_run getChar_nil hend)
  case cons c q =>
    refine Ensures.bind (.of_run getChar_cons (Ensures.imp (h c ⟨q, e⟩) fun _ _ ⟨t, ht, hr⟩ => ⟨c :: t, ?_, hr⟩))
    exact congrArg (c :: ·) ht

-- A backslash can be the last character of the input.
theorem parseEscape {f : UInt8 → Parser β} (hs : s.unread.head?.getD 0xff = backslash)
    (h : ∀ c s', Consumes (f (unescape c)) s' fun t => R (backslash :: c :: t))
    (hend : Consumes (f 0xff) ⟨[], true⟩ fun t => R (backslash :: t)) :
    Consumes (Json.parseEscape >>= f) s R := by
  obtain ⟨u, e⟩ := s
  match u with
  | []          => cases hs
  | [b]         =>
    obtain rfl : b = backslash := hs
    refine Ensures.bind (.of_run parseEscape_nil (Ensures.imp hend fun _ _ ⟨t, ht, hr⟩ => ⟨backslash :: t, ?_, hr⟩))
    exact congrArg (backslash :: ·) ht
  | b :: c :: q =>
    obtain rfl : b = backslash := hs
    refine Ensures.bind (.of_run parseEscape_cons (Ensures.imp (h c ⟨q, e⟩) fun _ _ ⟨t, ht, hr⟩ =>
      ⟨backslash :: c :: t, ?_, hr⟩))
    exact congrArg (backslash :: c :: ·) ht

-- A character that does not stand for the end.
theorem head_of_getD {s : Stringstream} {c : UInt8} (h : s.unread.head?.getD 0xff = c)
    (hc : c ≠ 0xff) :
    s.unread.head? = some c := by
  cases hs : s.unread.head?
  case none   => rw [hs] at h; exact absurd h.symm hc
  case some b => rw [hs] at h; exact congrArg some h

end Consumes

section Tokens

variable {s : Stringstream} {fuel : Nat} {token : Bytes}

theorem consumes_skipWhiteSpace_go {skipped : Bool} :
    Consumes (skipWhiteSpace.go fuel skipped) s fun t _ => Ws t := by
  induction fuel generalizing s skipped
  case zero => exact .throw
  case succ fuel hi =>
    refine .peek fun s' hs => ?_
    cases hc : s'.unread.head?
    case none => exact .pure (List.forall_mem_nil _)
    case some c =>
      refine .ite (fun hspace => .getc hc fun s'' => hi.imp fun t b ht => ?_) fun _ =>
        .ite (fun _ => .throw) fun _ => .pure (List.forall_mem_nil _)
      exact List.forall_mem_cons.mpr ⟨hspace, ht⟩

theorem consumes_skipWhiteSpace : Consumes (skipWhiteSpace fuel) s fun t _ => Ws t :=
  consumes_skipWhiteSpace_go

-- A token as it is written, and its characters. What follows a backslash is part of the token,
-- whatever it is, and a backslash at the end of the input stands for the character that stands for
-- the end.
inductive Token : Bytes → Bytes → Prop
  | nil : Token [] []
  | char {c : UInt8} {s t : Bytes} (hc : Relaxed.isTokenChar c) (h : Token s t) : Token (c :: s) (c :: t)
  | escape {c : UInt8} {s t : Bytes} (h : Token s t) : Token (backslash :: c :: s) (unescape c :: t)
  | cut : Token [backslash] [0xff]

-- One delimiter is consumed with a token.
def Delimited (d : Bytes) : Prop :=
  d = [] ∨ ∃ c, d = [c] ∧ Relaxed.isDelimiter c

-- What is read from the text `t` as a token.
def TokenText (t token : Bytes) : Prop :=
  ∃ u d, t = u ++ d ∧ Token u token ∧ Delimited d

theorem TokenText.nil : TokenText [] [] :=
  ⟨[], [], rfl, .nil, .inl rfl⟩

theorem consumes_tokenFromStream_go :
    Consumes (Relaxed.tokenFromStream.go fuel token) s fun t r => ∃ T, r = token ++ T ∧
    TokenText t T := by
  induction fuel generalizing s token
  case zero => exact .throw
  case succ fuel hi =>
    refine .peekChar fun s' _ => .ite (fun hc => ?escape) fun hb => .ite (fun hc => ?delimiter) fun _ =>
      .ite (fun hc => ?char) fun _ => .pure ⟨[], (List.append_nil _).symm, .nil⟩
    case escape =>
      refine .parseEscape hc (fun c s'' => hi.imp fun t r ⟨T, hr, u, d, hu, hT, hd⟩ => ?_) ?_
      case refine_1 =>
        refine ⟨unescape c :: T, by rw [hr, List.append_assoc, List.singleton_append], ?_⟩
        exact ⟨backslash :: c :: u, d, by rw [hu]; rfl, .escape hT, hd⟩
      case refine_2 =>
        -- The next round sees the end.
        cases fuel
        case zero => exact .throw
        case succ => exact .of_run rfl ⟨[], rfl, [0xff], rfl, [backslash], [], rfl, .cut, .inl rfl⟩
    case delimiter =>
      have hc' := Consumes.head_of_getD rfl fun h => by rw [h] at hc; cases hc
      refine .getc hc' fun s'' => .pure ⟨[], (List.append_nil _).symm, [], [_], rfl, .nil, .inr ⟨_, rfl, hc⟩⟩
    case char =>
      have hc' := Consumes.head_of_getD rfl fun h => by rw [h] at hc; cases hc
      refine .getc hc' fun s'' => hi.imp fun t r ⟨T, hr, u, d, hu, hT, hd⟩ => ?_
      exact ⟨_ :: T, by rw [hr, List.append_assoc, List.singleton_append], _ :: u, d, by rw [hu]; rfl, .char hc hT, hd⟩

theorem consumes_tokenFromStream : Consumes (Relaxed.tokenFromStream fuel) s TokenText :=
  .peekChar fun s' _ => consumes_tokenFromStream_go.imp fun t r ⟨T, hr, hT⟩ => by rw [hr, List.nil_append]; exact hT

end Tokens

section Strings

variable {s : Stringstream} {fuel : Nat} {token : Bytes}

-- The bytes of a string that stand for themselves.
structure StrictLiteral (b : UInt8) : Prop where
  eof            : b ≠ 0xff
  quote          : b ≠ Ascii.quote
  transmission   : b ≠ 0x04
  backslash      : b ≠ Ascii.backslash
  carriageReturn : b ≠ Ascii.carriageReturn
  newline        : b ≠ Ascii.newline

-- A string in quotes.
def StrictString (t k : Bytes) : Prop :=
  ∃ b, t = [quote] ++ b ++ [quote] ∧ Body StrictLiteral b k

theorem consumes_quoteLoop :
    Consumes (Relaxed.quoteLoop true quote fuel token) s fun t r =>
      ∃ b k, r = token ++ k ∧ t = b ++ [quote] ∧ Body StrictLiteral b k := by
  induction fuel generalizing s token
  case zero => exact .throw
  case succ fuel hi =>
    refine .peekChar fun s' _ => .ite (fun _ => .throw) fun hff => .ite (fun hq => ?close) fun hq =>
      .ite (fun _ => .throw) fun h4 => .ite (fun hb => ?escape) fun hb => .ite (fun _ => .throw) fun hn => ?char
    case close =>
      exact .getc (Consumes.head_of_getD hq (by decide)) fun _ =>
        .pure ⟨[], [], (List.append_nil _).symm, rfl, .nil⟩
    case escape =>
      refine .parseEscape hb.2 (fun c s'' => hi.imp fun t r ⟨b, k, hr, hbt, hbody⟩ => ?_) ?_
      case refine_1 =>
        refine ⟨backslash :: c :: b, unescape c :: k, ?_, by rw [hbt]; rfl, .escape hbody⟩
        rw [hr, List.append_assoc, List.singleton_append]
      case refine_2 =>
        cases fuel
        case zero => exact .throw
        case succ => exact .peekChar fun s'' hs => .ite (fun _ => .throw) fun h => absurd (by rw [hs]; rfl) h
    case char =>
      have hc' := Consumes.head_of_getD rfl hff
      refine .getc hc' fun s'' => hi.imp fun t r ⟨b, k, hr, hbt, hbody⟩ => ?_
      refine ⟨_ :: b, _ :: k, by rw [hr, List.append_assoc, List.singleton_append], by rw [hbt]; rfl, .literal ?_ hbody⟩
      exact ⟨hff, hq, h4, fun h => hb ⟨rfl, h⟩, fun h => hn (.inl h), fun h => hn (.inr h)⟩

theorem consumes_quoteStringFromStream :
    Consumes (Relaxed.quoteStringFromStream true true fuel) s StrictString := by
  refine .getChar (fun c s' => ?_) .throw
  refine .ite (fun _ => .throw) fun hc => .ite (fun _ => .throw) fun hc' => ?_
  have hq : c = quote := by
    by_contra hne
    exact hc' ⟨fun h => hc ⟨h, rfl⟩, hne⟩
  subst hq
  refine .peek fun s'' _ => .ite (fun hq => .getc hq fun _ => .peek fun _ _ => .ite (fun _ => .pure ?_) fun _ => .throw)
    fun _ => consumes_quoteLoop.imp fun t r ⟨b, k, hr, ht, hb⟩ => ?_
  case refine_1 => exact ⟨[], rfl, .nil⟩
  case refine_2 => exact ⟨b, by rw [ht]; rfl, by rw [hr]; exact hb⟩

theorem consumes_stringFromStream : Consumes (Relaxed.stringFromStream true fuel) s StrictString :=
  .peekChar fun _ _ => .ite (fun _ => .throw) fun _ => .ite (fun _ => consumes_quoteStringFromStream) fun _ =>
    .ite (fun _ => .throw) fun _ => .ite (fun hc => .getc (Consumes.head_of_getD rfl (by rcases hc with h | h <;> rw [h] <;> decide))
      fun _ => .peekChar fun _ _ => .ite (fun _ => .throw) fun _ => .throw) fun _ =>
    .ite (fun _ => .throw) fun _ => .ite (fun _ => .throw) fun _ => .throw

end Strings

section Numbers

variable {L : LexicalCast} {token ds r : Bytes} {v : Variant}

-- A number as the strict parser reads it from a token: an integer in range without a leading zero,
-- or an integer with an exponent, which is converted to a `double`.
inductive NumberToken (L : LexicalCast) : Bytes → Variant → Prop
  | integer {n : Number} (h : n.Plain) : NumberToken L n.text (Relaxed.ofPlain n)
  | double {neg : Bool} {int r : Bytes} {letter : UInt8} {sign : Option UInt8} {d : UInt64} (hint : Decimal.Numeral int)
      (hzero : int.head? = some zero → int = [zero]) (hletter : letter = 'e'.toUInt8 ∨ letter = 'E'.toUInt8)
      (hsign : ∀ c, sign = some c → c = plus ∨ c = minus) (hr : r ≠ []) (hdigit : sign = none → ∃ c q, r = c :: q ∧ isDigit c)
      (hdigits : ∀ c ∈ r, isDigit c ∨ Relaxed.isTokenChar c = false)
      (hd : L.toDouble (((if neg then [minus] else []) ++ int ++ [letter] ++ sign.toList ++ r).takeWhile (· ≠ 0)) = some d) :
      NumberToken L ((if neg then [minus] else []) ++ int ++ [letter] ++ sign.toList ++ r) (.double d)

theorem notNumber_strict {m : String} : Relaxed.notNumber true token m ≠ .ok v :=
  nofun

theorem exponentDigits_sound (h : Relaxed.exponentDigits L true token r = .ok v) :
    (∀ c ∈ r, isDigit c ∨ Relaxed.isTokenChar c = false) ∧ Relaxed.toDouble L token = .ok v := by
  induction r
  case nil => exact ⟨List.forall_mem_nil _, h⟩
  case cons c r hi =>
    rw [Relaxed.exponentDigits] at h
    split_ifs at h
    case pos hd => exact ⟨List.forall_mem_cons.mpr ⟨.inl hd, (hi h).1⟩, (hi h).2⟩
    case neg _ ht => exact ⟨List.forall_mem_cons.mpr ⟨.inr (Bool.eq_false_of_not_eq_true ht), (hi h).1⟩, (hi h).2⟩
    case pos => exact absurd h notNumber_strict

-- What follows the letter of an exponent.
theorem exponent_sound (h : Relaxed.exponent L true token r = .ok v) :
    ∃ (sign : Option UInt8) (q : Bytes), r = sign.toList ++ q ∧
    (∀ c, sign = some c → c = plus ∨ c = minus) ∧ q ≠ [] ∧
      (sign = none → ∃ c q', q = c :: q' ∧ isDigit c) ∧
      (∀ c ∈ q, isDigit c ∨ Relaxed.isTokenChar c = false) ∧
      Relaxed.toDouble L token = .ok v := by
  cases r
  case nil => exact absurd h notNumber_strict
  case cons c r =>
    rw [Relaxed.exponent] at h
    split_ifs at h
    case pos hc _ => exact absurd h notNumber_strict
    case neg hc hr =>
      obtain ⟨hdigits, hdouble⟩ := exponentDigits_sound h
      exact ⟨some c, r, rfl, fun c' he => Option.some.inj he ▸ hc, hr, (fun h => by cases h), hdigits, hdouble⟩
    case pos hd =>
      obtain ⟨hdigits, hdouble⟩ := exponentDigits_sound h
      exact ⟨none, c :: r, rfl, (fun _ h => by cases h), List.cons_ne_nil _ _, fun _ => ⟨c, r, rfl, hd⟩,
        List.forall_mem_cons.mpr ⟨.inl hd, hdigits⟩, hdouble⟩
    case pos => exact absurd h notNumber_strict
    case neg => cases h

theorem numberLoop_sound (h : Relaxed.numberLoop L true token ds r = .ok v)
    (hv : Relaxed.isNumber v) :
    ∃ ds' q, r = ds' ++ q ∧ (∀ d ∈ ds', isDigit d) ∧
    (q = [] ∧ Relaxed.parseInt 10 token ds = .ok v ∨
      ∃ c q', q = c :: q' ∧ (c = 'e'.toUInt8 ∨ c = 'E'.toUInt8) ∧
      Relaxed.exponent L true token q' = .ok v) := by
  induction r
  case nil => exact ⟨[], [], rfl, List.forall_mem_nil _, .inl ⟨rfl, h⟩⟩
  case cons c r hi =>
    rw [Relaxed.numberLoop] at h
    split_ifs at h
    case pos hd =>
      obtain ⟨ds', q, hr, hds', hq⟩ := hi h
      exact ⟨c :: ds', q, by rw [hr]; rfl, List.forall_mem_cons.mpr ⟨hd, hds'⟩, hq⟩
    case pos =>
      cases h
      cases hv
    case pos he => exact ⟨[], c :: r, rfl, List.forall_mem_nil _, .inr ⟨c, r, rfl, he, h⟩⟩
    case pos => exact absurd h notNumber_strict

-- A round overflows if the number does.
theorem parseInt_go_sound (hd : ∀ d ∈ ds, isDigit d) {val w : UInt64}
    (h : Relaxed.parseInt.go 10 val ds = .ok w) :
    ds.foldl (fun n d => n * 10 + (d.toNat - 0x30)) val.toNat = w.toNat := by
  induction ds generalizing val
  case nil => cases h; rfl
  case cons d ds hi =>
    have ⟨hdigit, hds⟩ := List.forall_mem_cons.mp hd
    have ⟨hne, hvalue, hle⟩ := Relaxed.charValue_digit hdigit
    simp only [Relaxed.parseInt.go, if_neg hne] at h
    split_ifs at h with hdiv hlt
    have hval : val.toNat ≤ 1844674407370955161 := by
      have := UInt64.not_lt.mp hdiv
      exact UInt64.le_iff_toNat_le.mp this
    have hmul : (val * 10).toNat = val.toNat * 10 := by
      have h10 : (10 : UInt64).toNat = 10 := rfl
      rw [UInt64.toNat_mul, h10]
      omega
    have hadd : (val * 10 + (Relaxed.charValue d).toUInt64).toNat = val.toNat * 10 + (d.toNat - 0x30) := by
      rw [UInt64.lt_iff_toNat_lt, UInt64.toNat_add, hmul, hvalue] at hlt
      rw [UInt64.toNat_add, hmul, hvalue]
      omega
    rw [List.foldl_cons, ← hadd]
    exact hi hds h

theorem numeral_of_digits {d : UInt8} (hd : isDigit d) (hds : ∀ d ∈ ds, isDigit d) :
    Decimal.Numeral (d :: ds) :=
  ⟨List.cons_ne_nil _ _, List.forall_mem_cons.mpr ⟨hd, hds⟩⟩

theorem parseInt_sound {neg : Bool} (hn : Decimal.Numeral ds)
    (hzero : ds.head? = some zero → ds = [zero])
    (hne : ds ≠ [zero]) (h : Relaxed.parseInt 10 ((if neg then [minus] else []) ++ ds) ds = .ok v) :
    NumberToken L ((if neg then [minus] else []) ++ ds) v := by
  let n : Number := ⟨neg, ds, none, none, hn, hzero, (fun _ h => by cases h)⟩
  have htext : n.text = (if neg then [minus] else []) ++ ds := n.text_eq ⟨rfl, rfl⟩
  have hplain : n.Plain := by
    rw [Relaxed.parseInt, if_neg hn.nonempty] at h
    cases hgo : Relaxed.parseInt.go 10 0 ds
    case error => rw [hgo] at h; cases h
    case ok w =>
      have hvalue : Decimal.value ds = w.toNat := parseInt_go_sound hn.digits hgo
      have hw := w.toNat_lt
      simp only [hgo, bind, Except.bind] at h
      refine ⟨⟨rfl, rfl⟩, ?_, ?_⟩
      all_goals
        simp only [Number.intValue, n, hvalue]
        cases neg
      case refine_1.false => simp
      case refine_2.false => simpa using hw
      case refine_2.true => simp only [if_true]; omega
      case refine_1.true =>
        simp only [if_true, List.singleton_append, List.head?_cons] at h ⊢
        by_cases hmax : Relaxed.int64MaxPlusOne < w
        case pos => rw [if_pos hmax] at h; cases h
        case neg =>
          have hle : w.toNat ≤ 2 ^ 63 := UInt64.le_iff_toNat_le.mp (UInt64.not_lt.mp hmax)
          omega
  have hparse := Relaxed.parseInt_plain hplain
  rw [htext] at hparse
  have hv : v = Relaxed.ofPlain n := by
    rw [Relaxed.ofPlain, if_neg hne]
    exact Except.ok.inj (h.symm.trans hparse)
  rw [← htext, hv]
  exact .integer hplain

theorem double_sound {neg : Bool} {int q : Bytes} {c : UInt8} (hint : Decimal.Numeral int)
    (hzero : int.head? = some zero → int = [zero]) (hc : c = 'e'.toUInt8 ∨ c = 'E'.toUInt8)
    (ht : token = (if neg then [minus] else []) ++ (int ++ c :: q))
    (h : Relaxed.exponent L true token q = .ok v) :
    NumberToken L token v := by
  have ⟨sign, r, hq, hsign, hr, hdigit, hdigits, hdouble⟩ := exponent_sound h
  have ht : token = (if neg then [minus] else []) ++ int ++ [c] ++ sign.toList ++ r := by
    rw [ht, hq]
    simp
  rw [Relaxed.toDouble] at hdouble
  split at hdouble
  case h_2 => cases hdouble
  case h_1 d hd =>
    cases hdouble
    rw [ht] at hd ⊢
    exact .double hint hzero hc hsign hr hdigit hdigits hd

-- An integer that starts with zero is zero.
theorem afterZero_sound {neg : Bool} (ht : token = (if neg then [minus] else []) ++ zero :: r)
    (h : Relaxed.afterZero L true token (zero :: r) r = .ok v) (hv : Relaxed.isNumber v) :
    NumberToken L token v := by
  have hnumeral : Decimal.Numeral [zero] := numeral_of_digits rfl (List.forall_mem_nil _)
  cases r
  case nil =>
    cases h
    let n : Number := ⟨neg, [zero], none, none, hnumeral, fun _ => rfl, (fun _ h => by cases h)⟩
    have hn : n.Plain := by
      refine ⟨⟨rfl, rfl⟩, ?_, ?_⟩
      all_goals
        simp only [Number.intValue, n]
        cases neg <;> decide
    have htext : n.text = (if neg then [minus] else []) ++ [zero] := n.text_eq ⟨rfl, rfl⟩
    rw [ht, ← htext]
    exact .integer hn
  case cons d r =>
    rw [Relaxed.afterZero] at h
    have hd : isDigit d = false := by
      by_contra hd
      rw [Bool.not_eq_false] at hd
      have hne {c : UInt8} (hc : isDigit c = false) : d ≠ c := fun he => by rw [he, hc] at hd; cases hd
      have hne₂ {c c' : UInt8} (hc : isDigit c = false) (hc' : isDigit c' = false) : ¬(d = c ∨ d = c') :=
        not_or.mpr ⟨hne hc, hne hc'⟩
      rw [if_neg (hne₂ rfl rfl), if_neg (hne₂ rfl rfl), if_neg (hne₂ rfl rfl),
        if_pos ⟨rfl, not_or.mpr ⟨hne rfl, hne₂ rfl rfl⟩⟩] at h
      cases h
    have hloop : Relaxed.numberLoop L true token (zero :: d :: r) (d :: r) = .ok v := by
      by_cases hb : d = 'b'.toUInt8 ∨ d = 'B'.toUInt8
      case pos => rw [if_pos hb, if_pos rfl] at h; cases h
      case neg =>
        rw [if_neg hb] at h
        by_cases ho : d = 'o'.toUInt8 ∨ d = 'O'.toUInt8
        case pos => rw [if_pos ho, if_pos rfl] at h; cases h
        case neg =>
          rw [if_neg ho] at h
          by_cases hx : d = 'x'.toUInt8 ∨ d = 'X'.toUInt8
          case pos => rw [if_pos hx, if_pos rfl] at h; cases h
          case neg =>
            rw [if_neg hx] at h
            split at h
            case isTrue  => cases h
            case isFalse => exact h
    obtain ⟨ds', q, hr, hds', hq⟩ := numberLoop_sound hloop hv
    have hnil : ds' = [] := by
      cases ds'
      case nil => rfl
      case cons d' ds' =>
        rw [(List.cons.inj hr).1, hds' d' (List.mem_cons_self ..)] at hd
        cases hd
    rw [hnil, List.nil_append] at hr
    rcases hq with ⟨hq, _⟩ | ⟨c, q', hq, hc, hexp⟩
    case inl => rw [hq] at hr; cases hr
    case inr =>
      refine @double_sound _ _ _ neg _ _ _ hnumeral (fun _ => rfl) hc ?_ hexp
      rw [ht, hr, hq]
      rfl

theorem unsignedNumber_sound {neg : Bool} {us : Bytes}
    (ht : token = (if neg then [minus] else []) ++ us)
    (h : Relaxed.unsignedNumber L true token us = .ok v) (hv : Relaxed.isNumber v) :
    NumberToken L token v := by
  cases us
  case nil => cases h
  case cons c r =>
    rw [Relaxed.unsignedNumber] at h
    split_ifs at h with hz hd htoken
    · rw [hz] at h ht
      exact afterZero_sound ht h hv
    · obtain ⟨ds', q, hr, hds', hq⟩ := numberLoop_sound h hv
      have hhead (ds : Bytes) : (c :: ds).head? ≠ some zero := fun he => hz (Option.some.inj he)
      rcases hq with ⟨hq, hint⟩ | ⟨e, q', hq, he, hexp⟩
      case inl =>
        rw [hq, List.append_nil] at hr
        rw [ht] at hint ⊢
        have hne : c :: r ≠ [zero] := fun he => hz (List.cons.inj he).1
        exact parseInt_sound (numeral_of_digits hd (hr ▸ hds')) (fun he => absurd he (hhead r)) hne hint
      case inr =>
        refine @double_sound _ _ _ neg _ _ _ (numeral_of_digits hd hds') (fun he => absurd he (hhead ds')) he ?_ hexp
        rw [ht, hr, hq]
        rfl
    · exact absurd h notNumber_strict
    · cases h

-- What the strict parser takes for a number is one.
theorem parseNumberOrStr_sound (h : Relaxed.parseNumberOrStr L true token = .ok v)
    (hv : Relaxed.isNumber v) :
    NumberToken L token v := by
  cases token
  case nil => cases h
  case cons c r =>
    rw [Relaxed.parseNumberOrStr] at h
    by_cases hplus : c = plus
    case pos =>
      rw [if_pos ⟨hplus, rfl⟩] at h
      cases h
    case neg =>
      rw [if_neg fun h => hplus h.1] at h
      by_cases hminus : c = minus
      case pos =>
        rw [if_pos (.inr hminus)] at h
        exact @unsignedNumber_sound _ _ _ true _ (by rw [hminus]; rfl) h hv
      case neg =>
        rw [if_neg (not_or.mpr ⟨hplus, hminus⟩)] at h
        exact @unsignedNumber_sound _ _ _ false _ rfl h hv

theorem consumes_numberFromStream {s : Stringstream} {fuel : Nat} :
    Consumes (Relaxed.numberFromStream L true fuel) s fun t v => ∃ T, TokenText t T ∧
    NumberToken L T v := by
  refine consumes_tokenFromStream.bind fun t T s' hT => ?_
  cases hv : Relaxed.parseNumberOrStr L true T
  case error => exact .throw
  case ok v =>
    refine .ite (fun _ => .throw) fun hnum => .pure ⟨T, by rwa [List.append_nil], parseNumberOrStr_sound hv ?_⟩
    simpa using hnum

end Numbers

section Words

inductive WordToken : Bytes → Variant → Prop
  | null : WordToken (ascii "null") .null
  | bool (b : Bool) : WordToken (ascii (if b then "true" else "false")) (.bool b)

theorem consumes_wordFromStream {s : Stringstream} {fuel : Nat} :
    Consumes (Relaxed.wordFromStream true fuel) s fun t v => ∃ T, TokenText t T ∧
    WordToken T v := by
  refine consumes_tokenFromStream.bind fun t T s' hT => .ite (fun _ => .throw) fun _ => .ite (fun hn => .pure ?_) fun _ =>
    .ite (fun ht => .pure ?_) fun _ => .ite (fun hf => .pure ?_) fun _ => .throw
  all_goals rw [List.append_nil]
  case refine_1 => exact ⟨T, hT, hn ▸ .null⟩
  case refine_2 => exact ⟨T, hT, ht ▸ .bool true⟩
  case refine_3 => exact ⟨T, hT, hf ▸ .bool false⟩

end Words

-- The language of the strict parser. Elements and members stand in any number of commas and white
-- space, also none, and there can be commas before the first and after the last.
inductive Lenient (L : LexicalCast) : Bytes → Variant → Prop
  | word {t token : Bytes} {v : Variant} (ht : TokenText t token) (h : WordToken token v) :
  Lenient L t v
  | number {t token : Bytes} {v : Variant} (ht : TokenText t token) (h : NumberToken L token v) : Lenient L t v
  | string {t k : Bytes} (h : StrictString t k) : Lenient L t (.string k)
  | array {s : Bytes} {vs : List Variant} (h : Sequence (Lenient L) (fun _ => True) s vs) :
      Lenient L ([openBracket] ++ s ++ [closeBracket]) (.array vs)
  | object {s : Bytes} {es : List (Bytes × Variant)}
      (h : Sequence (Member StrictString (Lenient L)) (fun _ => True) s es) :
      Lenient L ([openBrace] ++ s ++ [closeBrace]) (.object es)

section Containers

variable {s : Stringstream} {fuel : Nat} {R : Bytes → α → Prop}

-- What reads a value or a member, with white space around it.
def Padded (R : Bytes → α → Prop) (t : Bytes) (a : α) : Prop :=
  ∃ w u w', t = w ++ (u ++ w') ∧ Ws w ∧ R u a ∧ Ws w'

-- Each item is added at the end.
def ConsumesItem (item : Nat → List α → Parser (List α)) (R : Bytes → α → Prop) : Prop :=
  ∀ fuel acc s, Consumes (item fuel acc) s fun t as => ∃ a, as = acc ++ [a] ∧ Padded R t a

theorem consumes_containerLoop {close : UInt8} {item : Nat → List α → Parser (List α)}
    {acc : List α}
    (hitem : ConsumesItem item R) :
    Consumes (containerLoop close item fuel acc) s fun t as =>
      ∃ u bs, t = u ++ [close] ∧ as = acc ++ bs ∧ Sequence R (fun _ => True) u bs := by
  induction fuel generalizing s acc
  case zero => exact .throw
  case succ fuel hi =>
    refine .peek fun s' _ => .ite (fun hc => ?close) fun _ => .ite (fun hc => ?comma) fun _ =>
      consumes_skipWhiteSpace.bind fun w b s'' hw => .ite (fun _ => ?spaces) fun _ => ?item
    case close => exact .getc hc fun _ => .pure ⟨[], [], rfl, (List.append_nil _).symm, .nil⟩
    case comma =>
      refine .getc hc fun _ => hi.imp fun t as ⟨u, bs, ht, has, hu⟩ => ⟨comma :: u, bs, ?_, has, .skip rfl hu⟩
      rw [ht]
      rfl
    case spaces =>
      refine hi.imp fun t as ⟨u, bs, ht, has, hu⟩ => ⟨w ++ u, bs, ?_, has, hu.spaces hw⟩
      rw [ht, List.append_assoc]
    case item =>
      refine (hitem fuel acc s'').bind fun t as _ ⟨a, has, w₁, u, w₂, ht, hw₁, hu, hw₂⟩ =>
        hi.imp fun t' as' ⟨u', bs, ht', has', hu'⟩ => ?_
      have hseq := ((Sequence.cons hu trivial (hu'.spaces hw₂)).spaces hw₁).spaces hw
      refine ⟨_, a :: bs, ?_, ?_, hseq⟩
      · rw [ht, ht']
        simp only [List.append_assoc]
      · rw [has', has, List.append_assoc, List.singleton_append]

-- What is read of a value, where the white space before it is skipped.
def ConsumesValue (v : Parser Variant) (R : Bytes → Variant → Prop) : Prop :=
  ∀ s, Consumes v s fun t a => ∃ w u, t = w ++ u ∧ Ws w ∧ R u a

variable {R : Bytes → Variant → Prop} {d : UInt32}

theorem consumesItem_elementFromStream {v : Parser Variant} (hv : ConsumesValue v R) :
    ConsumesItem (elementFromStream v) R := by
  intro fuel acc s
  refine (hv s).bind fun t a _ ⟨w, u, ht, hw, hu⟩ => consumes_skipWhiteSpace.bind fun w' _ _ hw' => .pure ?_
  exact ⟨a, rfl, w, u, w', by rw [ht, List.append_nil, List.append_assoc], hw, hu, hw'⟩

theorem consumes_arrayFromStream {v : UInt32 → Parser Variant} (hv : ∀ d, ConsumesValue (v d) R) :
    Consumes (arrayFromStream v fuel d) s fun t vs =>
      ∃ u, t = [openBracket] ++ u ++ [closeBracket] ∧ Sequence R (fun _ => True) u vs := by
  refine .peek fun s' _ => .ite (fun _ => .throw) fun hc => .getc (not_not.mp hc) fun _ =>
    consumes_skipWhiteSpace.bind fun w _ _ hw =>
      (consumes_containerLoop (consumesItem_elementFromStream (hv _))).imp fun t vs ⟨u, bs, ht, hvs, hu⟩ => ?_
  refine ⟨w ++ u, ?_, hvs ▸ hu.spaces hw⟩
  rw [ht]
  simp

theorem consumesItem_entryFromStream {v : Parser Variant} (hv : ConsumesValue v R) :
    ConsumesItem (Relaxed.entryFromStream (Relaxed.stringFromStream true fuel) v) (Member StrictString R) := by
  intro n acc s
  refine consumes_stringFromStream.bind fun k key _ hk => consumes_skipWhiteSpace.bind fun w _ _ hw =>
    .peek fun s' _ => .ite (fun _ => .throw) fun hc => .getc (not_not.mp hc) fun s'' =>
      (hv s'').bind fun t a _ ⟨w₁, u, ht, hw₁, hu⟩ => consumes_skipWhiteSpace.bind fun w₂ _ _ hw₂ => .pure ?_
  refine ⟨(key, a), rfl, [], _, w₂, ?_, List.forall_mem_nil _, .intro hk hw hw₁ hu, hw₂⟩
  rw [ht]
  simp

theorem consumes_catchEof {x : Parser α} {P : Bytes → α → Prop} (h : Consumes x s P) :
    Consumes (catchEof x) s P :=
  ensures_catchEof ⟨fun _ => trivial, fun _ => trivial, fun _ => trivial⟩ h

theorem consumes_objectFromStream {v : UInt32 → Parser Variant} (hv : ∀ d, ConsumesValue (v d) R)
    {n : Nat} :
    Consumes (Relaxed.objectFromStream (Relaxed.stringFromStream true n) v fuel d) s fun t es =>
      ∃ u, t = [openBrace] ++ u ++ [closeBrace] ∧
      Sequence (Member StrictString R) (fun _ => True) u es := by
  refine consumes_catchEof (.peekChar fun s' _ => .ite (fun _ => .throw) fun hc =>
    .getc (Consumes.head_of_getD (not_not.mp hc) (by decide)) fun _ => consumes_skipWhiteSpace.bind fun w _ _ hw =>
      (consumes_containerLoop (consumesItem_entryFromStream (hv _))).imp fun t es ⟨u, bs, ht, hes, hu⟩ => ?_)
  refine ⟨w ++ u, ?_, hes ▸ hu.spaces hw⟩
  rw [ht]
  simp

end Containers

section Values

variable {L : LexicalCast} {s : Stringstream} {fuel n : Nat}

theorem consumes_variantSwitch {v : UInt32 → Parser Variant} {d : UInt32}
    (hv : ∀ d, ConsumesValue (v d) (Lenient L))
    (hs : ∀ c, s.unread.head? = some c → isSpace c = false ∧ c ≠ 0) :
    Consumes (Relaxed.variantSwitch (Relaxed.reader L true n) v d fuel) s (Lenient L) := by
  cases fuel
  case zero => exact .throw
  case succ fuel =>
    have hc {c : UInt8} (h : s.unread.head?.getD 0xff = c) (hc : c ≠ 0xff) : isSpace c = false ∧ c ≠ 0 :=
      hs c (Consumes.head_of_getD h hc)
    refine .peekChar fun s' hs' => ?_
    rw [hs']
    refine .ite (fun h0 => absurd rfl (hc h0 (by decide)).2) fun _ => .ite (fun hspace => ?space) fun _ =>
      .ite (fun _ => consumes_stringFromStream.bind fun t k _ hk => ?string) fun _ =>
      .ite (fun _ => (consumes_objectFromStream hv).bind fun t es _ ⟨u, ht, hu⟩ => ?object) fun _ =>
      .ite (fun _ => (consumes_arrayFromStream hv).bind fun t vs _ ⟨u, ht, hu⟩ => ?array) fun _ =>
      .ite (fun _ => consumes_numberFromStream.imp fun t a ⟨T, hT, hn⟩ => .number hT hn) fun _ =>
      .ite (fun _ => consumes_wordFromStream.imp fun t a ⟨T, hT, hw⟩ => .word hT hw) fun _ =>
      .ite (fun _ => .throw) fun _ => ?unexpected
    case space =>
      have := (hc rfl fun h => by rw [h] at hspace; cases hspace).1
      rw [hspace] at this
      cases this
    case string => exact .pure (by rw [List.append_nil]; exact .string hk)
    case object => exact .pure (by rw [List.append_nil, ht]; exact .object hu)
    case array => exact .pure (by rw [List.append_nil, ht]; exact .array hu)
    case unexpected => exact .never

theorem consumes_variantFromStream {stack : Nat} {d : UInt32} :
    ConsumesValue (Relaxed.variantFromStream (Relaxed.reader L true fuel) fuel stack d) (Lenient L) := by
  induction stack generalizing d
  case zero => exact fun s => .throw
  case succ stack hi =>
    intro s
    have hhead := @ensures_skipWhiteSpace (fun _ => True) fuel _ s ⟨fun _ => trivial, fun _ => trivial, fun _ => trivial⟩
      (Nat.le_refl _) (.inr trivial)
    have hskip := Ensures.and consumes_skipWhiteSpace hhead
    refine Ensures.bind (hskip.imp fun b s' ⟨⟨w, hs, hw⟩, _, _, hhead⟩ => ?_)
    refine Ensures.imp (consumes_variantSwitch (fun _ => hi) hhead) fun a s'' ⟨u, hs', hu⟩ => ?_
    exact ⟨w ++ u, by rw [hs, hs', List.append_assoc], w, u, rfl, hw, hu⟩

end Values

-- A text of RFC 8259 does not start with a comma.
theorem Spells.head {d : Dialect} {s : Bytes} {x : Value} (h : Spells d s x) :
    ∃ c q, s = c :: q ∧ isSpace c = false ∧ c ≠ comma := by
  cases h
  case null   => exact ⟨_, _, rfl, rfl, by decide⟩
  case bool b => cases b <;> exact ⟨_, _, rfl, rfl, by decide⟩
  case number n h =>
    have ⟨c, q, hs, hc⟩ := n.head
    have ⟨hhead, hspace, _⟩ := number_cases hc
    exact ⟨c, q, hs, hspace, hhead.comma⟩
  case string h =>
    have .intro _ := h
    exact ⟨quote, _, rfl, rfl, by decide⟩
  case array  => exact ⟨openBracket, _, rfl, rfl, by decide⟩
  case object => exact ⟨openBrace, _, rfl, rfl, by decide⟩

theorem Elements.not_comma {R : Bytes → α → Prop}
    (hR : ∀ s a, R s a → ∃ c q, s = c :: q ∧ isSpace c = false ∧ c ≠ comma)
    {s q : Bytes} {as : List α} (h : Elements R s as) : s ≠ comma :: q := by
  have hws {w t r : Bytes} {a : α} (hw : Ws w) (ha : R t a) : w ++ (t ++ r) ≠ comma :: q := by
    intro he
    cases w
    case nil =>
      have ⟨c, q', ht, _, hc⟩ := hR t a ha
      rw [ht] at he
      exact hc (List.cons.inj he).1
    case cons b w =>
      have hb := hw b (List.mem_cons_self ..)
      rw [(List.cons.inj he).1] at hb
      cases hb
  cases h
  case nil hw =>
    intro he
    have := hw comma (by rw [he]; exact List.mem_cons_self ..)
    cases this
  case one hw h hw' =>
    rw [List.append_assoc]
    exact hws hw h
  case cons hw h hw' _ =>
    simp only [List.append_assoc]
    exact hws hw h

end Json
