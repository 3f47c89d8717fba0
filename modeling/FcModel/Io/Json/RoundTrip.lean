import FcModel.Io.Json.Escape
import FcModel.Io.Json.Completeness

-- The legacy parser reads back what the generator writes.

namespace Json

open Ascii Utf8

section Text

variable {α : Type} {L : LexicalCast} {format : OutputFormatting} {R : Bytes → α → Prop}

-- The elements of an array are written as the grammar has it.
theorem elements_elementsText {f : Variant → α} {vs : List Variant}
    (h : ∀ v ∈ vs, R (text L format v) (f v)) :
    Elements R (elementsText L format vs) (vs.map f) := by
  have hnil : Ws [] := List.forall_mem_nil _
  induction vs
  case nil => exact .nil hnil
  case cons v vs hi =>
    have ⟨hv, hvs⟩ := List.forall_mem_cons.mp h
    have hi := hi hvs
    cases vs
    case nil => simpa [elementsText] using Elements.one hnil hv hnil
    case cons v' vs => simpa [elementsText] using Elements.cons hnil hv hnil hi

theorem elements_entriesText {K : Bytes → α → Prop} {β : Type} {R : Bytes → β → Prop}
    {f : Bytes → α}
    {g : Variant → β} {es : List (Bytes × Variant)}
    (h : ∀ e ∈ es, K (quoted (escaped e.1)) (f e.1) ∧ R (text L format e.2) (g e.2)) :
    Elements (Member K R) (entriesText L format es) (es.map fun e => (f e.1, g e.2)) := by
  have hnil : Ws [] := List.forall_mem_nil _
  induction es
  case nil => exact .nil hnil
  case cons e es hi =>
    have ⟨⟨hk, hv⟩, hes⟩ := List.forall_mem_cons.mp h
    have hm : Member K R (quoted (escaped e.1) ++ [colon] ++ text L format e.2) (f e.1, g e.2) := by
      simpa using Member.intro hk hnil hnil hv
    have hi := hi hes
    cases es
    case nil => simpa [entriesText] using Elements.one hnil hm hnil
    case cons e' es => simpa [entriesText] using Elements.cons hnil hm hnil hi

theorem nesting_le_text (v : Variant) : v.nesting ≤ (text L format v).length := by
  induction v using Variant.induct
  case array vs hi =>
    have hs := elements_elementsText (R := fun s v => Variant.nesting v ≤ s.length) (f := id) hi
    rw [List.map_id] at hs
    refine Variant.nesting_array_le.mpr fun v hv => Nat.lt_of_le_of_lt (hs.le_length v hv) ?_
    simp [text]
  case object es hi =>
    have hs := elements_entriesText (K := fun _ _ => True) (R := fun s v => Variant.nesting v ≤ s.length) (f := id)
      (g := id) fun e he => ⟨trivial, hi e he⟩
    have hlen := (hs.imp fun _ _ h => h.le_length).le_length
    refine Variant.nesting_object_le.mpr fun e he => Nat.lt_of_le_of_lt (hlen e (by simpa using he)) ?_
    simp [text]
  all_goals exact Nat.zero_le _

end Text

-- The variants of the round trip: there are no doubles and no blobs, and all strings are plain.
inductive Textual : Variant → Prop
  | null : Textual .null
  | bool (b : Bool) : Textual (.bool b)
  | int64 (i : Int64) : Textual (.int64 i)
  | uint64 (i : UInt64) : Textual (.uint64 i)
  | string {s : Bytes} (h : PlainText s) : Textual (.string s)
  | array {vs : List Variant} (h : ∀ v ∈ vs, Textual v) : Textual (.array vs)
  | object {es : List (Bytes × Variant)} (hk : ∀ e ∈ es, PlainText e.1) (h : ∀ e ∈ es, Textual e.2) :
      Textual (.object es)

section Strings

theorem PlainText.ne_eof {s : Bytes} (h : PlainText s) : ∀ b ∈ s, b ≠ 0xff := by
  obtain ⟨cs, hs, _⟩ := h
  intro b hb he
  rw [hs, encode, List.mem_flatMap] at hb
  obtain ⟨c, _, hb⟩ := hb
  have hlt := lt_of_mem_utf8EncodeChar hb
  rw [he] at hlt
  exact absurd hlt (by decide)

theorem plainLiteral_of_plainByte {b : UInt8} (hb : PlainByte b) (hff : b ≠ 0xff) (htab : b ≠ tab)
    (hnl : b ≠ newline)
    (hcr : b ≠ carriageReturn) (hquote : b ≠ quote) (hbackslash : b ≠ backslash) :
    PlainLiteral b := by
  refine ⟨Nat.not_lt.mp fun hlt => hb (.inl ⟨?_, htab, hnl, hcr⟩), hff, hquote, hbackslash⟩
  exact UInt8.lt_iff_toNat_lt.mpr hlt

-- What is written for a character stands for it.
theorem Body.escapeChar {b : UInt8} {s t : Bytes} (hb : PlainByte b) (hff : b ≠ 0xff)
    (h : Body PlainLiteral s t) :
    Body PlainLiteral (escapeChar true b ++ s) (b :: t) := by
  rw [Json.escapeChar, if_neg hb, if_pos rfl]
  split_ifs
  case pos he => rw [he]; exact .escape h
  case pos he => rw [he]; exact .escape h
  case pos he => rw [he]; exact .escape h
  case pos he => rw [he]; exact .escape h
  case pos he => rw [he]; exact .escape h
  case neg htab hnl hcr hbackslash hquote =>
    exact .literal (plainLiteral_of_plainByte hb hff htab hnl hcr hquote hbackslash) h

theorem PlainText.named {s : Bytes} (h : PlainText s) : Named (quoted (escaped s)) s := by
  refine ⟨escaped s, rfl, ?_⟩
  rw [escaped_of_plainText h]
  have hbytes := h.bytes
  have heof := h.ne_eof
  clear h
  induction s
  case nil => exact .nil
  case cons b s hi =>
    have ⟨hb, hbytes⟩ := List.forall_mem_cons.mp hbytes
    have ⟨hff, heof⟩ := List.forall_mem_cons.mp heof
    exact (hi hbytes heof).escapeChar hb hff

end Strings

section RoundTrip

variable {L : LexicalCast} {stringDoubles : Bool}

theorem plain_ofInt {i : Int} (hl : -2 ^ 63 ≤ i) (hu : i < 2 ^ 64) : (Number.ofInt i).Plain :=
  ⟨Number.isInteger_ofInt i, by rwa [Number.intValue_ofInt], by rwa [Number.intValue_ofInt]⟩

theorem readsAs_ofInt (hL : L.Exact) {i : Int} (hl : -2 ^ 63 ≤ i) (hu : i < 2 ^ 64) :
    ReadsAs (variantFromStream L stringDoubles) Admits (Decimal.ofInt i)
      (if i < 0 then .int64 (.ofInt i) else .uint64 (.ofNat i.toNat)) := by
  have hread := @readsAs_number L stringDoubles hL _ (plain_ofInt hl hu)
  rw [Number.text_ofInt, Number.legacy, Number.intValue_ofInt] at hread
  have hnat : Decimal.value (Number.ofInt i).int = i.natAbs := Decimal.value_ofNat _
  rw [hnat] at hread
  simp only [Number.ofInt, decide_eq_true_eq] at hread
  split
  case isTrue h => rwa [if_pos h] at hread
  case isFalse h => rwa [if_neg h, show i.natAbs = i.toNat by omega] at hread

theorem readsAs_text (hL : L.Exact) {v : Variant} (h : Textual v) :
    ReadsAs (variantFromStream L stringDoubles) Admits (text L .legacyGenerator v) v.unsigned := by
  have hp := @switches_variantSwitch L stringDoubles
  induction h
  case null   => exact hp.readsAs_null
  case bool b =>
    have hread := hp.readsAs_bool b
    cases b <;> exact hread
  case int64 i =>
    have hread := @readsAs_ofInt L stringDoubles hL i.toInt i.le_toInt (by have := i.toInt_lt; omega)
    rw [Int64.ofInt_toInt] at hread
    have hunsigned : (Variant.int64 i).unsigned =
        if 0 ≤ i.toInt then .uint64 (.ofNat i.toInt.toNat) else .int64 i := by rw [Variant.unsigned]
    have htext : text L .legacyGenerator (.int64 i) = Decimal.ofInt i.toInt := rfl
    rw [htext, hunsigned]
    split
    case isTrue h   => rwa [if_neg (Int.not_lt.mpr h)] at hread
    case isFalse h  => rwa [if_pos (Int.not_le.mp h)] at hread
  case uint64 i =>
    have hread := @readsAs_ofInt L stringDoubles hL i.toNat (by omega) (by have := i.toNat_lt; omega)
    rw [if_neg (by omega), Int.toNat_natCast, UInt64.ofNat_toNat] at hread
    exact hread
  case string s hs => exact hp.readsAs_string hs.named
  case array vs _ hi =>
    rw [text, Variant.unsigned_array]
    exact hp.readsAs_array (elements_elementsText hi)
  case object es hk _ hi =>
    rw [text, Variant.unsigned_object]
    exact hp.readsAs_object (elements_entriesText (f := id) fun e he => ⟨(hk e he).named, hi e he⟩)

theorem fromString_text (hL : L.Exact) {v : Variant} (hv : Textual v) {maxDepth : UInt32}
    (hd : Admits maxDepth v.nesting) :
    ∃ st, fromString L (text L .legacyGenerator v) .legacyParser maxDepth = .ok v.unsigned st := by
  have hnil : Ws [] := List.forall_mem_nil _
  have hread := @ReadsAs.fromString_eq L _ _ _ [] [] _ _ .legacyParser (@readsAs_text L false hL v hv)
    (fun _ _ => rfl) hnil hnil (by rwa [Variant.nesting_unsigned])
    (by rw [Variant.nesting_unsigned]; exact nesting_le_text v)
  rwa [List.nil_append, List.append_nil] at hread

-- What is written and read again is the variant, but for the tags of non-negative integers.
theorem fromString_toString {ε : Type} (hL : L.Exact) {v : Variant} (hv : Textual v)
    {maxDepth : UInt32}
    (heven : maxDepth.toNat % 2 = 0) (hd : v.nesting < maxDepth.toNat / 2) (yield : Yield ε) :
    ((∀ n, yield n = .ok ()) → ∃ s, toString L yield .legacyGenerator v = .ok s) ∧
    ∀ s, toString L yield .legacyGenerator v = .ok s →
      ∃ st, fromString L s .legacyParser maxDepth = .ok v.unsigned st := by
  have hemits := @emits_toString ε L yield .legacyGenerator v
  refine ⟨fun hy => ⟨_, hemits.eq_of_total hy⟩, fun s hs => ?_⟩
  rw [hemits.eq_of_ok hs]
  exact fromString_text hL hv (.inr (by omega))

theorem fromString_toString_object :
    ∃ s st, toString .decimal (fun _ => .ok () : Yield Empty) .legacyGenerator
        (.object [(ascii "a", .array [.int64 7, .string (ascii "\n")])]) = .ok s ∧
      fromString .decimal s .legacyParser 6 =
        .ok (.object [(ascii "a", .array [.uint64 7, .string (ascii "\n")])]) st := by
  have ha : PlainText (ascii "a") := ⟨['a'], rfl, List.forall_mem_singleton.mpr (by decide)⟩
  have hn : PlainText (ascii "\n") := ⟨['\n'], rfl, List.forall_mem_singleton.mpr (by decide)⟩
  have harray : Textual (.array [.int64 7, .string (ascii "\n")]) :=
    .array (List.forall_mem_cons.mpr ⟨.int64 7, List.forall_mem_singleton.mpr (.string hn)⟩)
  have hv : Textual (.object [(ascii "a", .array [.int64 7, .string (ascii "\n")])]) :=
    .object (List.forall_mem_singleton.mpr ha) (List.forall_mem_singleton.mpr harray)
  have ⟨hsome, hread⟩ := @fromString_toString _ Empty LexicalCast.decimal_exact _ hv 6 rfl (by decide) fun _ => .ok ()
  have ⟨s, hs⟩ := hsome fun _ => rfl
  have ⟨st, hrun⟩ := hread s hs
  exact ⟨s, st, hs, hrun⟩

end RoundTrip

end Json
