import FcModel.Io.Json.Conformity
import FcModel.Raw.Codec.RoundTrip
import FcModel.Variant.Typed

-- Values of typed data, through a variant and its text and back.

namespace Json

open Ascii Utf8

section Reread

variable {L : LexicalCast} {format : OutputFormatting}

instance {i : Int} : Decidable (Stringified format i) :=
  inferInstanceAs (Decidable (_ ∧ _))

mutual

-- The variant with the strings that the generator writes for large integers.
def stringify (format : OutputFormatting) : Variant → Variant
  | .int64 i   => if Stringified format i.toInt then .string (Decimal.ofInt i.toInt) else .int64 i
  | .uint64 i  => if Stringified format i.toNat then .string (Decimal.ofNat i.toNat) else .uint64 i
  | .array vs  => .array (stringifyElements format vs)
  | .object es => .object (stringifyEntries format es)
  | v          => v

def stringifyElements (format : OutputFormatting) : List Variant → List Variant
  | []      => []
  | v :: vs => stringify format v :: stringifyElements format vs

def stringifyEntries (format : OutputFormatting) : List (Bytes × Variant) → List (Bytes × Variant)
  | []           => []
  | (k, v) :: es => (k, stringify format v) :: stringifyEntries format es

end

theorem stringify_array (vs : List Variant) :
    stringify format (.array vs) = .array (vs.map (stringify format)) := by
  rw [stringify]
  congr 1
  induction vs
  case nil          => rfl
  case cons v vs hi => rw [stringifyElements, hi, List.map_cons]

theorem stringify_object (es : List (Bytes × Variant)) :
    stringify format (.object es) = .object (es.map fun e => (e.1, stringify format e.2)) := by
  rw [stringify]
  congr 1
  induction es
  case nil          => rfl
  case cons e es hi => rw [stringifyEntries, hi, List.map_cons]

theorem nesting_stringify (v : Variant) : (stringify format v).nesting = v.nesting := by
  induction v using Variant.induct
  case int64 i      => rw [stringify]; split <;> rfl
  case uint64 i     => rw [stringify]; split <;> rfl
  case array vs hi  => rw [stringify_array, Variant.nesting_array_map hi]
  case object es hi => rw [stringify_object, Variant.nesting_object_map hi]
  all_goals rfl

-- A string of digits, or of other characters that are not escaped.
structure Unchanged (b : UInt8) : Prop where
  escape : escapeChar true b = [b]
  lower  : 0x20 ≤ b.toNat
  upper  : b.toNat < 0x7f

theorem plainText_of_unchanged {s : Bytes} (h : ∀ b ∈ s, Unchanged b) : PlainText s := by
  induction s
  case nil => exact ⟨[], rfl, List.forall_mem_nil _⟩
  case cons b s hi =>
    obtain ⟨hb, hs⟩ := List.forall_mem_cons.mp h
    obtain ⟨cs, rfl, hcs⟩ := hi hs
    have hlt : b.toNat < 128 := hb.upper.trans (by decide)
    have hval := val_ofNat hlt
    refine ⟨.ofNat b.toNat :: cs,
      by rw [encode_cons, utf8EncodeChar_ofNat hlt, List.singleton_append],
      List.forall_mem_cons.mpr ⟨⟨.inl ?_, ?_, ?_⟩, hcs⟩⟩
    case refine_1 =>
      rw [UInt32.le_iff_toNat_le, hval]
      exact hb.lower
    case refine_2 =>
      intro he
      rw [he] at hval
      exact absurd hval (Nat.ne_of_gt hb.upper)
    case refine_3 =>
      intro hc
      have := (toNat_c1 hc).left
      have := hb.upper
      omega

theorem escaped_of_unchanged {s : Bytes} (h : ∀ b ∈ s, Unchanged b) : escaped s = s := by
  rw [escaped_of_plainText (plainText_of_unchanged h)]
  induction s
  case nil => rfl
  case cons b s hi =>
    obtain ⟨hb, hs⟩ := List.forall_mem_cons.mp h
    rw [List.flatMap_cons, hb.escape, hi hs, List.singleton_append]

theorem unchanged_iff {b : UInt8} :
    Unchanged b ↔ escapeChar true b = [b] ∧ 0x20 ≤ b.toNat ∧ b.toNat < 0x7f :=
  ⟨fun h => ⟨h.escape, h.lower, h.upper⟩, fun h => ⟨h.left, h.right.left, h.right.right⟩⟩

instance (b : UInt8) : Decidable (Unchanged b) :=
  decidable_of_iff _ unchanged_iff.symm

theorem unchanged_digit : ∀ {d : UInt8}, isDigit d → Unchanged d :=
  by decide +kernel

theorem unchanged_ofNat (n : Nat) : ∀ d ∈ Decimal.ofNat n, Unchanged d :=
  fun d hd => unchanged_digit ((Decimal.numeral_ofNat n).digits d hd)

theorem unchanged_ofInt {i : Int} (hi : Stringified format i) : ∀ d ∈ Decimal.ofInt i,
    Unchanged d := by
  rw [ofInt_of_stringified hi]
  exact unchanged_ofNat _

theorem textual_stringify {v : Variant} (hv : Textual v) : Textual (stringify format v) := by
  induction hv
  case int64 i =>
    rw [stringify]
    split
    case isTrue hi => exact .string (plainText_of_unchanged (unchanged_ofInt hi))
    case isFalse   => exact .int64 i
  case uint64 i =>
    rw [stringify]
    split
    case isTrue hi => exact .string (plainText_of_unchanged (unchanged_ofNat _))
    case isFalse   => exact .uint64 i
  case array hi =>
    rw [stringify_array]
    exact .array (List.forall_mem_map.mpr hi)
  case object hk _ hi =>
    rw [stringify_object]
    exact .object (List.forall_mem_map.mpr hk) (List.forall_mem_map.mpr hi)
  case null        => exact .null
  case bool b      => exact .bool b
  case string s hs => exact .string hs

theorem elementsText_stringify {vs : List Variant}
    (h : ∀ v ∈ vs, text L format v = text L .legacyGenerator (stringify format v)) :
    elementsText L format vs = elementsText L .legacyGenerator (vs.map (stringify format)) := by
  induction vs
  case nil => rfl
  case cons v vs hi =>
    obtain ⟨hv, hvs⟩ := List.forall_mem_cons.mp h
    rw [List.map_cons, elementsText, elementsText, hv, hi hvs]
    simp only [List.map_eq_nil_iff]

theorem entriesText_stringify {es : List (Bytes × Variant)}
    (h : ∀ e ∈ es, text L format e.2 = text L .legacyGenerator (stringify format e.2)) :
    entriesText L format es =
      entriesText L .legacyGenerator (es.map fun e => (e.1, stringify format e.2)) := by
  induction es
  case nil => rfl
  case cons e es hi =>
    obtain ⟨he, hes⟩ := List.forall_mem_cons.mp h
    rw [List.map_cons, entriesText, entriesText, he, hi hes]
    simp only [List.map_eq_nil_iff]

-- What is written is what the legacy generator writes for the variant with the strings.
theorem text_stringify (hL : L.Exact) {v : Variant} (hv : Textual v) :
    text L format v = text L .legacyGenerator (stringify format v) := by
  have hlegacy (i : Int) : ¬Stringified .legacyGenerator i := fun h => nomatch h.left
  induction hv
  case int64 i =>
    rw [stringify, text]
    split
    case isTrue hi =>
      rw [intToStream_quoted hi, hL.ofInt64, text, escaped_of_unchanged (unchanged_ofInt hi)]
    case isFalse hi => rw [intToStream_eq hi, text, intToStream_eq (hlegacy _)]
  case uint64 i =>
    rw [stringify, text]
    split
    case isTrue hi =>
      rw [intToStream_quoted hi, hL.ofUint64, text, escaped_of_unchanged (unchanged_ofNat _)]
    case isFalse hi => rw [intToStream_eq hi, text, intToStream_eq (hlegacy _)]
  case array hi =>
    rw [stringify_array, text, text, elementsText_stringify hi]
  case object hi =>
    rw [stringify_object, text, text, entriesText_stringify hi]
  all_goals rfl

-- What the legacy parser reads of what is written.
def reread (format : OutputFormatting) (v : Variant) : Variant :=
  (stringify format v).unsigned

theorem fromString_text_reread (hL : L.Exact) {v : Variant} (hv : Textual v) {maxDepth : UInt32}
    (hd : Admits maxDepth v.nesting) :
    ∃ st, fromString L (text L format v) .legacyParser maxDepth = .ok (reread format v) st := by
  rw [text_stringify hL hv]
  exact fromString_text hL (textual_stringify hv) (by rwa [nesting_stringify])

theorem reread_array (vs : List Variant) :
    reread format (.array vs) = .array (vs.map (reread format)) := by
  rw [reread, stringify_array, Variant.unsigned_array, List.map_map]
  rfl

theorem reread_object (es : List (Bytes × Variant)) :
    reread format (.object es) = .object (es.map fun e => (e.1, reread format e.2)) := by
  rw [reread, stringify_object, Variant.unsigned_object, List.map_map]
  rfl

theorem toUint64_ofNat (hL : L.Exact) (i : UInt64) :
    L.toUint64 (Decimal.ofNat i.toNat) = some i := by
  rw [hL.toUint64 (Decimal.numeral_ofNat _), Decimal.value_ofNat, if_pos i.toNat_lt,
    UInt64.ofNat_toNat]

theorem toInt64_ofInt (hL : L.Exact) {i : Int64} (hi : 0 ≤ i.toInt) :
    L.toInt64 (Decimal.ofInt i.toInt) = some i := by
  have hmax := i.toInt_lt
  have hcast : ((i.toInt.natAbs : Nat) : Int) = i.toInt := Int.natAbs_of_nonneg hi
  rw [Decimal.ofInt, if_neg (Int.not_lt.mpr hi), hL.toInt64 (Decimal.numeral_ofNat _),
    Decimal.value_ofNat, if_pos (by omega), hcast, Int64.ofInt_toInt]

-- The tag of an integer makes no difference when it is converted, nor does it that it is a string.
theorem asInt64_reread (hL : L.Exact) (D : Variant.Doubles) (i : Int64) :
    (reread format (.int64 i)).asInt64 L D = .ok i := by
  rw [reread, stringify]
  split
  case isTrue hi =>
    have hpos : 0 ≤ i.toInt := (show (0 : Int) ≤ 0xffffffff by decide).trans (Int.le_of_lt hi.right)
    change Variant.parsed (L.toInt64 _) = _
    rw [toInt64_ofInt hL hpos]
    rfl
  case isFalse =>
    rw [Variant.unsigned]
    split
    case isFalse => rfl
    case isTrue hi =>
      change Except.ok (UInt64.ofNat i.toInt.toNat).toInt64 = _
      rw [UInt64.toInt64_ofNat', ← Int64.ofInt_eq_ofNat, Int.toNat_of_nonneg hi, Int64.ofInt_toInt]

theorem asUint64_reread (hL : L.Exact) (D : Variant.Doubles) (i : UInt64) :
    (reread format (.uint64 i)).asUint64 L D = .ok i := by
  rw [reread, stringify]
  split
  case isTrue hi =>
    change Variant.parsed (L.toUint64 _) = _
    rw [toUint64_ofNat hL]
    rfl
  case isFalse => rfl

theorem reread_ne_null {v : Variant} (h : v ≠ .null) : reread format v ≠ .null := by
  intro he
  rw [reread] at he
  cases v
  case null => exact h rfl
  case int64 i =>
    rw [stringify] at he
    split at he
    case isTrue  => cases he
    case isFalse =>
      rw [Variant.unsigned] at he
      split at he <;> cases he
  case uint64 i =>
    rw [stringify] at he
    split at he <;> cases he
  all_goals cases he

end Reread

end Json

namespace Typed

open Variant MutableVariantObject Raw Json

-- A destination in which no optional member of a struct has a value. What else it holds is
-- overwritten.
def Kind.Clean : {α : Type} → Kind α → α → Prop
  | _, .pair a b, d       => a.Clean d.1 ∧ b.Clean d.2
  | _, .struct _ c _ _, d => ∀ i, ((c i).isOptional → (c i).isEmpty (d i)) ∧ (c i).Clean (d i)
  | _, _, _               => True

-- The types that are read back: no optional is in another one, the members of a struct have
-- names of their own, and its optional members have no value when it is default constructed.
def Kind.Supported : {α : Type} → Kind α → Prop
  | _, .vector c          => c.Supported ∧ c.Clean c.fresh
  | _, .deque c           => c.Supported ∧ c.Clean c.fresh
  | _, .set _ c           => c.Supported ∧ c.Clean c.fresh
  | _, .map _ k c         => (k.Supported ∧ k.Clean k.fresh) ∧ c.Supported ∧ c.Clean c.fresh
  | _, .pair a b          => a.Supported ∧ b.Supported
  | _, .array _ c         => c.Supported ∧ c.Clean c.fresh
  | _, .optional c        => (c.Supported ∧ c.Clean c.fresh) ∧ c.isOptional = false
  | _, .variant _ c       => ∀ i, (c i).Supported ∧ (c i).Clean (c i).fresh
  | _, .struct name c _ _ => (name.Injective ∧ ∀ i, PlainText (name i)) ∧ ∀ i, (c i).Supported
  | _, _                  => True

-- The values that are read back: within the limits on sizes, without characters that are escaped
-- by their codes, and left as they are by `reflector_init`.
def Kind.Within : {α : Type} → Kind α → α → Prop
  | _, .string, v               => PlainText v
  | _, .bytes, v                => v.length ≤ maxSizeOfByteArrays
  | _, .vector c, v             => v.length ≤ maxNumArrayElements ∧ ∀ x ∈ v, c.Within x
  | _, .deque c, v              => v.length ≤ maxNumArrayElements ∧ ∀ x ∈ v, c.Within x
  | _, .set _ c, v              => v.elems.length ≤ maxNumArrayElements ∧ ∀ x ∈ v.elems, c.Within x
  | _, .map _ k c, v            =>
    v.elems.length ≤ maxNumArrayElements ∧ ∀ e ∈ v.elems, k.Within e.1 ∧ c.Within e.2
  | _, .pair a b, v             => a.Within v.1 ∧ b.Within v.2
  | _, .array _ c, v            => ∀ i, c.Within (v i)
  | _, .optional c, v           => ∀ x, v = some x → c.Within x
  | _, .variant _ c, v          => (c v.1).Within v.2
  | _, .struct _ c _ init, v    => (∀ f, init = some f → f v = .ok v) ∧ ∀ i, (c i).Within (v i)
  | _, _, _                     => True

variable {L : LexicalCast} {D : Doubles} {α β : Type}

-- The value is converted to the variant, and back from what is read of it.
structure Trips (L : LexicalCast) (D : Doubles) (c : Kind α) (x : α) (v : Variant) : Prop where
  textual : Textual v
  notNull : c.isOptional = false → v ≠ .null
  back    : ∀ format d, c.Clean d → fromVariant L D c d (reread format v) = .ok x

-- The value has such a variant.
def Converts (L : LexicalCast) (D : Doubles) (c : Kind α) (x : α) : Prop :=
  ∃ v, toVariant c x = .ok v ∧ Trips L D c x v

section Scalars

theorem converts_uint (hL : L.Exact) {n : Nat} (hn : n ≤ 8) (x : BitVec (8 * n)) :
    Converts L D (.uint n hn) x := by
  refine ⟨_, rfl, .uint64 _, fun _ => nofun, fun format d _ => ?_⟩
  rw [fromVariant, asUint64_reread hL, liftCast, Except.ok_bind]
  exact congrArg Except.ok (setWidth_enumToInt64 hn false x)

theorem converts_int (hL : L.Exact) {n : Nat} (hn : n ≤ 8) (x : BitVec (8 * n)) :
    Converts L D (.int n hn) x := by
  refine ⟨_, rfl, .int64 _, fun _ => nofun, fun format d _ => ?_⟩
  rw [fromVariant, asInt64_reread hL, liftCast, Except.ok_bind]
  exact congrArg Except.ok (setWidth_enumToInt64 hn true x)

theorem converts_bool (b : Bool) : Converts L D .bool b :=
  ⟨_, rfl, .bool b, fun _ => nofun, fun _ _ _ => rfl⟩

theorem converts_string {s : Bytes} (hs : PlainText s) : Converts L D .string s :=
  ⟨_, rfl, .string hs, fun _ => nofun, fun _ _ _ => rfl⟩

theorem unchanged_hexDigit : ∀ {c : UInt8}, Hex.IsDigit c → Unchanged c :=
  by decide +kernel

theorem converts_bytes {b : Bytes} (hb : b.length ≤ maxSizeOfByteArrays) :
    Converts L D .bytes b := by
  obtain ⟨v, hv, hback⟩ := ByteVector.roundTrips_std hb
  have hstring := hv.symm.trans (ByteVector.toVariant_eq hb)
  cases hstring
  refine ⟨_, by rw [toVariant, hv]; rfl, .string ?_, fun _ => nofun, fun format d _ => ?_⟩
  case refine_1 =>
    exact plainText_of_unchanged fun c hc => unchanged_hexDigit (Hex.isDigit_toHex hc)
  case refine_2 =>
    change (written ((ByteVector.stdFromVariant (.string _)).run d)).mapError _ = _
    rw [hback]
    rfl

end Scalars

section Elements

variable {c : Kind α} {xs : List α}

-- The elements of a container.
theorem exists_elements {f : α → Except Error Variant} {g : Variant → Except Error α}
    (h : ∀ x ∈ xs, ∃ v, f x = .ok v ∧ Textual v ∧ ∀ format, g (reread format v) = .ok x) :
    ∃ vs, xs.mapM f = .ok vs ∧ Textual (.array vs) ∧
      ∀ format, List.Forall₂ (fun v x => g v = .ok x) (vs.map (reread format)) xs := by
  obtain ⟨vs, hvs, hrel⟩ := Except.exists_mapM h
  refine ⟨vs, hvs, .array ?_, fun format => ?_⟩
  case refine_1 =>
    clear hvs h
    induction hrel
    case nil         => exact List.forall_mem_nil _
    case cons h _ hi => exact List.forall_mem_cons.mpr ⟨h.left, hi⟩
  case refine_2 =>
    exact List.forall₂_map_left_iff.mpr (hrel.flip.imp fun _ _ h => h.right format)

-- A container is written as an array, if it is not too large.
theorem exists_elementsToVariant {f : α → Except Error Variant} {g : Variant → Except Error α}
    (hl : xs.length ≤ maxNumArrayElements)
    (h : ∀ x ∈ xs, ∃ v, f x = .ok v ∧ Textual v ∧ ∀ format, g (reread format v) = .ok x) :
    ∃ vs, elementsToVariant f xs = .ok (.array vs) ∧ Textual (.array vs) ∧
      ∀ format, elementsFromVariant g (reread format (.array vs)) = .ok xs := by
  obtain ⟨vs, hvs, htextual, hback⟩ := exists_elements h
  refine ⟨vs, ?_, htextual, fun format => ?_⟩
  case refine_1 =>
    rw [elementsToVariant, if_neg (Nat.not_lt.mpr hl), hvs]
    rfl
  case refine_2 =>
    rw [reread_array, elementsFromVariant, getArray, liftCast, Except.ok_bind,
      if_neg (by rw [(hback format).length_eq]; exact Nat.not_lt.mpr hl),
      Except.mapM_of_forall₂ (hback format)]

theorem exists_vector (hl : xs.length ≤ maxNumArrayElements) (hc : c.Clean c.fresh)
    (h : ∀ x ∈ xs, Converts L D c x) :
    ∃ vs, elementsToVariant (toVariant c) xs = .ok (.array vs) ∧ Textual (.array vs) ∧
      ∀ format,
      elementsFromVariant (fromVariant L D c c.fresh) (reread format (.array vs)) = .ok xs := by
  refine exists_elementsToVariant hl fun x hx => ?_
  obtain ⟨v, hv, htrips⟩ := h x hx
  exact ⟨v, hv, htrips.textual, fun format => htrips.back format _ hc⟩

variable {a : Kind α} {b : Kind β} {x : α × β}

theorem exists_pair (ha : Converts L D a x.1) (hb : Converts L D b x.2) :
    ∃ v w, pairToVariant (toVariant a) (toVariant b) x = .ok (.array [v, w]) ∧
    Textual (.array [v, w]) ∧
      ∀ format d, a.Clean d.1 → b.Clean d.2 →
        pairFromVariant (fromVariant L D a) (fromVariant L D b) d (reread format (.array [v, w])) =
          .ok x := by
  obtain ⟨v, hv, htrips⟩ := ha
  obtain ⟨w, hw, htrips'⟩ := hb
  refine ⟨v, w, ?_, .array ?_, fun format d hd hd' => ?_⟩
  case refine_1 =>
    rw [pairToVariant, hv, Except.ok_bind, hw]
    rfl
  case refine_2 =>
    exact List.forall_mem_cons.mpr ⟨htrips.textual, List.forall_mem_singleton.mpr htrips'.textual⟩
  case refine_3 =>
    rw [reread_array, pairFromVariant, getArray, liftCast, Except.ok_bind]
    change (fromVariant L D a d.1 (reread format v) >>= _) = _
    rw [htrips.back format _ hd, Except.ok_bind, htrips'.back format _ hd']
    rfl

theorem converts_vector (hc : c.Clean c.fresh) (hl : xs.length ≤ maxNumArrayElements)
    (h : ∀ x ∈ xs, Converts L D c x) :
    Converts L D (.vector c) xs := by
  obtain ⟨vs, hvs, htextual, hback⟩ := exists_vector hl hc h
  exact ⟨_, by rw [toVariant, hvs], htextual, fun _ => nofun, fun format d _ => hback format⟩

theorem converts_deque (hc : c.Clean c.fresh) (hl : xs.length ≤ maxNumArrayElements)
    (h : ∀ x ∈ xs, Converts L D c x) :
    Converts L D (.deque c) xs := by
  obtain ⟨vs, hvs, htextual, hback⟩ := exists_vector hl hc h
  exact ⟨_, by rw [toVariant, hvs], htextual, fun _ => nofun, fun format d _ => hback format⟩

-- The elements come back in order.
theorem converts_set {l : Less α} {s : OrderedSet l} (hc : c.Clean c.fresh)
    (hl : s.elems.length ≤ maxNumArrayElements) (h : ∀ x ∈ s.elems, Converts L D c x) :
    Converts L D (.set l c) s := by
  obtain ⟨vs, hvs, htextual, hback⟩ := exists_vector hl hc h
  refine ⟨_, by rw [toVariant, hvs], htextual, fun _ => nofun, fun format d _ => ?_⟩
  rw [fromVariant, hback format, Except.ok_bind, OrderedSet.foldl_insert]
  rfl

theorem converts_pair (ha : Converts L D a x.1) (hb : Converts L D b x.2) :
    Converts L D (.pair a b) x := by
  obtain ⟨v, w, hvw, htextual, hback⟩ := exists_pair ha hb
  refine ⟨_, by rw [toVariant, hvw], htextual, fun _ => nofun, fun format d hd => ?_⟩
  rw [fromVariant, hback format d hd.left hd.right]

theorem converts_map {l : Less α} {m : OrderedSet (l.fst : Less (α × β))} (ha : a.Clean a.fresh)
    (hb : b.Clean b.fresh) (hl : m.elems.length ≤ maxNumArrayElements)
    (h : ∀ e ∈ m.elems, Converts L D a e.1 ∧ Converts L D b e.2) :
    Converts L D (.map l a b) m := by
  obtain ⟨vs, hvs, htextual, hback⟩ :=
    exists_elementsToVariant (f := pairToVariant (toVariant a) (toVariant b))
      (g := pairFromVariant (fromVariant L D a) (fromVariant L D b) (a.fresh, b.fresh)) hl
      fun e he => by
        obtain ⟨v, w, hvw, htextual, hback⟩ := exists_pair (h e he).left (h e he).right
        exact ⟨_, hvw, htextual, fun format => hback format _ ha hb⟩
  refine ⟨_, by rw [toVariant, hvs], htextual, fun _ => nofun, fun format d _ => ?_⟩
  rw [fromVariant, hback format, Except.ok_bind, OrderedSet.foldl_insert]
  rfl

theorem converts_array {n : Nat} {v : Fin n → α} (hc : c.Clean c.fresh)
    (h : ∀ i, Converts L D c (v i)) :
    Converts L D (.array n c) v := by
  have hall : ∀ x ∈ List.ofFn v, ∃ w, toVariant c x = .ok w ∧ Textual w ∧
      ∀ format, fromVariant L D c c.fresh (reread format w) = .ok x := by
    refine List.forall_mem_ofFn_iff.mpr fun i => ?_
    obtain ⟨w, hw, htrips⟩ := h i
    exact ⟨w, hw, htrips.textual, fun format => htrips.back format _ hc⟩
  obtain ⟨vs, hvs, htextual, hback⟩ := exists_elements hall
  refine ⟨_, by rw [toVariant, hvs]; rfl, htextual, fun _ => nofun, fun format d _ => ?_⟩
  rw [fromVariant, reread_array, arrayFromVariant, getArray, liftCast, Except.ok_bind]
  refine Except.pi_eq_ok fun i => ?_
  have hlength := (hback format).length_eq
  rw [List.length_ofFn] at hlength
  have hi : i.val < (vs.map (reread format)).length := hlength ▸ i.isLt
  have hget := (hback format).get hi (by rw [List.length_ofFn]; exact i.isLt)
  rw [List.get_ofFn] at hget
  rw [List.getElem?_eq_getElem hi]
  exact hget

theorem converts_optional {o : Option α} (hc : c.Clean c.fresh) (ho : c.isOptional = false)
    (h : ∀ x, o = some x → Converts L D c x) :
    Converts L D (.optional c) o := by
  cases o
  case none => exact ⟨_, by rw [toVariant], .null, fun h => (by cases h), fun _ _ _ => rfl⟩
  case some x =>
    obtain ⟨v, hv, htrips⟩ := h x rfl
    refine ⟨v, by rw [toVariant_optional, hv], htrips.textual, fun h => (by cases h), fun format d _ => ?_⟩
    rw [fromVariant_optional (reread_ne_null (htrips.notNull ho)), htrips.back format _ hc]
    rfl

end Elements

-- The index is converted like any other integer.
theorem converts_variant (hL : L.Exact) {n : Nat} {hn : n + 1 < 2 ^ 31} {δ : Fin (n + 1) → Type}
    {c : ∀ i, Kind (δ i)} {v : StaticVariant.StdVariant δ} (hc : (c v.1).Clean (c v.1).fresh)
    (h : Converts L D (c v.1) v.2) :
    Converts L D (.variant hn c) v := by
  obtain ⟨k, x⟩ := v
  obtain ⟨w, hw, htrips⟩ := h
  refine ⟨.array [.uint64 (.ofNat k), w], ?_, .array ?_, fun _ => nofun, fun format d _ => ?_⟩
  case refine_1 =>
    rw [toVariant, hw]
    rfl
  case refine_2 =>
    exact List.forall_mem_cons.mpr ⟨.uint64 _, List.forall_mem_singleton.mpr htrips.textual⟩
  case refine_3 =>
    have hk : (UInt64.ofNat k).toNat % 2 ^ 32 = k := by
      rw [UInt64.toNat_ofNat']
      omega
    have hlt : (UInt64.ofNat k).toNat % 2 ^ 32 < n + 1 := by
      rw [hk]
      exact k.isLt
    have hfin : (⟨(UInt64.ofNat k).toNat % 2 ^ 32, hlt⟩ : Fin (n + 1)) = k := Fin.ext hk
    rw [fromVariant, reread_array, List.map_cons, List.map_singleton,
      StaticVariant.fromVariant_of_lt (asUint64_reread hL D _) hlt, hfin, EStateM.run,
      StaticVariant.select]
    simp only [show fromVariant L D (c k) _ (reread format w) = .ok x from htrips.back format _ hc]
    rfl

section Struct

variable {n : Nat} {δ : Fin n → Type} {name : Fin n → Bytes} {c : ∀ i, Kind (δ i)} {v : ∀ i, δ i}
    {w : Fin n → Variant}

theorem cStr_of_plainText {s : Bytes} (h : PlainText s) : cStr s = s :=
  cStr_eq_self fun h0 => h.bytes 0 h0 (.inl (by decide))

-- The object while the members are added: the members that are `done` have their entries, and no
-- other ones do.
structure Adding (c : ∀ i, Kind (δ i)) (name : Fin n → Bytes) (v : ∀ i, δ i) (w : Fin n → Variant)
    (done : List (Fin n)) (vo : List Entry) : Prop where
  entries : ∀ e ∈ vo, ∃ i, e = (name i, w i)
  find    : ∀ i, VariantObject.find vo (name i) =
    if i ∈ done ∧ (c i).isEmpty (v i) = false then some (w i) else none

theorem Adding.add {done : List (Fin n)} {vo : List Entry} (hname : name.Injective)
    (hplain : ∀ i, PlainText (name i)) (h : Adding c name v w done vo) {i : Fin n}
    (hw : toVariant (c i) (v i) = .ok (w i)) :
    ∃ vo', add (c i) (toVariant (c i)) vo (name i) (v i) = .ok vo' ∧
      Adding c name v w (done ++ [i]) vo' := by
  rw [Typed.add]
  split
  case isTrue hempty =>
    refine ⟨vo, rfl, h.entries, fun j => ?_⟩
    rw [h.find]
    refine if_congr ?_ rfl rfl
    rw [List.mem_append, List.mem_singleton]
    refine ⟨fun hj => ⟨.inl hj.left, hj.right⟩,
      fun hj => ⟨hj.left.resolve_right fun he => ?_, hj.right⟩⟩
    rw [he, hempty] at hj
    cases hj.right
  case isFalse hempty =>
    rw [hw]
    refine ⟨_, rfl, fun e he => ?_, fun j => ?_⟩
    case refine_1 =>
      cases mem_set_of_cStr (cStr_of_plainText (hplain i)) he
      case inl he => exact h.entries e he
      case inr he => exact ⟨i, he⟩
    case refine_2 =>
      by_cases hj : j = i
      case pos =>
        subst hj
        rw [find_set_of_eq rfl, if_pos (.inr (cStr_of_plainText (hplain j)).symm),
          if_pos ⟨List.mem_append_right _ (List.mem_singleton_self j),
            Bool.eq_false_iff.mpr hempty⟩]
      case neg =>
        have hne : cStr (name i) ≠ cStr (name j) := by
          rw [cStr_of_plainText (hplain i), cStr_of_plainText (hplain j)]
          exact fun he => hj (hname he).symm
        rw [find_set_of_ne hne, h.find]
        refine if_congr ?_ rfl rfl
        rw [List.mem_append, List.mem_singleton, or_iff_left hj]

theorem exists_adding (hname : name.Injective) (hplain : ∀ i, PlainText (name i))
    (hw : ∀ i, toVariant (c i) (v i) = .ok (w i)) :
    ∃ vo, (List.finRange n).foldlM (fun vo i => add (c i) (toVariant (c i)) vo (name i) (v i)) [] =
      .ok vo ∧ Adding c name v w (List.finRange n) vo := by
  refine Except.exists_foldlM ⟨List.forall_mem_nil _, fun i => ?_⟩ fun done i _ vo _ h =>
    h.add hname hplain (hw i)
  rw [if_neg (fun h => List.not_mem_nil h.left)]
  rfl

-- A member is found under its name, or stays empty.
theorem Adding.member {vo : List Entry} {d : ∀ i, δ i} {i : Fin n} {format : OutputFormatting}
    (h : Adding c name v w (List.finRange n) vo) (htrips : Trips L D (c i) (v i) (w i))
    (hempty : (c i).isOptional → (c i).isEmpty (d i)) (hclean : (c i).Clean (d i)) :
    memberFromVariant (fromVariant L D (c i)) (vo.map fun e => (e.1, reread format e.2)) (name i)
      (d i) = .ok (v i) := by
  rw [memberFromVariant, find_map, h.find]
  by_cases hv : (c i).isEmpty (v i)
  case pos =>
    rw [if_neg (by rw [hv]; exact fun h => nomatch h.right)]
    exact congrArg Except.ok (Kind.eq_of_isEmpty (hempty (Kind.isOptional_of_isEmpty hv)) hv)
  case neg =>
    rw [if_pos ⟨List.mem_finRange i, Bool.eq_false_iff.mpr hv⟩]
    exact htrips.back format _ hclean

theorem converts_struct {dflt : ∀ i, δ i} {init : Option ((∀ i, δ i) → Except Unit (∀ i, δ i))}
    (hname : name.Injective) (hplain : ∀ i, PlainText (name i))
    (hinit : ∀ f, init = some f → f v = .ok v) (h : ∀ i, Converts L D (c i) (v i)) :
    Converts L D (.struct name c dflt init) v := by
  choose w hw htrips using h
  obtain ⟨vo, hvo, hadding⟩ := exists_adding hname hplain hw
  refine ⟨.object vo, ?_, .object ?_ ?_, fun _ => nofun, fun format d hd => ?_⟩
  case refine_1 =>
    rw [toVariant, hvo]
    rfl
  case refine_2 =>
    intro e he
    obtain ⟨i, rfl⟩ := hadding.entries e he
    exact hplain i
  case refine_3 =>
    intro e he
    obtain ⟨i, rfl⟩ := hadding.entries e he
    exact (htrips i).textual
  case refine_4 =>
    rw [fromVariant, reread_object, getObject, liftCast, Except.ok_bind,
      Except.pi_eq_ok fun i => hadding.member (htrips i) (hd i).left (hd i).right, Except.ok_bind]
    cases init
    case none   => rfl
    case some f =>
      rw [runInit, hinit f rfl]
      rfl

end Struct

-- Every value can be converted, and is read back.
theorem exists_converts (hL : L.Exact) (c : Kind α) (hc : c.Supported) (x : α) (hx : c.Within x) :
    Converts L D c x := by
  induction c
  case uint n hn        => exact converts_uint hL hn x
  case int n hn         => exact converts_int hL hn x
  case bool             => exact converts_bool x
  case string           => exact converts_string hx
  case bytes            => exact converts_bytes hx
  case vector c hi      =>
    exact converts_vector hc.right hx.left fun y hy => hi hc.left y (hx.right y hy)
  case deque c hi       =>
    exact converts_deque hc.right hx.left fun y hy => hi hc.left y (hx.right y hy)
  case set l c hi       =>
    exact converts_set hc.right hx.left fun y hy => hi hc.left y (hx.right y hy)
  case map l k c hk hi  =>
    obtain ⟨⟨hk', hkclean⟩, hc', hclean⟩ := hc
    exact converts_map hkclean hclean hx.left fun e he =>
      ⟨hk hk' e.1 (hx.right e he).left, hi hc' e.2 (hx.right e he).right⟩
  case pair a b ha hb   => exact converts_pair (ha hc.left x.1 hx.left) (hb hc.right x.2 hx.right)
  case array n c hi     => exact converts_array hc.right fun i => hi hc.left (x i) (hx i)
  case optional c hi    =>
    exact converts_optional hc.left.right hc.right fun y hy => hi hc.left.left y (hx y hy)
  case variant n hn c hi => exact converts_variant hL (hc x.1).right (hi x.1 (hc x.1).left x.2 hx)
  case struct name c dflt init hi =>
    exact converts_struct hc.left.left hc.left.right hx.left
      fun i => hi i (hc.right i) (x i) (hx.right i)

section RoundTrip

-- The value has a text, in both formats, from which it is read again. The depth is the nesting of
-- the variant.
def RoundTrips (L : LexicalCast) (D : Doubles) (c : Kind α) (x : α) : Prop :=
  ∃ v, toVariant c x = .ok v ∧ ∀ (ε : Type) (yield : Yield ε) (format : OutputFormatting)
    (maxDepth : UInt32), Admits maxDepth v.nesting →
      ((∀ n, yield n = .ok ()) → ∃ s, toString L yield format v = .ok s) ∧
      ∀ s, toString L yield format v = .ok s →
        ∃ w st, fromString L s .legacyParser maxDepth = .ok w st ∧ as L D c w = .ok x

-- What is read is decided by the variant alone.
theorem RoundTrips.as_reread {c : Kind α} {x : α} {v : Variant} (hL : L.Exact)
    (h : RoundTrips L D c x) (hv : toVariant c x = .ok v) (htextual : Textual v)
    (format : OutputFormatting) :
    as L D c (reread format v) = .ok x := by
  obtain ⟨v', hv', hread⟩ := h
  cases hv.symm.trans hv'
  have hodd {n : Nat} : Admits 1 n := .inl rfl
  obtain ⟨hs, hread⟩ := hread Empty (fun _ => .ok ()) format 1 hodd
  obtain ⟨s, hs⟩ := hs fun _ => rfl
  obtain ⟨w, st, hw, has⟩ := hread s hs
  obtain ⟨st', hrun⟩ := @fromString_text_reread L format hL v htextual 1 hodd
  have hemits := @emits_toString Empty L (fun _ => .ok ()) format v
  rw [hemits.eq_of_ok hs, hrun] at hw
  cases hw
  exact has

theorem typed_roundTrips (hL : L.Exact) (c : Kind α) (hc : c.Supported) (hd : c.Clean c.fresh)
    (x : α) (hx : c.Within x) :
    RoundTrips L D c x := by
  obtain ⟨v, hv, htrips⟩ := exists_converts (D := D) hL c hc x hx
  refine ⟨v, hv, fun ε yield format maxDepth hdepth => ?_⟩
  have hemits := @emits_toString ε L yield format v
  refine ⟨fun hy => ⟨_, hemits.eq_of_total hy⟩, fun s hs => ?_⟩
  obtain ⟨st, hrun⟩ := @fromString_text_reread L format hL v htrips.textual maxDepth hdepth
  rw [hemits.eq_of_ok hs]
  exact ⟨_, st, hrun, htrips.back format _ hd⟩

theorem plainText_of_all (cs : List Char) (h : cs.all fun c => Printable c) :
    PlainText (Utf8.encode cs) :=
  ⟨cs, rfl, fun c hc => of_decide_eq_true (List.all_eq_true.mp h c hc)⟩

-- A struct with two optional numbers.
def Kind.limits : Kind (Fin 2 → Option (BitVec (8 * 8))) :=
  .struct (fun i => if i.val = 0 then ascii "soft" else ascii "hard")
    (fun _ => .optional (.uint 8 (Nat.le_refl 8))) (fun _ => none) none

theorem typed_roundTrips_limits :
    RoundTrips .decimal .unused .limits fun i => if i.val = 0 then none else some 0x100000000 := by
  have hname : Function.Injective
      fun i : Fin 2 => if i.val = 0 then ascii "soft" else ascii "hard" := by
    decide
  refine typed_roundTrips LexicalCast.decimal_exact .limits
    ⟨⟨hname, fun i => ?_⟩, fun _ => ?_⟩ ?_ _ ?_
  case refine_1 =>
    dsimp only
    split
    case isTrue  => exact plainText_of_all ['s', 'o', 'f', 't'] rfl
    case isFalse => exact plainText_of_all ['h', 'a', 'r', 'd'] rfl
  case refine_2 => exact ⟨⟨trivial, trivial⟩, rfl⟩
  case refine_3 => exact fun i => ⟨fun _ => rfl, trivial⟩
  case refine_4 => exact ⟨fun _ => nofun, fun i x hx => trivial⟩

-- A struct of which `reflector_init` sets the member.
def Kind.latched : Kind (Fin 1 → Bool) :=
  .struct (fun _ => ascii "set") (fun _ => .bool) (fun _ => false) (some fun _ => .ok fun _ => true)

-- A struct that reflects a member under the name that it has in the base.
def Kind.shadowed : Kind (Fin 2 → Bool) :=
  .struct (fun _ => ascii "set") (fun _ => .bool) (fun _ => false) none

theorem not_roundTrips :
    (Kind.latched.Clean Kind.latched.fresh ∧ ¬RoundTrips .decimal .unused .latched fun _ => false) ∧
    Kind.shadowed.Clean Kind.shadowed.fresh ∧
      ¬RoundTrips .decimal .unused .shadowed fun i => i.val = 0 := by
  have hplain : PlainText (ascii "set") := plainText_of_all ['s', 'e', 't'] rfl
  have htextual (b : Bool) : Textual (.object [(ascii "set", .bool b)]) :=
    .object (List.forall_mem_singleton.mpr hplain) (List.forall_mem_singleton.mpr (.bool b))
  refine ⟨⟨fun i => ⟨nofun, trivial⟩, fun h => ?_⟩, fun i => ⟨nofun, trivial⟩, fun h => ?_⟩
  case refine_1 =>
    have hread := h.as_reread LexicalCast.decimal_exact rfl (htextual false) .legacyGenerator
    have htrue := Except.ok.inj hread
    exact absurd (congrFun htrue (.first 0)) (by decide)
  case refine_2 =>
    have hread := h.as_reread LexicalCast.decimal_exact rfl (htextual false) .legacyGenerator
    have hfalse := Except.ok.inj hread
    exact absurd (congrFun hfalse (.first 1)) (by decide)

end RoundTrip

end Typed
