import FcModel.Raw.Scalar

-- `fc::raw::pack` and `fc::raw::unpack` for `fc::variant` and `fc::variant_object`.

namespace Raw

open MutableVariantObject

def packType (v : Variant) : Packer :=
  packInt (n := 1) v.getType.toBitVec

mutual

-- `variant_packer`, called by `variant::visit`. Only the vector of an array checks its size. The
-- number of entries of an object is cast to `uint32_t`.
def variantPacker : Variant → Packer
  | .null      => .done
  | .int64 v   => packInt (n := 8) v.toBitVec
  | .uint64 v  => packInt (n := 8) v.toBitVec
  | .double v  => packInt (n := 8) v.toBitVec
  | .bool v    => packBool v
  | .string v  => packBytes v
  | .array vs  =>
    .guard (vs.length ≤ maxNumArrayElements) .assert ++
      (packUnsignedInt (.ofNat vs.length) ++ packElements vs)
  | .object es => packUnsignedInt (.ofNat es.length) ++ packEntries es
  | .blob v    => packBytes v

def packElements : List Variant → Packer
  | []      => .done
  | v :: vs => (packType v ++ variantPacker v) ++ packElements vs

def packEntries : List Entry → Packer
  | []           => .done
  | (k, v) :: es => (packBytes k ++ (packType v ++ variantPacker v)) ++ packEntries es

end

def packVariant (v : Variant) : Packer :=
  packType v ++ variantPacker v

def packEntry (e : Entry) : Packer :=
  packBytes e.1 ++ packVariant e.2

def packVariantObject (es : List Entry) : Packer :=
  packUnsignedInt (.ofNat es.length) ++ packEntries es

-- The string is built from a vector that is new, so it does not matter what the destination holds.
def unpackString : Unpacker Bytes :=
  unpackBytes []

section Entries

variable (unpackValue : Unpacker Variant)

def unpackEntry : Unpacker Entry := do
  let key ← unpackString
  let value ← unpackValue
  return (key, value)

def unpackEntries : Unpacker (List Entry) := do
  let size ← unpackUnsignedInt
  .reserve .entries size.toNat <| .fold (unpackEntry unpackValue) (fun es e => set es e.1 e.2) size.toNat []

end Entries

-- The switch over the tag. The destination is left alone when the tag is that of `null`. Elements
-- of arrays and values of objects are decoded into new variants.
def unpackTagged (unpackInner : Variant → Unpacker Variant) (v : Variant) (t : BitVec 8) :
    Unpacker Variant :=
  match t.toNat with
  | 0 => return v
  | 1 => return .int64 (.ofBitVec (← unpackInt (n := 8) 0))
  | 2 => return .uint64 (.ofBitVec (← unpackInt (n := 8) 0))
  | 3 => return .double (.ofBitVec (← unpackInt (n := 8) 0))
  | 4 => return .bool (← unpackBool)
  | 5 => return .string (← unpackString)
  | 6 => do
    let size ← unpackUnsignedInt
    check (size.toNat ≤ maxNumArrayElements)
    .reserve .elements size.toNat do
      return .array (← .each unpackInner (.replicate size.toNat .null))
  | 7 => return .object (← unpackEntries (unpackInner .null))
  | 8 => return .blob (← unpackBytes [])
  | _ => .throw (.parseError (.ofBitVec t))

def unpackVariant : Nat → Variant → Unpacker Variant
  | 0, _        => .throw .fuel
  | fuel + 1, v => do
    let t ← unpackInt (n := 1) 0
    unpackTagged (unpackVariant fuel) v t

def unpackVariantObject (fuel : Nat) : Unpacker (List Entry) :=
  unpackEntries (unpackVariant fuel .null)

theorem packElements_eq (vs : List Variant) : packElements vs = .each packVariant vs := by
  induction vs
  case nil          => rw [packElements, Encoder.each]
  case cons v vs hi => rw [packElements, Encoder.each, hi, packVariant]

theorem packEntries_eq (es : List Entry) : packEntries es = .each packEntry es := by
  induction es
  case nil          => rw [packEntries, Encoder.each]
  case cons e es hi => rw [packEntries, Encoder.each, hi, packEntry, packVariant]

theorem packVariant_eq_write (v : Variant) :
    packVariant v = .write [v.getType] (variantPacker v) := by
  have : UInt8.ofNat v.getType.toBitVec.toNat = v.getType := UInt8.ofNat_toNat
  simp only [packVariant, packType, packInt, toLE, this]
  rfl

-- No object has so many entries that the number of them does not fit into a `uint32_t`.
def Sized (v : Variant) : Prop :=
  v.Objects fun es => es.length < 2 ^ 32

-- The keys of every object are distinct and free of NUL bytes.
def Distinct (v : Variant) : Prop :=
  v.Objects fun es => (es.map Prod.fst).Nodup ∧ ∀ e ∈ es, 0 ∉ e.1

-- What is left in a destination that holds `d` when `v` is decoded into it.
def mergeVariant (d : Variant) : Variant → Variant
  | .null => d
  | v     => v

@[simp]
theorem mergeVariant_null (v : Variant) : mergeVariant .null v = v := by
  cases v <;> rfl

mutual

-- What is decoded from the bytes of a variant: the entries of its objects are set one after the
-- other.
def rebuilt : Variant → Variant
  | .array vs  => .array (rebuiltElements vs)
  | .object es => .object (setAll (rebuiltValues es))
  | v          => v

def rebuiltElements : List Variant → List Variant
  | []      => []
  | v :: vs => rebuilt v :: rebuiltElements vs

def rebuiltValues : List Entry → List Entry
  | []           => []
  | (k, v) :: es => (k, rebuilt v) :: rebuiltValues es

end

theorem rebuiltElements_eq (vs : List Variant) : rebuiltElements vs = vs.map rebuilt := by
  induction vs
  case nil          => rfl
  case cons v vs hi => rw [rebuiltElements, hi, List.map_cons]

theorem rebuiltValues_eq (es : List Entry) :
    rebuiltValues es = es.map fun e => (e.1, rebuilt e.2) := by
  induction es
  case nil          => rfl
  case cons e es hi => rw [rebuiltValues, hi, List.map_cons]

theorem zipWith_mergeVariant_rebuilt (vs : List Variant) :
    (List.replicate vs.length .null).zipWith (fun d v => mergeVariant d (rebuilt v)) vs = vs.map rebuilt := by
  induction vs
  case nil          => rfl
  case cons v vs hi => simp [List.replicate_succ, hi]

-- The variants that are left as they are.
theorem rebuilt_eq_self {v : Variant} (hd : Distinct v) : rebuilt v = v := by
  induction v using Variant.induct
  case array vs hi =>
    have hvs : vs.map rebuilt = vs :=
      (List.map_congr_left fun v hv => hi v hv (Variant.objects_array.mp hd v hv)).trans (List.map_id' vs)
    rw [rebuilt, rebuiltElements_eq, hvs]
  case object es hi =>
    obtain ⟨⟨hd, h0⟩, hde⟩ := Variant.objects_object.mp hd
    have he : ∀ e ∈ es, (e.1, rebuilt e.2) = e := fun e he => Prod.ext rfl (hi e he (hde e he))
    have hes : es.map (fun e => (e.1, rebuilt e.2)) = es := (List.map_congr_left he).trans (List.map_id' es)
    rw [rebuilt, rebuiltValues_eq, hes, setAll, foldl_set hd h0]
  all_goals rfl

theorem reads_setAll {x : Nat → Unpacker Variant} {es : List Entry} {f : Variant → Variant}
    (hl : es.length < 2 ^ 32)
    (h : ∀ e ∈ es, Reads x (packVariant e.2) (f e.2)) :
    Reads (fun g => unpackEntries (x g)) (packVariantObject es) (setAll (es.map fun e => (e.1, f e.2))) := by
  have hn : (UInt32.ofNat es.length).toNat = es.length := UInt32.toNat_ofNat_of_lt' hl
  rw [packVariantObject, packEntries_eq]
  refine (reads_unsignedInt _).bind (.reserve ?_)
  rw [hn]
  exact .fold fun e he => (reads_bytes _ _).bind ((h e he).map .pure)

-- The variant may have any keys.
theorem reads_rebuilt (v d : Variant) (hs : Sized v) :
    Reads (fun g => unpackVariant g d) (packVariant v) (mergeVariant d (rebuilt v)) := by
  rw [packVariant_eq_write]
  induction v using Variant.induct generalizing d
  all_goals
    refine .read_succ (by rfl) (by simp) (fun _ => rfl) ?_
  case null     => exact .pure
  case int64    => exact (reads_int _ _).map .pure
  case uint64   => exact (reads_int _ _).map .pure
  case double   => exact (reads_int _ _).map .pure
  case bool     => exact (reads_bool _).map .pure
  case string   => exact (reads_bytes _ _).map .pure
  case blob     => exact (reads_bytes _ _).map .pure
  case array vs hi =>
    refine .guard fun hl => (reads_unsignedInt _).bind (.check_bind ?_ (.reserve ?_))
    all_goals
      rw [toNat_ofNat_of_le hl (by decide)]
    case refine_1 => exact hl
    case refine_2 =>
      rw [packElements_eq, rebuilt, rebuiltElements_eq, ← zipWith_mergeVariant_rebuilt]
      have hvs : Reads (fun g => .each (unpackVariant g) (.replicate vs.length .null)) (.each packVariant vs)
          ((List.replicate vs.length .null).zipWith (fun d v => mergeVariant d (rebuilt v)) vs) :=
        .each (List.length_replicate ..) fun p hp => by
          have hv := (List.of_mem_zip hp).right
          rw [packVariant_eq_write]
          exact hi p.2 hv _ (Variant.objects_array.mp hs _ hv)
      exact hvs.map .pure
  case object es hi =>
    obtain ⟨hl, hse⟩ := Variant.objects_object.mp hs
    have hr : ∀ e ∈ es, Reads (fun g => unpackVariant g .null) (packVariant e.2) (rebuilt e.2) := by
      intro e he
      have hr := hi e he .null (hse e he)
      rwa [← packVariant_eq_write, mergeVariant_null] at hr
    rw [rebuilt, rebuiltValues_eq]
    exact (reads_setAll hl hr).map .pure

theorem reads_variant (v d : Variant) (hd : Distinct v) (hs : Sized v) :
    Reads (fun g => unpackVariant g d) (packVariant v) (mergeVariant d v) := by
  have hread := reads_rebuilt v d hs
  rwa [rebuilt_eq_self hd] at hread

theorem exhausts_entries {x : Unpacker Variant} {es : List Entry} (hl : es.length < 2 ^ 32)
    (h : ∀ e ∈ es, Exhausts x (packVariant e.2) fun _ => True) :
    Exhausts (unpackEntries x) (packVariantObject es) fun _ => True := by
  have hn : (UInt32.ofNat es.length).toNat = es.length := UInt32.toNat_ofNat_of_lt' hl
  rw [packVariantObject, packEntries_eq]
  refine .bind (.of_reads (reads_unsignedInt _)) fun size hsize => .reserve ?_
  rw [hsize, hn]
  refine .fold fun e he => .bind (.of_reads (reads_bytes _ _)) fun _ _ => ?_
  exact (h e he).map fun _ _ => .pure trivial

-- Packing does not depend on the keys, and unpacking consumes what was packed even if it merges
-- some of them.
theorem exhausts_variant (v : Variant) (g : Nat) (d : Variant) (hs : Sized v) :
    Exhausts (unpackVariant g d) (packVariant v) fun _ => True := by
  induction v using Variant.induct generalizing g d
  all_goals
    cases g
    case zero => exact .throw
  all_goals
    refine .bind (.of_reads (reads_int _ _)) fun t ht => ?_
    subst ht
  case null.succ    => exact .pure trivial
  case int64.succ   => exact (Decoder.Exhausts.of_reads (reads_int _ _)).map fun _ _ => .pure trivial
  case uint64.succ  => exact (Decoder.Exhausts.of_reads (reads_int _ _)).map fun _ _ => .pure trivial
  case double.succ  => exact (Decoder.Exhausts.of_reads (reads_int _ _)).map fun _ _ => .pure trivial
  case bool.succ    => exact (Decoder.Exhausts.of_reads (reads_bool _)).map fun _ _ => .pure trivial
  case string.succ  => exact (Decoder.Exhausts.of_reads (reads_bytes _ _)).map fun _ _ => .pure trivial
  case blob.succ    => exact (Decoder.Exhausts.of_reads (reads_bytes _ _)).map fun _ _ => .pure trivial
  case array.succ vs hi g =>
    refine .guard fun hl => .bind (.of_reads (reads_unsignedInt _)) fun size hsize => ?_
    refine .check_bind fun _ => .reserve ?_
    rw [hsize, toNat_ofNat_of_le hl (by decide), packElements_eq]
    have hvs : Exhausts (.each (unpackVariant g) (.replicate vs.length .null)) (.each packVariant vs)
        fun _ => True :=
      .each (List.length_replicate ..) fun d v hv => hi v hv g d (Variant.objects_array.mp hs v hv)
    exact hvs.map fun _ _ => .pure trivial
  case object.succ es hi g =>
    have ⟨hl, hse⟩ := Variant.objects_object.mp hs
    exact (exhausts_entries hl fun e he => hi e he g _ (hse e he)).map fun _ _ => .pure trivial

theorem fuelled_entries {m : Nat} {x : Nat → Unpacker Variant} (h : Fuelled m x) :
    Fuelled m fun g => unpackEntries (x g) := by
  refine fuelled_unsignedInt.bind fun _ => .reserve (.fold ?_ _ _)
  exact (fuelled_bytes []).bind fun _ => h.bind fun _ => .pure

theorem fuelled_tagged {m : Nat} {x : Nat → Variant → Unpacker Variant}
    (h : ∀ d, Fuelled m fun g => x g d) (d : Variant) (t : BitVec 8) :
    Fuelled m fun g => unpackTagged (x g) d t := by
  simp only [unpackTagged]
  generalize t.toNat = n
  split
  case h_1 => exact .pure
  case h_2 => exact (fuelled_int _).bind fun _ => .pure
  case h_3 => exact (fuelled_int _).bind fun _ => .pure
  case h_4 => exact (fuelled_int _).bind fun _ => .pure
  case h_5 => exact fuelled_bool.bind fun _ => .pure
  case h_6 => exact (fuelled_bytes _).bind fun _ => .pure
  case h_7 =>
    refine fuelled_unsignedInt.bind fun _ => .check_bind (by decide) (.reserve ?_)
    exact (Decoder.Fuelled.each h _).bind fun _ => .pure
  case h_8 => exact (fuelled_entries (h _)).bind fun _ => .pure
  case h_9 => exact (fuelled_bytes _).bind fun _ => .pure
  case h_10 => exact .throw trivial

-- Every variant starts with a tag, so the number of bytes bounds the depth of the recursion.
theorem fuelled_variant {m : Nat} (d : Variant) : Fuelled m fun g => unpackVariant g d := by
  induction m generalizing d
  case zero => exact .zero
  case succ m hi =>
    exact .read_succ (by decide) (by simp [toLE]) (fun _ => rfl) fun bs =>
      fuelled_tagged hi d (.ofNat _ (ofLE bs))

abbrev Yields {α : Type} (x : Unpacker α) (P : α → Prop) : Prop :=
  Decoder.Yields .outOfRange x P

-- The loop over the entries runs at most `2 ^ 32 - 1` times, so no object that is decoded is
-- larger.
theorem yields_entries {x : Unpacker Variant} (h : Yields x Sized) :
    Yields (unpackEntries x) fun es => Sized (.object es) := by
  have he : Yields (unpackEntry x) fun e => Sized e.2 :=
    Decoder.Yields.trivial.bind fun _ _ => h.bind fun _ hv => .pure hv
  refine Decoder.Yields.trivial.bind fun size _ => .reserve ?_
  have hf : Yields (.fold (unpackEntry x) (fun es e => set es e.1 e.2) size.toNat [])
      fun es => es.length ≤ 0 + size.toNat ∧ ∀ e ∈ es, Sized e.2 := by
    refine Decoder.Yields.fold (I := fun n (es : List Entry) => es.length ≤ n ∧ ∀ e ∈ es, Sized e.2) he ?_
      ⟨Nat.le_refl _, nofun⟩
    intro n es e ⟨hl, hs⟩ hv
    refine ⟨Nat.le_trans (length_set_le ..) (Nat.succ_le_succ hl), fun e' he' => ?_⟩
    cases mem_set he'
    case inl hm => exact hs e' hm
    case inr hm => exact hm ▸ hv
  intro q es r hq
  have ⟨hl, hs⟩ := hf q es r hq
  have := size.toNat_lt
  exact Variant.objects_object.mpr ⟨by omega, hs⟩

theorem yields_variant (g : Nat) {d : Variant} (hd : Sized d) :
    Yields (unpackVariant g d) Sized := by
  induction g generalizing d
  case zero => exact .throw
  case succ g hi =>
    refine Decoder.Yields.trivial.bind fun t _ => ?_
    rw [unpackTagged]
    have hnull : Sized .null := by simp [Sized, Variant.Objects]
    split
    case h_1  => exact .pure hd
    case h_7  =>
      refine Decoder.Yields.trivial.bind fun size _ => Decoder.Yields.trivial.bind fun _ _ => .reserve ?_
      refine (Decoder.Yields.each fun v hv => ?_).bind fun vs hvs => .pure (Variant.objects_array.mpr hvs)
      exact List.eq_of_mem_replicate hv ▸ hi hnull
    case h_8  => exact (yields_entries (hi hnull)).bind fun es hes => .pure hes
    case h_10 => exact .throw
    all_goals
      exact Decoder.Yields.trivial.bind fun _ _ => .pure (by simp [Sized, Variant.Objects])

end Raw
