import FcModel.Raw.Codec.Basic

-- Properties of `unpack` that hold for every type, whatever the values: the fuel lasts, and what
-- was packed is not decoded from less than all of its bytes.

namespace Raw

open MutableVariantObject

variable {α β γ : Type} {m : Nat}

theorem fuelled_size : Fuelled m fun _ => unpackSize :=
  fuelled_unsignedInt.bind fun _ => .check_bind (by decide) .pure

theorem fuelled_inPlace {f : Nat → α → Unpacker α} (h : ∀ d, Fuelled m fun g => f g d) (fill : α)
    (value : List α) : Fuelled m fun g => unpackInPlace (f g) fill value :=
  fuelled_size.bind fun _ => .reserve (.each h _)

theorem fuelled_inserting {x : Nat → Unpacker α} (h : Fuelled m x) (insert : γ → α → γ)
    (value : γ) :
    Fuelled m fun g => unpackInserting (x g) insert value :=
  fuelled_size.bind fun _ => .fold h _ _

theorem fuelled_hashed {x : Nat → Unpacker α} (h : Fuelled m x) (insert : γ → α → γ) (value : γ) :
    Fuelled m fun g => unpackHashed (x g) insert value :=
  fuelled_size.bind fun _ => .reserve (.fold h _ _)

theorem fuelled_pair {x : Nat → Unpacker α} {y : Nat → Unpacker β} (hx : Fuelled m x)
    (hy : Fuelled m y) : Fuelled m fun g => unpackPair (x g) (y g) :=
  hx.bind fun _ => hy.bind fun _ => .pure

theorem fuelled_optional {x : Nat → Unpacker α} (h : Fuelled m x) (value : Option α) :
    Fuelled m fun g => unpackOptional (x g) value := by
  refine fuelled_bool.bind fun b => ?_
  cases b
  case false => exact .pure
  case true  => exact h.bind fun _ => .pure

theorem fuelled_skipBlocks {fuel left : Nat} (h : left < fuel) :
    Fuelled m fun _ => skipBlocks fuel left := by
  induction fuel generalizing left
  case zero => omega
  case succ fuel hi =>
    simp only [skipBlocks]
    split
    case isTrue   => exact .read (by decide) fun _ => hi (by omega)
    case isFalse  => exact .read (by decide) fun _ => .pure

theorem fuelled_fixedString {n : Nat} (v : Vector UInt8 (n + 1)) :
    Fuelled m fun _ => unpackFixedString v := by
  refine fuelled_unsignedInt.bind fun size => ?_
  split
  case isFalse => exact .pure
  case isTrue =>
    split
    case isFalse  => exact .read (by decide) fun _ => .pure
    case isTrue   =>
      exact .read (by decide) fun _ => (fuelled_skipBlocks (by omega)).bind fun _ => .pure

theorem fuelled_runInit {n : Nat} {δ : Fin n → Type}
    {init : Option ((∀ i, δ i) → Except Unit (∀ i, δ i))} (v : ∀ i, δ i) :
    Fuelled m fun _ => runInit init v := by
  cases init
  case none => exact .pure
  case some f =>
    simp only [runInit]
    cases f v
    case ok     => exact .pure
    case error  => exact .throw (by decide)

theorem fuelled_unpack (c : Codec α) (d : α) : Fuelled m fun g => unpack g c d := by
  induction c
  case int                    => exact fuelled_int d
  case bool                   => exact fuelled_bool
  case unsignedInt            => exact fuelled_unsignedInt
  case signedInt              => exact fuelled_signedInt
  case string                 => exact fuelled_bytes []
  case bytes                  => exact fuelled_bytes d
  case enum                   => exact (fuelled_int _).bind fun _ => .pure
  case vector hc              => exact fuelled_inPlace hc _ d
  case deque hc               => exact fuelled_inPlace hc _ d
  case list hc                => exact fuelled_inserting (hc _) _ d
  case set hc                 => exact fuelled_inserting (hc _) _ d
  case map hk hc              => exact fuelled_inserting (fuelled_pair (hk _) (hc _)) _ _
  case unorderedSet hc        => exact fuelled_hashed (hc _) _ _
  case unorderedMap hk hc     => exact fuelled_hashed (fuelled_pair (hk _) (hc _)) _ _
  case pair ha hb             => exact fuelled_pair (ha _) (hb _)
  case scalarArray            => exact .read (by decide) fun _ => .pure
  case array hc               => exact .pi fun i => hc (d i)
  case cArray hc              =>
    exact fuelled_unsignedInt.bind fun _ => .check_bind (by decide) (.pi fun i => hc (d i))
  case optional hc            => exact fuelled_optional (hc _) d
  case sharedPtr hc           => exact fuelled_optional (hc _) d
  case struct hc              => exact (Decoder.Fuelled.pi fun i => hc i (d i)).bind fuelled_runInit
  case fcVariant              => exact fuelled_variant d
  case variantObject          => exact fuelled_entries (fuelled_variant .null)
  case fixedString            => exact fuelled_fixedString d
  case variant n hn δ c hc    =>
    refine fuelled_unsignedInt.bind fun w => ?_
    by_cases h : w.toNat < n + 1
    case pos => simpa only [dif_pos h] using (hc _ _).bind fun _ => .pure
    case neg => simpa only [dif_neg h] using .throw (by decide)

theorem exhausts_sequence {w : α → Packer} {k : Nat → Unpacker γ} {as : List α} {P : γ → Prop}
    (h : Exhausts (k as.length) (.each w as) P) :
    Exhausts (unpackSize >>= k) (packSequence w as) P := by
  refine .guard fun hl => ?_
  have hsize : Exhausts unpackSize (packUnsignedInt (.ofNat as.length)) (· = as.length) := by
    refine .map (.of_reads (reads_unsignedInt _)) fun size hs => .check_bind fun _ => ?_
    rw [hs, toNat_ofNat_of_le hl (by decide)]
    exact .pure rfl
  exact hsize.bind fun size hs => hs ▸ h

section Sequences

variable {w : α → Packer} {as : List α}

theorem exhausts_inPlace {f : α → Unpacker α} {fill : α} {value : List α}
    (h : ∀ d, ∀ a ∈ as, Exhausts (f d) (w a) fun _ => True) :
    Exhausts (unpackInPlace f fill value) (packSequence w as) fun _ => True :=
  exhausts_sequence (.reserve (.each (length_resize ..) h))

theorem exhausts_inserting {x : Unpacker α} {insert : γ → α → γ} {value : γ}
    (h : ∀ a ∈ as, Exhausts x (w a) fun _ => True) :
    Exhausts (unpackInserting x insert value) (packSequence w as) fun _ => True :=
  exhausts_sequence (.fold h)

theorem exhausts_hashed {x : Unpacker α} {insert : γ → α → γ} {value : γ}
    (h : ∀ a ∈ as, Exhausts x (w a) fun _ => True) :
    Exhausts (unpackHashed x insert value) (packSequence w as) fun _ => True :=
  exhausts_sequence (.reserve (.fold h))

end Sequences

theorem exhausts_pair {x : Unpacker α} {y : Unpacker β} {wx wy : Packer}
    (hx : Exhausts x wx fun _ => True) (hy : Exhausts y wy fun _ => True) :
    Exhausts (unpackPair x y) (wx ++ wy) fun _ => True :=
  hx.bind fun _ _ => hy.map fun _ _ => .pure trivial

theorem exhausts_optional {x : Unpacker α} {w : α → Packer} {value v : Option α}
    (h : ∀ a ∈ v, Exhausts x (w a) fun _ => True) :
    Exhausts (unpackOptional x value) (packOptional w v) fun _ => True := by
  cases v
  case none =>
    refine .map (.of_reads (reads_bool _)) fun b hb => ?_
    rw [hb]
    exact .pure trivial
  case some a =>
    refine .bind (.of_reads (reads_bool _)) fun b hb => ?_
    rw [hb]
    exact (h a rfl).map fun _ _ => .pure trivial

theorem fixedStringSize_le {n : Nat} (v : Vector UInt8 (n + 1)) : fixedStringSize v ≤ n + 1 := by
  rw [fixedStringSize]
  split
  case isTrue   => exact Nat.le_refl _
  case isFalse  =>
    calc (v.toList.takeWhile (· ≠ 0)).length ≤ v.toList.length := (List.takeWhile_prefix _).length_le
         _ = n + 1 := by simp

theorem exhausts_fixedString {n : Nat} (d v : Vector UInt8 (n + 1)) :
    Exhausts (unpackFixedString d) (packFixedString v) fun _ => True := by
  refine .bind (.of_reads (reads_unsignedInt _)) fun size hs => ?_
  have hle : size.toNat ≤ n + 1 := by
    have := fixedStringSize_le v
    have := Nat.mod_le (fixedStringSize v) (2 ^ 32)
    rw [hs, UInt32.toNat_ofNat']
    omega
  rw [← hs, if_neg (show ¬n + 1 < size.toNat by omega)]
  split
  case isTrue =>
    refine Decoder.Exhausts.mono (P := (· = storeFront d (v.toList.take size.toNat))) (.of_reads ?_)
      fun _ _ => trivial
    exact .read (by simp) .pure
  case isFalse h0 =>
    have : size.toNat = 0 := by omega
    rw [this]
    intro b hb s a r hs _
    cases hb
    cases hs
    exact ⟨rfl, trivial⟩

theorem exhausts_runInit {n : Nat} {δ : Fin n → Type}
    {init : Option ((∀ i, δ i) → Except Unit (∀ i, δ i))} (v : ∀ i, δ i) :
    Exhausts (runInit init v) .done fun _ => True := by
  cases init
  case none => exact .pure trivial
  case some f =>
    simp only [runInit]
    cases f v
    case ok     => exact .pure trivial
    case error  => exact .throw

-- No object in a value has more entries than can be counted in a `uint32_t`.
def SizedIn : {α : Type} → Codec α → α → Prop
  | _, .vector c, v             => ∀ x ∈ v, SizedIn c x
  | _, .deque c, v              => ∀ x ∈ v, SizedIn c x
  | _, .list c, v               => ∀ x ∈ v, SizedIn c x
  | _, .set _ c, v              => ∀ x ∈ v.elems, SizedIn c x
  | _, .map _ k c, v            => ∀ e ∈ v.elems, SizedIn k e.1 ∧ SizedIn c e.2
  | _, .unorderedSet _ _ c, v   => ∀ x ∈ v.elems, SizedIn c x
  | _, .unorderedMap _ _ k c, v => ∀ e ∈ v.elems, SizedIn k e.1 ∧ SizedIn c e.2
  | _, .pair a b, v             => SizedIn a v.1 ∧ SizedIn b v.2
  | _, .array _ c, v            => ∀ i, SizedIn c (v i)
  | _, .cArray _ _ c, v         => ∀ i, SizedIn c (v i)
  | _, .optional c, v           => ∀ x ∈ v, SizedIn c x
  | _, .sharedPtr c, v          => ∀ x ∈ v, SizedIn c x
  | _, .variant _ c, v          => SizedIn (c v.1) v.2
  | _, .struct c _ _, v         => ∀ i, SizedIn (c i) (v i)
  | _, .fcVariant, v            => Sized v
  | _, .variantObject, v        => Sized (.object v)
  | _, _, _                     => True

theorem exhausts_unpack (g : Nat) (c : Codec α) (d v : α) (hs : SizedIn c v) :
    Exhausts (unpack g c d) (pack c v) fun _ => True := by
  induction c
  case int                    => exact .mono (.of_reads (reads_int d v)) fun _ _ => trivial
  case bool                   => exact .mono (.of_reads (reads_bool v)) fun _ _ => trivial
  case unsignedInt            => exact .mono (.of_reads (reads_unsignedInt v)) fun _ _ => trivial
  case signedInt              => exact exhausts_signedInt g v
  case string                 => exact .mono (.of_reads (reads_bytes _ v)) fun _ _ => trivial
  case bytes                  => exact .mono (.of_reads (reads_bytes d v)) fun _ _ => trivial
  case enum                   => exact .map (.of_reads (reads_int _ _)) fun _ _ => .pure trivial
  case vector hc              => exact exhausts_inPlace fun d a ha => hc d a (hs a ha)
  case deque hc               => exact exhausts_inPlace fun d a ha => hc d a (hs a ha)
  case list hc                => exact exhausts_inserting fun a ha => hc _ a (hs a ha)
  case set hc                 => exact exhausts_inserting fun a ha => hc _ a (hs a ha)
  case map hk hc              =>
    exact exhausts_inserting fun e he => exhausts_pair (hk _ _ (hs e he).left) (hc _ _ (hs e he).right)
  case unorderedSet hc        =>
    exact exhausts_hashed fun a ha => hc _ a (hs a (Traversal.mem_toList.mp ha))
  case unorderedMap hk hc     =>
    refine exhausts_hashed fun e he => ?_
    have ⟨hsk, hsc⟩ := hs e (Traversal.mem_toList.mp he)
    exact exhausts_pair (hk _ _ hsk) (hc _ _ hsc)
  case pair ha hb             => exact exhausts_pair (ha _ _ hs.left) (hb _ _ hs.right)
  case scalarArray n s        =>
    exact .mono (.of_reads (.read (a := v) (by simp) (by rw [s.arrayOfBytes_arrayToBytes]; exact .pure)))
      fun _ _ => trivial
  case array hc               => exact .pi fun i => hc (d i) (v i) (hs i)
  case cArray hc              =>
    refine .bind (.of_reads (reads_unsignedInt _)) fun size _ => .check_bind fun _ => ?_
    exact .pi fun i => hc (d i) (v i) (hs i)
  case optional hc            => exact exhausts_optional fun a ha => hc _ a (hs a ha)
  case sharedPtr hc           => exact exhausts_optional fun a ha => hc _ a (hs a ha)
  case struct hc              =>
    exact .map (.pi fun i => hc i (d i) (v i) (hs i)) fun v _ => exhausts_runInit v
  case fcVariant              => exact exhausts_variant v g d hs
  case variantObject          =>
    have hs : Sized (.object v) := hs
    have ⟨hl, hse⟩ := Variant.objects_object.mp hs
    exact exhausts_entries hl fun e he => exhausts_variant e.2 g .null (hse e he)
  case fixedString            => exact exhausts_fixedString d v
  case variant n hn δ c hc    =>
    refine .bind (.of_reads (reads_unsignedInt _)) fun w hw => ?_
    have hw : w.toNat = v.1 := by
      rw [hw]
      exact UInt32.toNat_ofNat_of_lt' (show v.1.val < 2 ^ 32 by omega)
    generalize w.toNat = k at hw
    subst hw
    rw [dif_pos v.1.isLt]
    exact (hc v.1 _ v.2 hs).map fun _ _ => .pure trivial

end Raw
