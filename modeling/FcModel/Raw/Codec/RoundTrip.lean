import FcModel.Raw.Codec.Progress
import FcModel.Raw.Codec.TwoPass

-- Unpacking what was packed.

namespace Raw

open MutableVariantObject

variable {α β γ σ : Type}

-- Decodes from a stream that has `n` bytes left. More fuel than that is never used up.
def unpackOn (S : Source UInt8 Failure σ) (s : σ) (n : Nat) (c : Codec α) (d : α) :
    EStateM.Result Failure σ α :=
  ((unpack (n + 1) c d).run S).run s

-- `unpack( s, d )`: decodes from a vector of bytes into a destination that holds `d`.
def unpackFrom (c : Codec α) (d : α) (s : Bytes) : EStateM.Result Failure Datastream α :=
  unpackOn Datastream.source ⟨s, 0⟩ s.length c d

theorem unpackFrom_agree (c : Codec α) (d : α) (s : Bytes) :
    Source.Agree Datastream.Unread ((unpack (s.length + 1) c d).parse .outOfRange s)
      (unpackFrom c d s) :=
  Datastream.checked.run _ (.start s)

theorem unpackFrom_of_reads {c : Codec α} {d v : α} {x : Packer} {b : Bytes}
    (h : Reads (fun g => unpack g c d) x v) (hb : x.bytes = .ok b) (rest : Bytes) :
    ∃ ds, unpackFrom c d (b ++ rest) = .ok v ds ∧ ds.unread = rest := by
  have ha := unpackFrom_agree c d (b ++ rest)
  rw [h b hb rest _ (Nat.lt_succ_self _)] at ha
  generalize unpackFrom c d (b ++ rest) = r at ha
  cases ha
  case ok ds hu => exact ⟨ds, rfl, hu.unread⟩

-- Decoding the packed `v` into a destination that holds `d` gives back `v` and consumes exactly it.
def RoundTrips (c : Codec α) (d v : α) : Prop :=
  ∀ b, packVector [⟨α, c, v⟩] = .ok b → ∀ rest, ∃ ds, unpackFrom c d (b ++ rest) = .ok v ds ∧
    ds.unread = rest

-- The types that are built from those of the standard library and from reflected structs without a
-- `reflector_init`.
def Plain : {α : Type} → Codec α → Prop
  | _, .vector c             => Plain c
  | _, .deque c              => Plain c
  | _, .list c               => Plain c
  | _, .set _ c              => Plain c
  | _, .map _ k c            => Plain k ∧ Plain c
  | _, .unorderedSet _ _ c   => Plain c
  | _, .unorderedMap _ _ k c => Plain k ∧ Plain c
  | _, .pair a b             => Plain a ∧ Plain b
  | _, .array _ c            => Plain c
  | _, .cArray _ _ c         => Plain c
  | _, .optional c           => Plain c
  | _, .sharedPtr c          => Plain c
  | _, .variant _ c          => ∀ i, Plain (c i)
  | _, .struct c _ init      => (∀ i, Plain (c i)) ∧ init = none
  | _, .fcVariant            => False
  | _, .variantObject        => False
  | _, .fixedString _        => False
  | _, _                     => True

-- A destination that holds `d` is overwritten by whatever is decoded into it: the optionals, shared
-- pointers, lists and sets that are decoded where they are, are empty. So are those of the values
-- that are default constructed on the way.
def Settled : {α : Type} → Codec α → α → Prop
  | _, .vector c, d             => ∀ x ∈ resize d maxNumArrayElements c.fresh, Settled c x
  | _, .deque c, d              => ∀ x ∈ resize d maxNumArrayElements c.fresh, Settled c x
  | _, .list c, d               => d = [] ∧ Settled c c.fresh
  | _, .set _ c, d              => d = .empty ∧ Settled c c.fresh
  | _, .map _ k c, _            => Settled k k.fresh ∧ Settled c c.fresh
  | _, .unorderedSet _ _ c, _   => Settled c c.fresh
  | _, .unorderedMap _ _ k c, _ => Settled k k.fresh ∧ Settled c c.fresh
  | _, .pair a b, d             => Settled a d.1 ∧ Settled b d.2
  | _, .array _ c, d            => ∀ i, Settled c (d i)
  | _, .cArray _ _ c, d         => ∀ i, Settled c (d i)
  | _, .optional c, d           => d = none ∧ Settled c c.fresh
  | _, .sharedPtr c, d          => d = none ∧ Settled c c.fresh
  | _, .variant _ c, _          => ∀ i, Settled (c i) (c i).fresh
  | _, .struct c _ _, d         => ∀ i, Settled (c i) (d i)
  | _, .fcVariant, d            => d = .null
  | _, _, _                     => True

section Sequences

variable {w : α → Packer} {as : List α}

theorem reads_sequence {k : Nat → Nat → Unpacker γ} {c : γ}
    (h : as.length ≤ maxNumArrayElements → Reads (fun g => k g as.length) (.each w as) c) :
    Reads (fun g => unpackSize >>= k g) (packSequence w as) c := by
  refine .guard fun hl => ?_
  have hsize : Reads (fun _ => unpackSize) (packUnsignedInt (.ofNat as.length)) as.length := by
    refine .map (reads_unsignedInt _) (.check_bind ?_ ?_)
    all_goals
      rw [toNat_ofNat_of_le hl (by decide)]
    case refine_1 => exact hl
    case refine_2 => exact .pure
  exact hsize.bind (h hl)

theorem mem_resize_of_le {value : List α} {m n : Nat} {fill x : α} (h : m ≤ n)
    (hx : x ∈ resize value m fill) : x ∈ resize value n fill := by
  rw [resize, List.mem_append] at hx ⊢
  refine hx.imp (fun hx => (List.take_subset_take_left value h) hx) fun hx => ?_
  rw [List.mem_replicate] at hx ⊢
  exact ⟨by omega, hx.right⟩

theorem zipWith_snd {ds : List γ} {as : List α} (h : ds.length = as.length) :
    ds.zipWith (fun _ a => a) as = as := by
  induction ds generalizing as
  case nil          => exact (List.length_eq_zero_iff.mp h.symm).symm
  case cons d ds hi =>
    cases as
    case nil  => cases h
    case cons => rw [List.zipWith_cons_cons, hi (Nat.succ.inj h)]

theorem foldl_append_singleton (as : List α) : as.foldl (fun l a => l ++ [a]) [] = as := by
  suffices ∀ acc : List α, as.foldl (fun l a => l ++ [a]) acc = acc ++ as from this []
  induction as
  case nil          => simp
  case cons a as hi => intro acc; rw [List.foldl_cons, hi, List.append_assoc]; rfl

theorem reads_inPlace {f : Nat → α → Unpacker α} {fill : α} {value : List α}
    (h : ∀ d ∈ resize value maxNumArrayElements fill, ∀ a ∈ as, Reads (fun g => f g d) (w a) a) :
    Reads (fun g => unpackInPlace (f g) fill value) (packSequence w as) as := by
  refine reads_sequence fun hl => .reserve ?_
  have he : Reads (fun g => .each (f g) (resize value as.length fill)) (.each w as)
      ((resize value as.length fill).zipWith (fun _ a => a) as) :=
    .each (length_resize ..) fun p hp =>
      h p.1 (mem_resize_of_le hl (List.of_mem_zip hp).left) p.2 (List.of_mem_zip hp).right
  rwa [zipWith_snd (length_resize ..)] at he

theorem reads_inserting {x : Nat → Unpacker α} {insert : γ → α → γ} {value c : γ}
    (h : ∀ a ∈ as, Reads x (w a) a) (hc : as.foldl insert value = c) :
    Reads (fun g => unpackInserting (x g) insert value) (packSequence w as) c := by
  have hf : Reads (fun g => .fold (x g) insert as.length value) (.each w as)
      ((as.map id).foldl insert value) := .fold h
  rw [List.map_id, hc] at hf
  exact reads_sequence fun _ => hf

theorem reads_hashed {x : Nat → Unpacker α} {insert : γ → α → γ} {value c : γ}
    (h : ∀ a ∈ as, Reads x (w a) a) (hc : as.foldl insert value = c) :
    Reads (fun g => unpackHashed (x g) insert value) (packSequence w as) c := by
  have hf : Reads (fun g => .fold (x g) insert as.length value) (.each w as)
      ((as.map id).foldl insert value) := .fold h
  rw [List.map_id, hc] at hf
  exact reads_sequence fun _ => .reserve hf

end Sequences

theorem reads_pair {x : Nat → Unpacker α} {y : Nat → Unpacker β} {wx wy : Packer} {a : α} {b : β}
    (hx : Reads x wx a) (hy : Reads y wy b) :
    Reads (fun g => unpackPair (x g) (y g)) (wx ++ wy) (a, b) :=
  hx.bind (hy.map .pure)

theorem reads_none {x : Nat → Unpacker α} {w : α → Packer} {value : Option α} :
    Reads (fun g => unpackOptional (x g) value) (packOptional w none) value :=
  (reads_bool false).map .pure

theorem reads_some {x : Nat → Unpacker α} {w : α → Packer} {value : Option α} {a b : α}
    (h : Reads x (w a) b) :
    Reads (fun g => unpackOptional (x g) value) (packOptional w (some a)) (some b) :=
  (reads_bool true).bind (h.map .pure)

theorem reads_alternative {n : Nat} {hn : n < 2 ^ 31} {δ : Fin (n + 1) → Type}
    {c : ∀ i, Codec (δ i)}
    {d : Σ i, δ i} {i : Fin (n + 1)} {x y : δ i}
    (h : Reads (fun g => unpack g (c i) (c i).fresh) (pack (c i) x) y) :
    Reads (fun g => unpack g (.variant hn c) d) (pack (.variant hn c) ⟨i, x⟩) ⟨i, y⟩ := by
  refine (reads_unsignedInt _).bind ?_
  have hw : (UInt32.ofNat i).toNat = i := UInt32.toNat_ofNat_of_lt' (show i.val < 2 ^ 32 by omega)
  generalize (UInt32.ofNat i).toNat = k at hw
  subst hw
  simp only [dif_pos i.isLt]
  exact h.map .pure

theorem setWidth_enumToInt64 {n : Nat} (hn : n ≤ 8) (signed : Bool) (v : BitVec (8 * n)) :
    (enumToInt64 signed v).setWidth (8 * n) = v := by
  apply BitVec.eq_of_getLsbD_eq
  intro i hi
  have : i < 8 * 8 := by omega
  cases signed
  case false => simp [enumToInt64, hi, this]
  case true  => simp [enumToInt64, BitVec.getElem_signExtend, hi, this]

theorem reads_unpack {c : Codec α} (hp : Plain c) {d : α} (hd : Settled c d) (v : α) :
    Reads (fun g => unpack g c d) (pack c v) v := by
  induction c
  case int                    => exact reads_int d v
  case bool                   => exact reads_bool v
  case unsignedInt            => exact reads_unsignedInt v
  case signedInt              => exact reads_signedInt v
  case string                 => exact reads_bytes _ v
  case bytes                  => exact reads_bytes d v
  case enum n hn signed       =>
    have h := (reads_int (n := 8) 0 (enumToInt64 signed v)).map
      (f := fun _ b => Pure.pure (b.setWidth (8 * n))) .pure
    rw [setWidth_enumToInt64 hn] at h
    exact h
  case vector hc              => exact reads_inPlace fun d hm a _ => hc hp (hd d hm) a
  case deque hc               => exact reads_inPlace fun d hm a _ => hc hp (hd d hm) a
  case list hc                =>
    have ⟨he, hf⟩ := hd
    exact reads_inserting (fun a _ => hc hp hf a) (by rw [he]; exact foldl_append_singleton v)
  case set hc                 =>
    have ⟨he, hf⟩ := hd
    exact reads_inserting (fun a _ => hc hp hf a) (by rw [he]; exact OrderedSet.foldl_insert v)
  case map hk hc              =>
    exact reads_inserting (fun e _ => reads_pair (hk hp.left hd.left e.1) (hc hp.right hd.right e.2))
      (OrderedSet.foldl_insert v)
  case unorderedSet t _ hc    =>
    exact reads_hashed (fun a _ => hc hp hd a) (HashSet.foldl_insert _ v (t.coe _))
  case unorderedMap t _ _ hk hc =>
    exact reads_hashed (fun e _ => reads_pair (hk hp.left hd.left e.1) (hc hp.right hd.right e.2))
      (HashSet.foldl_insert _ v (t.coe _))
  case pair ha hb             => exact reads_pair (ha hp.left hd.left _) (hb hp.right hd.right _)
  case scalarArray n s        => exact .read (by simp) (by rw [s.arrayOfBytes_arrayToBytes]; exact .pure)
  case array hc               => exact .pi fun i => hc hp (hd i) (v i)
  case cArray n hn _ hc       =>
    refine (reads_unsignedInt _).bind (.check_bind ?_ (.pi fun i => hc hp (hd i) (v i)))
    exact UInt32.toNat_ofNat_of_lt' hn
  case optional hc            =>
    have ⟨he, hf⟩ := hd
    cases v
    case none   => rw [he]; exact reads_none
    case some a => exact reads_some (hc hp hf a)
  case sharedPtr hc           =>
    have ⟨he, hf⟩ := hd
    cases v
    case none   => rw [he]; exact reads_none
    case some a => exact reads_some (hc hp hf a)
  case struct hc              =>
    have ⟨hp, hi⟩ := hp
    rw [hi]
    exact (Decoder.Reads.pi fun i => hc i (hp i) (hd i) (v i)).map .pure
  case fcVariant              => exact hp.elim
  case variantObject          => exact hp.elim
  case fixedString            => exact hp.elim
  case variant hc             => exact reads_alternative (hc v.1 (hp v.1) (hd v.1) v.2)

-- A variant that is decoded holds no object whose entries a `uint32_t` cannot count.
theorem sized_of_roundTrips {v : Variant} {b : Bytes}
    (hb : packVector [⟨Variant, .fcVariant, v⟩] = .ok b)
    (h : RoundTrips .fcVariant .null v) : Sized v := by
  have ⟨ds, hv, _⟩ := h b hb []
  have ha := unpackFrom_agree .fcVariant .null (b ++ [])
  rw [hv] at ha
  generalize hp : (unpack _ Codec.fcVariant .null).parse .outOfRange (b ++ []) = r at ha
  cases ha
  exact yields_variant _ (by simp [Sized, Variant.Objects]) _ _ _ hp

-- A variant whose keys are distinct and free of NUL bytes is decoded from what was packed for it if
-- and only if the number of entries of each of its objects fits into the `uint32_t` it is cast to.
theorem variant_roundTrips_iff_sized (v : Variant) (hd : Distinct v) (b : Bytes)
    (hb : packVector [⟨Variant, .fcVariant, v⟩] = .ok b) : RoundTrips .fcVariant .null v ↔
    Sized v := by
  constructor
  case mp => exact sized_of_roundTrips hb
  case mpr =>
    intro hs b hb rest
    have hr : Reads (fun g => unpack g .fcVariant .null) (pack .fcVariant v) (mergeVariant .null v) :=
      reads_variant v .null hd hs
    rw [mergeVariant_null] at hr
    rw [packVector_singleton] at hb
    exact unpackFrom_of_reads hr hb rest

theorem variant_roundTrips_nested : RoundTrips .fcVariant .null
    (.object [([107], .array [.null, .int64 (-1), .object [([1], .bool true)]])]) :=
  (variant_roundTrips_iff_sized _ (by simp [Distinct, Variant.Objects, Variant.Elements, Variant.Values])
    [7, 1, 1, 107, 6, 3, 0, 1, 255, 255, 255, 255, 255, 255, 255, 255, 7, 1, 1, 1, 4, 1]
    (by decide +kernel)).mpr (by simp [Sized, Variant.Objects, Variant.Elements, Variant.Values])

-- The key number `i` of a large object: its digits in base 255, none of which is written as NUL.
def keyOf : Nat → Nat → Bytes
  | 0, _     => []
  | n + 1, i => .ofNat (i % 255 + 1) :: keyOf n (i / 255)

theorem length_keyOf (n i : Nat) : (keyOf n i).length = n := by
  induction n generalizing i
  case zero       => rfl
  case succ n hi  => rw [keyOf, List.length_cons, hi]

theorem toNat_ofNat_digit (i : Nat) : (UInt8.ofNat (i % 255 + 1)).toNat = i % 255 + 1 :=
  UInt8.toNat_ofNat_of_lt' (show i % 255 + 1 < 256 by omega)

theorem zero_not_mem_keyOf (n i : Nat) : 0 ∉ keyOf n i := by
  induction n generalizing i
  case zero => exact List.not_mem_nil
  case succ n hi =>
    intro h
    cases List.mem_cons.mp h
    case inl h =>
      have := congrArg UInt8.toNat h
      rw [toNat_ofNat_digit] at this
      simp at this
    case inr h => exact hi _ h

theorem keyOf_inj {n i j : Nat} (hi : i < 255 ^ n) (hj : j < 255 ^ n) (h : keyOf n i = keyOf n j) :
    i = j := by
  induction n generalizing i j
  case zero => simp at hi hj; omega
  case succ n ih =>
    have ⟨hd, ht⟩ := List.cons.inj h
    have hd := congrArg UInt8.toNat hd
    rw [toNat_ofNat_digit, toNat_ofNat_digit] at hd
    rw [Nat.pow_succ'] at hi hj
    have := ih (Nat.div_lt_of_lt_mul hi) (Nat.div_lt_of_lt_mul hj) ht
    omega

-- An object with `n` entries.
def objectOf (n : Nat) : Variant :=
  .object ((List.range n).map fun i => (keyOf 5 i, .null))

theorem distinct_objectOf {n : Nat} (hn : n ≤ 255 ^ 5) : Distinct (objectOf n) := by
  refine Variant.objects_object.mpr ⟨⟨?_, ?_⟩, ?_⟩
  case refine_1 =>
    rw [List.map_map]
    refine List.Nodup.map_on (fun i hi j hj h => ?_) List.nodup_range
    have hi := List.mem_range.mp hi
    have hj := List.mem_range.mp hj
    exact keyOf_inj (Nat.lt_of_lt_of_le hi hn) (Nat.lt_of_lt_of_le hj hn) h
  case refine_2 =>
    intro e he
    have ⟨i, _, hi⟩ := List.mem_map.mp he
    exact hi ▸ zero_not_mem_keyOf 5 i
  case refine_3 =>
    intro e he
    have ⟨i, _, hi⟩ := List.mem_map.mp he
    rw [← hi]
    simp [Variant.Objects]

theorem packs_objectOf (n : Nat) : Packs (pack .fcVariant (objectOf n)) := by
  refine (Packs.int _).append ((Packs.varint ..).append ?_)
  rw [packEntries_eq]
  refine .each fun e he => ?_
  have ⟨i, _, hi⟩ := List.mem_map.mp he
  rw [← hi]
  exact (Packs.bytes (by rw [length_keyOf]; decide)).append ((Packs.int _).append .done)

theorem sized_objectOf {n : Nat} (h : Sized (objectOf n)) : n < 2 ^ 32 := by
  have hl := (Variant.objects_object.mp h).left
  rwa [List.length_map, List.length_range] at hl

-- An object with `2 ^ 32` entries is written with a count of zero.
theorem objectOf_lost : Distinct (objectOf (2 ^ 32)) ∧
    (∃ b, packVector [⟨Variant, .fcVariant, objectOf (2 ^ 32)⟩] = .ok b) ∧
    ¬RoundTrips .fcVariant .null (objectOf (2 ^ 32)) := by
  have ⟨b, hb⟩ := packs_objectOf (2 ^ 32)
  rw [← packVector_singleton] at hb
  refine ⟨distinct_objectOf (by decide), ⟨b, hb⟩, fun h => ?_⟩
  exact Nat.lt_irrefl _ (sized_objectOf (sized_of_roundTrips hb h))

end Raw
