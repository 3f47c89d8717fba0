import FcModel.Raw.Codec.Defaults

-- Decoding into destinations that hold different values.

namespace Raw

variable {α β γ : Type}

-- The outcomes of decoding the same bytes: both return the same value, or both throw.
inductive SameOutcome :
    EStateM.Result Failure Datastream α → EStateM.Result Failure Datastream α → Prop
  | ok {a ds ds'} : SameOutcome (.ok a ds) (.ok a ds')
  | error {e e' ds ds'} (h : e.IsException) (h' : e'.IsException) :
      SameOutcome (.error e ds) (.error e' ds')

def Independent (c : Codec α) : Prop :=
  ∀ s d d', SameOutcome (unpackFrom c d s) (unpackFrom c d' s)

-- Decoding overwrites all of the destination. This leaves out the types that keep what they hold:
-- the optionals, shared pointers and variants that find no value, the lists and sets that only add
-- elements, and the fixed strings that store fewer bytes than they have. It is enough that such a
-- type is decoded where it is; what is decoded into a new value and then stored does no harm.
def Overwrites : {α : Type} → Codec α → Prop
  | _, .vector c      => Overwrites c
  | _, .deque c       => Overwrites c
  | _, .list _        => False
  | _, .set _ _       => False
  | _, .pair a b      => Overwrites a ∧ Overwrites b
  | _, .array n c     => ∀ _ : Fin n, Overwrites c
  | _, .cArray n _ c  => ∀ _ : Fin n, Overwrites c
  | _, .optional _    => False
  | _, .sharedPtr _   => False
  | _, .struct c _ _  => ∀ i, Overwrites (c i)
  | _, .fcVariant     => False
  | _, .fixedString _ => False
  | _, _              => True

abbrev Same (x y : Unpacker α) : Prop :=
  Decoder.Same .outOfRange x y

theorem same_bytes (d d' : Bytes) : Same (unpackBytes d) (unpackBytes d') := by
  refine Decoder.Same.refl.bind fun size => Decoder.Same.refl.bind fun _ => .reserve ?_
  simp only [length_resize]
  split
  case isTrue h0 =>
    have hnil (d : Bytes) : resize d size.toNat 0 = [] := List.length_eq_zero_iff.mp (by rw [length_resize, h0])
    rw [hnil, hnil]
    exact .refl
  case isFalse => exact .read (by simp) fun _ => .refl

theorem same_inPlace {f : α → Unpacker α} (h : ∀ d d', Same (f d) (f d')) (fill : α)
    (value value' : List α) : Same (unpackInPlace f fill value) (unpackInPlace f fill value') :=
  Decoder.Same.refl.bind fun _ => .reserve (.each h (by simp))

theorem same_unpack {c : Codec α} (h : Overwrites c) (g : Nat) (d d' : α) :
    Same (unpack g c d) (unpack g c d') := by
  induction c
  case int                => exact .read (by simp) fun _ => .refl
  case bool               => exact .refl
  case unsignedInt        => exact .refl
  case signedInt          => exact .refl
  case string             => exact .refl
  case bytes              => exact same_bytes d d'
  case enum               => exact .refl
  case vector hc          => exact same_inPlace (hc h) _ d d'
  case deque hc           => exact same_inPlace (hc h) _ d d'
  case list               => exact h.elim
  case set                => exact h.elim
  case map                => exact .refl
  case unorderedSet       => exact .refl
  case unorderedMap       => exact .refl
  case pair ha hb         =>
    exact (ha h.left _ _).bind fun _ => (hb h.right _ _).bind fun _ => .refl
  case scalarArray        => exact .read (by simp) fun _ => .refl
  case array hc           => exact .pi fun i => hc (h i) _ _
  case cArray hc          =>
    exact Decoder.Same.refl.bind fun _ => Decoder.Same.refl.bind fun _ => .pi fun i => hc (h i) _ _
  case optional           => exact h.elim
  case sharedPtr          => exact h.elim
  case variant            => exact .refl
  case struct hc          => exact (Decoder.Same.pi fun i => hc i (h i) _ _).bind fun _ => .refl
  case fcVariant          => exact h.elim
  case variantObject      => exact .refl
  case fixedString        => exact h.elim

theorem independent_of_overwrites {c : Codec α} (h : Overwrites c) : Independent c := by
  intro s d d'
  have ha := unpackFrom_agree c d s
  have ha' := unpackFrom_agree c d' s
  rw [← same_unpack h (s.length + 1) d d' s] at ha'
  have hf := @fuelled_unpack _ (s.length + 1) c d s (Nat.lt_succ_self _) _ (Nat.lt_succ_self _)
  generalize (unpack (s.length + 1) c d).parse .outOfRange s = r at ha ha' hf
  generalize unpackFrom c d s = o at ha
  generalize unpackFrom c d' s = o' at ha'
  cases ha
  case ok     => cases ha'; exact .ok
  case error  => cases ha'; exact .error (hf _ rfl) (hf _ rfl)

-- Some bytes are decoded as different values into different destinations.
def Keeps (c : Codec α) : Prop :=
  ∃ v d d' w w', w ≠ w' ∧ Packs (pack c v) ∧ Reads (fun g => unpack g c d) (pack c v) w ∧
    Reads (fun g => unpack g c d') (pack c v) w'

-- It is enough that what holds nothing is decoded as the destination.
theorem Keeps.of_reads_same {c : Codec α} {v d d' : α} (hne : d ≠ d') (hp : Packs (pack c v))
    (h : ∀ d, Reads (fun g => unpack g c d) (pack c v) d) : Keeps c :=
  ⟨v, d, d', d, d', hne, hp, h d, h d'⟩

theorem reads_single_inPlace {f : Nat → α → Unpacker α} {w : α → Packer} {fill a d r : α}
    (h : Reads (fun g => f g d) (w a) r) :
    Reads (fun g => unpackInPlace (f g) fill [d]) (packSequence w [a]) [r] :=
  reads_sequence fun _ => .reserve <|
    @Decoder.Reads.each _ _ _ _ _ f w (fun _ _ => r) [d] [a] rfl (by simpa using h)

theorem keeps_inPlace {c : Codec α} (h : Keeps c) :
    ∃ v d d' w w', w ≠ w' ∧ Packs (packSequence (pack c) v) ∧
      Reads (fun g => unpackInPlace (unpack g c) c.fresh d) (packSequence (pack c) v) w ∧
      Reads (fun g => unpackInPlace (unpack g c) c.fresh d') (packSequence (pack c) v) w' := by
  have ⟨v, d, d', w, w', hne, hp, hr, hr'⟩ := h
  exact ⟨[v], [d], [d'], [w], [w'], by simp [hne], packs_single hp, reads_single_inPlace hr,
    reads_single_inPlace hr'⟩

theorem reads_pi_update {n : Nat} {δ : Fin n → Type} {c : ∀ i, Codec (δ i)} {z : ∀ i, δ i}
    (hz : ∀ i, Reads (fun g => unpack g (c i) (c i).fresh) (pack (c i) (c i).zero) (z i))
    {i : Fin n}
    {v d w : δ i} (h : Reads (fun g => unpack g (c i) d) (pack (c i) v) w) :
    Reads (fun g => .pi fun j => unpack g (c j) (Function.update (fun j => (c j).fresh) i d j))
      (.pi fun j => pack (c j) (Function.update (fun j => (c j).zero) i v j))
      (Function.update z i w) := by
  refine .pi fun j => ?_
  by_cases hj : j = i
  case pos => subst hj; simpa using h
  case neg => simpa [Function.update_of_ne hj] using hz j

theorem keeps_pi {n : Nat} {δ : Fin n → Type} {c : ∀ i, Codec (δ i)} (hu : ∀ i, Unhooked (c i))
    {i : Fin n} (h : Keeps (c i)) :
    ∃ v d d' w w' : ∀ i, δ i, w ≠ w' ∧ (∀ i, Packs (pack (c i) (v i))) ∧
      Reads (fun g => .pi fun i => unpack g (c i) (d i)) (.pi fun i => pack (c i) (v i)) w ∧
      Reads (fun g => .pi fun i => unpack g (c i) (d' i)) (.pi fun i => pack (c i) (v i)) w' := by
  have ⟨v, d, d', w, w', hne, hp, hr, hr'⟩ := h
  have ⟨z, hz⟩ := Classical.skolem.mp fun i => reads_zero (hu i) (c i).fresh
  refine ⟨_, _, _, _, _, fun he => hne ?_, packs_update hp, reads_pi_update hz hr,
    reads_pi_update hz hr'⟩
  simpa using congrFun he i

theorem keeps_of_not_overwrites {c : Codec α} (hu : Unhooked c) (h : ¬Overwrites c) : Keeps c := by
  induction c <;> try exact absurd trivial h
  case vector hc => exact keeps_inPlace (hc hu h)
  case deque hc  => exact keeps_inPlace (hc hu h)
  case list c _ =>
    exact .of_reads_same (List.cons_ne_nil c.fresh []) (packs_zero (.list c)) fun _ => reads_empty_inserting
  case set l c _ =>
    have hne : (.singleton c.fresh : OrderedSet l) ≠ .empty := fun he =>
      List.cons_ne_nil c.fresh [] (congrArg OrderedSet.elems he)
    exact .of_reads_same hne (packs_zero (.set l c)) fun _ => reads_empty_inserting
  case pair a b ha hb =>
    cases not_and_or.mp h
    case inl h =>
      have ⟨v, d, d', w, w', hne, hp, hr, hr'⟩ := ha hu.left h
      have ⟨z, hz⟩ := reads_zero hu.right b.fresh
      exact ⟨(v, b.zero), (d, b.fresh), (d', b.fresh), (w, z), (w', z), by simp [hne],
        hp.append (packs_zero b), reads_pair hr hz, reads_pair hr' hz⟩
    case inr h =>
      have ⟨v, d, d', w, w', hne, hp, hr, hr'⟩ := hb hu.right h
      have ⟨z, hz⟩ := reads_zero hu.left a.fresh
      exact ⟨(a.zero, v), (a.fresh, d), (a.fresh, d'), (z, w), (z, w'), by simp [hne],
        (packs_zero a).append hp, reads_pair hz hr, reads_pair hz hr'⟩
  case array c hc =>
    have ⟨i, hi⟩ := not_forall.mp h
    have hu : Unhooked c := hu
    have ⟨v, d, d', w, w', hne, hp, hr, hr'⟩ := keeps_pi (fun _ => hu) (i := i) (hc hu hi)
    exact ⟨v, d, d', w, w', hne, .pi hp, hr, hr'⟩
  case cArray hn c hc =>
    have ⟨i, hi⟩ := not_forall.mp h
    have hu : Unhooked c := hu
    have ⟨v, d, d', w, w', hne, hp, hr, hr'⟩ := keeps_pi (fun _ => hu) (i := i) (hc hu hi)
    have hsize := UInt32.toNat_ofNat_of_lt' hn
    exact ⟨v, d, d', w, w', hne, (Packs.varint ..).append (.pi hp),
      (reads_unsignedInt _).bind (.check_bind hsize hr), (reads_unsignedInt _).bind (.check_bind hsize hr')⟩
  case optional c _ =>
    exact .of_reads_same (Option.some_ne_none c.fresh) (packs_zero (.optional c)) fun _ => reads_none
  case sharedPtr c _ =>
    exact .of_reads_same (Option.some_ne_none c.fresh) (packs_zero (.sharedPtr c)) fun _ => reads_none
  case struct hc =>
    have ⟨hu, hinit⟩ := hu
    have ⟨i, hi⟩ := not_forall.mp h
    have ⟨v, d, d', w, w', hne, hp, hr, hr'⟩ := keeps_pi hu (hc i (hu i) hi)
    rw [hinit]
    exact ⟨v, d, d', w, w', hne, .pi hp, hr.map .pure, hr'.map .pure⟩
  case fcVariant =>
    have hne : Variant.null ≠ .bool true := nofun
    refine .of_reads_same hne (packs_zero .fcVariant) fun d => ?_
    exact reads_variant .null d (by simp [Distinct, Variant.Objects]) (by simp [Sized, Variant.Objects])
  case fixedString n =>
    have hne : Vector.replicate (n + 1) (0 : UInt8) ≠ .replicate (n + 1) 1 := by
      intro he
      have := congrArg Vector.back he
      simp at this
    exact .of_reads_same hne (packs_zero (.fixedString n)) reads_empty_fixedString

theorem not_independent_of_keeps {c : Codec α} (h : Keeps c) : ¬Independent c := by
  intro hi
  have ⟨v, d, d', w, w', hne, ⟨b, hb⟩, hr, hr'⟩ := h
  have ⟨ds, hw, _⟩ := unpackFrom_of_reads hr hb []
  have ⟨ds', hw', _⟩ := unpackFrom_of_reads hr' hb []
  have hs := hi (b ++ []) d d'
  rw [hw, hw'] at hs
  cases hs
  exact hne rfl

end Raw
