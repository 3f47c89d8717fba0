import FcModel.Raw.Codec.Zero

-- What is decoded into a default constructed value, and how that can differ from what was packed.

namespace Raw

variable {α β γ : Type}

-- Some value that can be packed is decoded as another one.
def Loses (c : Codec α) (d : α) : Prop :=
  ∃ v w, w ≠ v ∧ Packs (pack c v) ∧ Reads (fun g => unpack g c d) (pack c v) w

section Sequences

variable {w : α → Packer} {x : Nat → Unpacker α} {insert : γ → α → γ} {value : γ} {a r : α}

theorem reads_single_inserting (h : Reads x (w a) r) :
    Reads (fun g => unpackInserting (x g) insert value) (packSequence w [a]) (insert value r) :=
  reads_sequence fun _ => @Decoder.Reads.fold _ _ _ _ _ _ x w (fun _ => r) insert value [a] (by simpa using h)

theorem reads_single_hashed (h : Reads x (w a) r) :
    Reads (fun g => unpackHashed (x g) insert value) (packSequence w [a]) (insert value r) :=
  reads_sequence fun _ => .reserve <|
    @Decoder.Reads.fold _ _ _ _ _ _ x w (fun _ => r) insert value [a] (by simpa using h)

theorem packs_single (h : Packs (w a)) : Packs (packSequence w [a]) :=
  .sequence (show 1 ≤ maxNumArrayElements by decide) (by simpa using h)

end Sequences

theorem reads_zeros {f : Nat → α → Unpacker α} {w : α → Packer} {z : α} {ds : List α}
    (h : ∀ d ∈ ds, ∃ r, Reads (fun g => f g d) (w z) r) :
    ∃ rs, Reads (fun g => .each (f g) ds) (.each w (.replicate ds.length z)) rs := by
  induction ds
  case nil => exact ⟨[], .pure⟩
  case cons d ds hi =>
    have ⟨r, hr⟩ := h d (List.mem_cons_self ..)
    have ⟨rs, hrs⟩ := hi fun d hd => h d (List.mem_cons_of_mem _ hd)
    exact ⟨r :: rs, hr.bind (hrs.map .pure)⟩

-- One element that is decoded as another one is enough.
theorem loses_each {f : Nat → α → Unpacker α} {w : α → Packer} {z : α} {ds : List α}
    (hz : ∀ d ∈ ds, ∃ r, Reads (fun g => f g d) (w z) r) (hpz : Packs (w z)) {d y r : α}
    (hd : d ∈ ds)
    (hne : r ≠ y) (hp : Packs (w y)) (hr : Reads (fun g => f g d) (w y) r) :
    ∃ as rs, as.length = ds.length ∧ rs ≠ as ∧ (∀ a ∈ as, Packs (w a)) ∧
      Reads (fun g => .each (f g) ds) (.each w as) rs := by
  induction ds
  case nil => cases hd
  case cons d' ds hi =>
    have ⟨r', hr'⟩ := hz d' (List.mem_cons_self ..)
    have hz := fun d hd => hz d (List.mem_cons_of_mem _ hd)
    cases List.mem_cons.mp hd
    case inl hd =>
      have ⟨rs, hrs⟩ := reads_zeros hz
      refine ⟨y :: .replicate ds.length z, r :: rs, by simp, by simp [hne], ?_, ?_⟩
      case refine_1 =>
        refine List.forall_mem_cons.mpr ⟨hp, fun a ha => ?_⟩
        rw [List.eq_of_mem_replicate ha]
        exact hpz
      case refine_2 => exact (hd ▸ hr).bind (hrs.map .pure)
    case inr hd =>
      have ⟨as, rs, hl, hne, hp, hrs⟩ := hi hz hd
      exact ⟨z :: as, r' :: rs, by simp [hl], by simp [hne], List.forall_mem_cons.mpr ⟨hpz, hp⟩,
        hr'.bind (hrs.map .pure)⟩

theorem loses_inPlace {c : Codec α} (hu : Unhooked c) {value : List α} {d : α}
    (hd : d ∈ resize value maxNumArrayElements c.fresh) (h : Loses c d) :
    ∃ as rs, rs ≠ as ∧ Packs (packSequence (pack c) as) ∧
      Reads (fun g => unpackInPlace (unpack g c) c.fresh value) (packSequence (pack c) as) rs := by
  have ⟨y, r, hne, hp, hr⟩ := h
  have ⟨as, rs, hl, hne, hp, hrs⟩ :=
    loses_each (fun d _ => reads_zero hu d) (packs_zero c) hd hne hp hr
  rw [length_resize] at hl
  refine ⟨as, rs, hne, .sequence (Nat.le_of_eq hl) hp, reads_sequence fun _ => .reserve ?_⟩
  rw [hl]
  exact hrs

theorem loses_pi {n : Nat} {δ : Fin n → Type} {c : ∀ i, Codec (δ i)} (hu : ∀ i, Unhooked (c i))
    {d : ∀ i, δ i} {i : Fin n} (h : Loses (c i) (d i)) :
    ∃ v w, w ≠ v ∧ (∀ i, Packs (pack (c i) (v i))) ∧
      Reads (fun g => .pi fun i => unpack g (c i) (d i)) (.pi fun i => pack (c i) (v i)) w := by
  have ⟨y, r, hne, hp, hr⟩ := h
  have ⟨z, hz⟩ := Classical.skolem.mp fun i => reads_zero (hu i) (d i)
  refine ⟨Function.update (fun i => (c i).zero) i y, Function.update z i r, ?_, packs_update hp,
    .pi fun j => ?_⟩
  case refine_1 => exact fun he => hne (by simpa using congrFun he i)
  case refine_2 =>
    by_cases hj : j = i
    case pos => subst hj; simpa using hr
    case neg => simpa [Function.update_of_ne hj] using hz j

theorem loses_optional {c : Codec α} {x : Nat → Unpacker α} {d : Option α}
    (h : d ≠ none ∨ ∃ y r, r ≠ y ∧ Packs (pack c y) ∧ Reads x (pack c y) r) :
    ∃ v w, w ≠ v ∧ Packs (packOptional (pack c) v) ∧
      Reads (fun g => unpackOptional (x g) d) (packOptional (pack c) v) w := by
  cases h
  case inl hd => exact ⟨none, d, hd, .int _, reads_none⟩
  case inr h =>
    have ⟨y, r, hne, hp, hr⟩ := h
    exact ⟨some y, some r, by simp [hne], (Packs.int _).append hp, reads_some hr⟩

-- The entry of a map whose key or whose value is decoded as another one.
theorem loses_entry {k : Codec α} {c : Codec β} (hk : Unhooked k) (hc : Unhooked c) {dk : α}
    {dc : β}
    (h : Loses k dk ∨ Loses c dc) :
    ∃ v w, w ≠ v ∧ Packs (pack k v.1 ++ pack c v.2) ∧
      Reads (fun g => unpackPair (unpack g k dk) (unpack g c dc)) (pack k v.1 ++ pack c v.2) w := by
  cases h
  case inl h =>
    have ⟨y, r, hne, hp, hr⟩ := h
    have ⟨z, hz⟩ := reads_zero hc dc
    exact ⟨(y, c.zero), (r, z), by simp [hne], hp.append (packs_zero c), reads_pair hr hz⟩
  case inr h =>
    have ⟨y, r, hne, hp, hr⟩ := h
    have ⟨z, hz⟩ := reads_zero hk dk
    exact ⟨(k.zero, y), (z, r), by simp [hne], (packs_zero k).append hp, reads_pair hz hr⟩

theorem loses_of_not_settled {c : Codec α} (hp : Plain c) {d : α} (h : ¬Settled c d) :
    Loses c d := by
  induction c <;> try exact absurd trivial h
  case vector c hc =>
    have hu : Unhooked c := Plain.unhooked hp
    have ⟨x, hx⟩ := not_forall.mp h
    have ⟨hm, hx⟩ := Classical.not_imp.mp hx
    exact loses_inPlace hu hm (hc hp hx)
  case deque c hc =>
    have hu : Unhooked c := Plain.unhooked hp
    have ⟨x, hx⟩ := not_forall.mp h
    have ⟨hm, hx⟩ := Classical.not_imp.mp hx
    exact loses_inPlace hu hm (hc hp hx)
  case list hc =>
    by_cases hd : d = []
    case neg => exact ⟨[], d, hd, .sequence (Nat.zero_le _) nofun, reads_empty_inserting⟩
    case pos =>
      have ⟨y, r, hne, hp, hr⟩ := hc hp fun hf => h ⟨hd, hf⟩
      refine ⟨[y], d ++ [r], ?_, packs_single hp, reads_single_inserting hr⟩
      rw [hd]
      exact fun he => hne (List.singleton_inj.mp he)
  case set hc =>
    by_cases hd : d = .empty
    case neg => exact ⟨.empty, d, hd, .sequence (Nat.zero_le _) nofun, reads_empty_inserting⟩
    case pos =>
      have ⟨y, r, hne, hp, hr⟩ := hc hp fun hf => h ⟨hd, hf⟩
      refine ⟨.singleton y, d.insert r, ?_, packs_single hp, reads_single_inserting hr⟩
      rw [hd]
      exact fun he => hne (OrderedSet.singleton_inj he)
  case map hk hc =>
    have ⟨v, w, hne, hp, hr⟩ := loses_entry hp.left.unhooked hp.right.unhooked
      ((not_and_or.mp h).imp (hk hp.left) (hc hp.right))
    exact ⟨.singleton v, .singleton w, fun he => hne (OrderedSet.singleton_inj he), packs_single hp,
      reads_single_inserting hr⟩
  case unorderedSet eq t _ hc =>
    have ⟨y, r, hne, hp, hr⟩ := hc hp h
    refine ⟨.singleton y, .singleton r, fun he => hne (HashSet.singleton_inj he), ?_⟩
    change Packs (packSequence _ (t.toList {y})) ∧ Reads _ (packSequence _ (t.toList {y})) _
    rw [t.toList_singleton, ← HashSet.insert_empty eq r]
    exact ⟨packs_single hp, reads_single_hashed hr⟩
  case unorderedMap eq t _ _ hk hc =>
    have ⟨v, w, hne, hp, hr⟩ := loses_entry hp.left.unhooked hp.right.unhooked
      ((not_and_or.mp h).imp (hk hp.left) (hc hp.right))
    refine ⟨.singleton v, .singleton w, fun he => hne (HashSet.singleton_inj he), ?_⟩
    change Packs (packSequence _ (t.toList {v})) ∧ Reads _ (packSequence _ (t.toList {v})) _
    rw [t.toList_singleton, ← HashSet.insert_empty eq w]
    exact ⟨packs_single hp, reads_single_hashed hr⟩
  case pair ha hb =>
    exact loses_entry hp.left.unhooked hp.right.unhooked
      ((not_and_or.mp h).imp (ha hp.left) (hb hp.right))
  case array c hc =>
    have ⟨i, hi⟩ := not_forall.mp h
    have hu : Unhooked c := Plain.unhooked hp
    have ⟨v, w, hne, hp, hr⟩ := loses_pi (fun _ => hu) (hc hp hi)
    exact ⟨v, w, hne, .pi hp, hr⟩
  case cArray hn c hc =>
    have ⟨i, hi⟩ := not_forall.mp h
    have hu : Unhooked c := Plain.unhooked hp
    have ⟨v, w, hne, hp, hr⟩ := loses_pi (fun _ => hu) (hc hp hi)
    exact ⟨v, w, hne, (Packs.varint ..).append (.pi hp),
      (reads_unsignedInt _).bind (.check_bind (UInt32.toNat_ofNat_of_lt' hn) hr)⟩
  case optional hc  => exact loses_optional ((not_and_or.mp h).imp id (hc hp))
  case sharedPtr hc => exact loses_optional ((not_and_or.mp h).imp id (hc hp))
  case variant hc =>
    have ⟨i, hi⟩ := not_forall.mp h
    have ⟨y, r, hne, hp, hr⟩ := hc i (hp i) hi
    exact ⟨⟨i, y⟩, ⟨i, r⟩, by simpa using hne, (Packs.varint ..).append hp, reads_alternative hr⟩
  case struct hc =>
    have ⟨i, hi⟩ := not_forall.mp h
    have ⟨hp, hinit⟩ := hp
    have ⟨v, w, hne, hpk, hr⟩ := loses_pi (fun i => (hp i).unhooked) (hc i (hp i) hi)
    rw [Loses, hinit]
    exact ⟨v, w, hne, .pi hpk, hr.map .pure⟩
  case fcVariant => exact hp.elim

-- Every value of a type is decoded from what was packed for it if and only if default constructed
-- values of the type hold nothing that decoding leaves in place.
theorem roundTrips_iff_settled (c : Codec α) (hp : Plain c) :
    (∀ v, RoundTrips c c.fresh v) ↔ Settled c c.fresh := by
  constructor
  case mpr =>
    intro hd v b hb rest
    rw [packVector_singleton] at hb
    exact unpackFrom_of_reads (reads_unpack hp hd v) hb rest
  case mp =>
    intro h
    by_contra hd
    have ⟨v, w, hne, ⟨b, hb⟩, hr⟩ := loses_of_not_settled hp hd
    have ⟨ds, hv, _⟩ := h v b (by rw [packVector_singleton, hb]) []
    have ⟨ds', hw, _⟩ := unpackFrom_of_reads hr hb []
    rw [hv] at hw
    cases hw
    exact hne rfl

-- `struct { std::optional<uint32_t> x = dflt; }`
def optionalMember (dflt : Option (BitVec 32)) : Codec (Fin 1 → Option (BitVec 32)) :=
  .struct (fun _ => .optional (.int 4)) (fun _ => dflt) none

theorem optionalMember_roundTrips :
    RoundTrips (optionalMember none) (fun _ => none) (fun _ => some 5) :=
  (roundTrips_iff_settled (optionalMember none) ⟨fun _ => trivial, rfl⟩).mpr (fun _ => ⟨rfl, trivial⟩) _

-- The byte that says that there is no value leaves the one of the default constructor in place.
theorem optionalMember_lost : Plain (optionalMember (some 7)) ∧
    packVector [⟨_, optionalMember (some 7), fun _ => none⟩] = .ok [0] ∧
    ¬RoundTrips (optionalMember (some 7)) (optionalMember (some 7)).fresh (fun _ => none) := by
  have hb : packVector [⟨_, optionalMember (some 7), fun _ => none⟩] = .ok [0] := by rfl
  have hu : unpackFrom (optionalMember (some 7)) (fun _ => some 7) ([0] ++ []) =
      .ok (Fin.cons (some 7) fun i => i.elim0) ⟨[0], 1⟩ := by rfl
  refine ⟨⟨fun _ => trivial, rfl⟩, hb, fun h => ?_⟩
  have ⟨ds, hv, _⟩ := h [0] hb []
  have he := (EStateM.Result.ok.inj (hu.symm.trans hv)).left
  cases congrFun he 0

end Raw
