import FcModel.Raw.Codec.Basic

-- The memory that `fc::raw::unpack` asks for before it has read what goes there.

namespace Raw

open MutableVariantObject

variable {α β γ : Type}

section Overloads

-- `boost::container::vector` of a fundamental type: as many bytes are read as there are elements.
def unpackScalars (s : Scalar α) : Unpacker (List α) := do
  let size ← unpackSize
  .reserve .elements size <|
    if size = 0 then return []
    else .read (.replicate size 0) fun bs =>
      let rest := List.replicate (size * s.size - size) 0
      return .ofFn (n := size) (s.arrayOfBytes (bs ++ rest))

-- `shared_string` decodes into a new vector, and has to be empty itself.
def unpackSharedString (value : Bytes) : Unpacker Bytes := do
  let tmp ← unpackBytes []
  check (value.length = 0)
  return value ++ tmp

-- The overloads of `unpack`: those of `raw.hpp`, and those that build containers of what any
-- overload decodes. A container is given by how an element is added to it, and by whether it is
-- cleared before.
inductive Overload : {α : Type} → (Nat → α → Unpacker α) → Prop
  | codec {α : Type} (c : Codec α) : Overload fun fuel => unpack fuel c
  -- `std::vector`, and `deque` and `vector` of `boost::container`.
  | inPlace {α : Type} {x : Nat → α → Unpacker α} (hx : Overload x) (fill : α) (start : List α → List α) :
      Overload fun fuel d => unpackInPlace (x fuel) fill (start d)
  | scalars {α : Type} (s : Scalar α) : Overload fun _ _ => unpackScalars s
  | byteVector : Overload fun _ _ => unpackBytes []
  | sharedString : Overload fun _ => unpackSharedString
  -- `std::list`, the sets, and those of `boost::interprocess`.
  | inserting {α γ : Type} {x : Nat → α → Unpacker α} (hx : Overload x) (fresh : α) (insert : γ → α → γ)
      (start : γ → γ) : Overload fun fuel d => unpackInserting (x fuel fresh) insert (start d)
  -- The unordered sets, and the flat ones.
  | hashed {α γ : Type} {x : Nat → α → Unpacker α} (hx : Overload x) (fresh : α) (insert : γ → α → γ)
      (start : γ → γ) : Overload fun fuel d => unpackHashed (x fuel fresh) insert (start d)
  | pair {α β : Type} {x : Nat → α → Unpacker α} {y : Nat → β → Unpacker β} (hx : Overload x) (hy : Overload y) :
      Overload fun fuel d => unpackPair (x fuel d.1) (y fuel d.2)
  | array {n : Nat} {α : Type} {x : Nat → α → Unpacker α} (hx : Overload x) :
      Overload (α := Fin n → α) fun fuel d => .pi fun i => x fuel (d i)
  | cArray {n : Nat} {α : Type} {x : Nat → α → Unpacker α} (hx : Overload x) :
      Overload (α := Fin n → α) fun fuel d => do
        let size ← unpackUnsignedInt
        check (size.toNat = n)
        .pi fun i => x fuel (d i)
  | optional {α : Type} {x : Nat → α → Unpacker α} (hx : Overload x) (fresh : α) :
      Overload fun fuel => unpackOptional (x fuel fresh)
  | variant {n : Nat} {δ : Fin n → Type} {x : ∀ i, Nat → δ i → Unpacker (δ i)} (hx : ∀ i, Overload (x i))
      (fresh : ∀ i, δ i) :
      Overload (α := Σ i, δ i) fun fuel _ => do
        let w ← unpackUnsignedInt
        if h : w.toNat < n then return ⟨⟨w.toNat, h⟩, ← x ⟨w.toNat, h⟩ fuel (fresh ⟨w.toNat, h⟩)⟩
        else .throw .assert
  | struct {n : Nat} {δ : Fin n → Type} {x : ∀ i, Nat → δ i → Unpacker (δ i)} (hx : ∀ i, Overload (x i))
      (init : Option ((∀ i, δ i) → Except Unit (∀ i, δ i))) :
      Overload (α := ∀ i, δ i) fun fuel d => do
        let v ← .pi fun i => x i fuel (d i)
        runInit init v

end Overloads

-- How much may be asked for.
def limit : Memory → Nat
  | .symbols  => maxSizeOfByteArrays
  | .elements => maxNumArrayElements
  | .entries  => maxNumArrayElements

section Asks

-- Only the entries of objects are not limited.
def Limited (m : Memory) (n : Nat) : Prop :=
  m ≠ .entries → n ≤ limit m

abbrev Asks (x : Unpacker α) : Prop :=
  x.Asks Limited

theorem asks_unsignedInt : Asks unpackUnsignedInt := by
  suffices ∀ n v by', Asks (unpackUnsignedInt.go n v by') from this 5 0 0
  intro n v by'
  induction n generalizing v by'
  case zero => trivial
  case succ n hi =>
    intro b
    simp only
    split
    case isTrue  => exact hi _ _
    case isFalse => trivial

theorem asks_signedInt (fuel : Nat) : Asks (unpackSignedInt fuel) := by
  suffices ∀ n v by', Asks (unpackSignedInt.go n v by') from this fuel 0 0
  intro n v by'
  induction n generalizing v by'
  case zero => trivial
  case succ n hi =>
    intro b
    simp only
    split
    case isTrue  => exact hi _ _
    case isFalse => trivial

theorem asks_int {n : Nat} (v : BitVec (8 * n)) : Asks (unpackInt v) :=
  fun _ => trivial

theorem asks_bool : Asks unpackBool :=
  (asks_int _).bind fun _ => .check_bind fun _ => trivial

theorem asks_bytes (d : Bytes) : Asks (unpackBytes d) := by
  refine asks_unsignedInt.bind fun size => .check_bind fun hsize => ⟨fun _ => hsize, ?_⟩
  simp only
  split
  case isTrue  => trivial
  case isFalse => exact fun _ => trivial

-- The continuation is given a size that is within the limit.
theorem asks_size {f : Nat → Unpacker α} (hf : ∀ n ≤ maxNumArrayElements, Asks (f n)) :
    Asks (unpackSize >>= f) := by
  rw [unpackSize, Decoder.bind_assoc]
  refine asks_unsignedInt.bind fun size => ?_
  rw [Decoder.bind_assoc]
  exact .check_bind fun hsize => hf _ hsize

theorem asks_inPlace {f : α → Unpacker α} (hf : ∀ d, Asks (f d)) (fill : α) (value : List α) :
    Asks (unpackInPlace f fill value) :=
  asks_size fun _ hn => ⟨fun _ => hn, .each hf _⟩

theorem asks_inserting {x : Unpacker α} (hx : Asks x) (insert : γ → α → γ) (value : γ) :
    Asks (unpackInserting x insert value) :=
  asks_size fun _ _ => hx.fold _ _

theorem asks_hashed {x : Unpacker α} (hx : Asks x) (insert : γ → α → γ) (value : γ) :
    Asks (unpackHashed x insert value) :=
  asks_size fun _ hn => ⟨fun _ => hn, hx.fold _ _⟩

theorem asks_scalars (s : Scalar α) : Asks (unpackScalars s) := by
  refine asks_size fun n hn => ⟨fun _ => hn, ?_⟩
  split
  case isTrue  => trivial
  case isFalse => exact fun _ => trivial

theorem asks_pair {x : Unpacker α} {y : Unpacker β} (hx : Asks x) (hy : Asks y) :
    Asks (unpackPair x y) :=
  hx.bind fun _ => hy.bind fun _ => trivial

theorem asks_optional {x : Unpacker α} (hx : Asks x) (value : Option α) :
    Asks (unpackOptional x value) := by
  refine asks_bool.bind fun b => ?_
  cases b
  case false => trivial
  case true  => exact hx.bind fun _ => trivial

theorem asks_cArray {n : Nat} {x : Fin n → Unpacker α} (hx : ∀ i, Asks (x i)) :
    Asks (do let size ← unpackUnsignedInt; check (size.toNat = n); .pi x) :=
  asks_unsignedInt.bind fun _ => .check_bind fun _ => .pi hx

theorem asks_alternative {n : Nat} {δ : Fin n → Type} {x : ∀ i, Unpacker (δ i)}
    (hx : ∀ i, Asks (x i)) :
    Asks (α := Σ i, δ i) (do
      let w ← unpackUnsignedInt
      if h : w.toNat < n then return ⟨⟨w.toNat, h⟩, ← x ⟨w.toNat, h⟩⟩ else .throw .assert) := by
  refine asks_unsignedInt.bind fun w => ?_
  split
  case isTrue  => exact (hx _).bind fun _ => trivial
  case isFalse => trivial

theorem asks_struct {n : Nat} {δ : Fin n → Type} {x : ∀ i, Unpacker (δ i)} (hx : ∀ i, Asks (x i))
    (init : Option ((∀ i, δ i) → Except Unit (∀ i, δ i))) :
    Asks (do let v ← .pi x; runInit init v) := by
  refine (Decoder.Asks.pi hx).bind fun v => ?_
  cases init
  case none => trivial
  case some f =>
    simp only [runInit]
    cases f v
    case ok    => trivial
    case error => trivial

theorem asks_skipBlocks (fuel left : Nat) : Asks (skipBlocks fuel left) := by
  induction fuel generalizing left
  case zero => trivial
  case succ fuel hi =>
    rw [skipBlocks]
    split
    case isTrue  => exact fun _ => hi _
    case isFalse => exact fun _ => trivial

theorem asks_fixedString {n : Nat} (v : Vector UInt8 (n + 1)) : Asks (unpackFixedString v) := by
  refine asks_unsignedInt.bind fun size => ?_
  split
  case isFalse => trivial
  case isTrue =>
    split
    case isTrue  => exact fun _ => (asks_skipBlocks _ _).bind fun _ => trivial
    case isFalse => exact fun _ => trivial

-- The size of an object is not checked.
theorem asks_entries {x : Unpacker Variant} (hx : Asks x) : Asks (unpackEntries x) := by
  refine asks_unsignedInt.bind fun size => ⟨fun h => absurd rfl h, .fold ?_ _ _⟩
  exact (asks_bytes []).bind fun _ => hx.bind fun _ => trivial

theorem asks_tagged {x : Variant → Unpacker Variant} (hx : ∀ v, Asks (x v)) (v : Variant)
    (t : BitVec 8) :
    Asks (unpackTagged x v t) := by
  unfold unpackTagged
  split
  case h_1  => trivial
  case h_2  => exact (asks_int _).bind fun _ => trivial
  case h_3  => exact (asks_int _).bind fun _ => trivial
  case h_4  => exact (asks_int _).bind fun _ => trivial
  case h_5  => exact asks_bool.bind fun _ => trivial
  case h_6  => exact (asks_bytes []).bind fun _ => trivial
  case h_7  =>
    refine asks_unsignedInt.bind fun size => .check_bind fun hsize => ⟨fun _ => hsize, ?_⟩
    exact (Decoder.Asks.each hx _).bind fun _ => trivial
  case h_8  => exact (asks_entries (hx _)).bind fun _ => trivial
  case h_9  => exact (asks_bytes []).bind fun _ => trivial
  case h_10 => trivial

theorem asks_variant (fuel : Nat) (v : Variant) : Asks (unpackVariant fuel v) := by
  induction fuel generalizing v
  case zero         => trivial
  case succ fuel hi => exact (asks_int _).bind fun t => asks_tagged hi v t

theorem asks_unpack (fuel : Nat) (c : Codec α) (d : α) : Asks (unpack fuel c d) := by
  induction c
  case int                    => exact asks_int d
  case bool                   => exact asks_bool
  case unsignedInt            => exact asks_unsignedInt
  case signedInt              => exact asks_signedInt fuel
  case string                 => exact asks_bytes []
  case bytes                  => exact asks_bytes d
  case enum                   => exact (asks_int _).bind fun _ => trivial
  case vector hc              => exact asks_inPlace hc _ d
  case deque hc               => exact asks_inPlace hc _ d
  case list hc                => exact asks_inserting (hc _) _ d
  case set hc                 => exact asks_inserting (hc _) _ d
  case map hk hc              => exact asks_inserting (asks_pair (hk _) (hc _)) _ _
  case unorderedSet hc        => exact asks_hashed (hc _) _ _
  case unorderedMap hk hc     => exact asks_hashed (asks_pair (hk _) (hc _)) _ _
  case pair ha hb             => exact asks_pair (ha _) (hb _)
  case scalarArray            => exact fun _ => trivial
  case array hc               => exact .pi fun i => hc (d i)
  case cArray hc              => exact asks_cArray fun i => hc (d i)
  case optional hc            => exact asks_optional (hc _) d
  case sharedPtr hc           => exact asks_optional (hc _) d
  case variant c hc           => exact asks_alternative fun i => hc i (c i).fresh
  case struct hc              => exact asks_struct (fun i => hc i (d i)) _
  case fcVariant              => exact asks_variant fuel d
  case variantObject          => exact asks_entries (asks_variant fuel _)
  case fixedString            => exact asks_fixedString d

theorem asks_overload {x : Nat → α → Unpacker α} (hx : Overload x) (fuel : Nat) (d : α) :
    Asks (x fuel d) := by
  induction hx
  case codec c                => exact asks_unpack fuel c d
  case inPlace hi             => exact asks_inPlace hi _ _
  case scalars s              => exact asks_scalars s
  case byteVector             => exact asks_bytes []
  case sharedString           => exact (asks_bytes []).bind fun _ => .check_bind fun _ => trivial
  case inserting hi           => exact asks_inserting (hi _) _ _
  case hashed hi              => exact asks_hashed (hi _) _ _
  case pair hx hy             => exact asks_pair (hx _) (hy _)
  case array hi               => exact .pi fun i => hi (d i)
  case cArray hi              => exact asks_cArray fun i => hi (d i)
  case optional hi            => exact asks_optional (hi _) _
  case variant hi             => exact asks_alternative fun i => hi i _
  case struct hi              => exact asks_struct (fun i => hi i (d i)) _

end Asks

-- The numbers of entries that the input has for the objects in it.
def objectSizes (x : Unpacker α) (q : Bytes) : List Nat :=
  ((x.requests q).filter fun r => r.1 = .entries).map Prod.snd

-- Every overload but the one for objects checks a length before it asks for memory. Whether all
-- requests are within the limits therefore depends on the objects in the input.
theorem requests_limited_iff {x : Nat → α → Unpacker α} (hx : Overload x) (fuel : Nat) (d : α)
    (q : Bytes) :
    (∀ r ∈ (x fuel d).requests q, r.2 ≤ limit r.1) ↔ ∀ n ∈ objectSizes (x fuel d) q,
    n ≤ maxNumArrayElements := by
  constructor
  case mp =>
    intro h n hn
    have ⟨r, hr, hrn⟩ := List.mem_map.mp hn
    have ⟨hmem, hentries⟩ := List.mem_filter.mp hr
    have hlimit : limit r.1 = maxNumArrayElements := by rw [of_decide_eq_true hentries]; rfl
    exact hrn ▸ hlimit ▸ h r hmem
  case mpr =>
    intro h r hr
    by_cases hentries : r.1 = .entries
    case pos =>
      have hn : r.2 ∈ objectSizes (x fuel d) q :=
        List.mem_map.mpr ⟨r, List.mem_filter.mpr ⟨hr, decide_eq_true hentries⟩, rfl⟩
      rw [hentries]
      exact h _ hn
    case neg => exact (asks_overload hx fuel d).of_mem_requests hr hentries

-- A vector of objects, the first of which has one entry.
theorem requests_limited_iff_vector :
    let x : Nat → List (List Entry) →
    Unpacker (List (List Entry)) := fun fuel => unpack fuel (.vector .variantObject)
    (x 2 []).requests [1, 1, 1, 0x61, 0] = [(.elements, 1), (.entries, 1), (.symbols, 1)] ∧
      ∀ r ∈ (x 2 []).requests [1, 1, 1, 0x61, 0], r.2 ≤ limit r.1 :=
  ⟨by decide, (requests_limited_iff (.codec (.vector .variantObject)) 2 [] [1, 1, 1, 0x61, 0]).mpr (by decide)⟩

-- Five bytes are enough to ask for the memory of as many entries as a `uint32_t` can count.
theorem object_request_exceeds_limit :
    (Memory.entries, 2 ^ 32 - 1) ∈ (unpack 1 .variantObject []).requests [0xff, 0xff, 0xff, 0xff, 0x0f] ∧
      limit .entries < 2 ^ 32 - 1 :=
  ⟨List.mem_cons_self .., by decide⟩

end Raw
