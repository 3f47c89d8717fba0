import FcModel.Raw.Codec.RoundTrip

-- A smallest value of each type, which can be packed, and can be decoded into any destination.

namespace Raw

variable {α β γ : Type}

def Codec.zero : {α : Type} → Codec α → α
  | _, .int _               => 0
  | _, .bool                => false
  | _, .unsignedInt         => 0
  | _, .signedInt           => 0
  | _, .string              => []
  | _, .bytes               => []
  | _, .enum _ _ _          => 0
  | _, .vector _            => []
  | _, .deque _             => []
  | _, .list _              => []
  | _, .set _ _             => .empty
  | _, .map _ _ _           => .empty
  | _, .unorderedSet _ _ _  => .empty
  | _, .unorderedMap _ _ _ _ => .empty
  | _, .pair a b            => (a.zero, b.zero)
  | _, .scalarArray _ s     => fun _ => s.zero
  | _, .array _ c           => fun _ => c.zero
  | _, .cArray _ _ c        => fun _ => c.zero
  | _, .optional _          => none
  | _, .sharedPtr _         => none
  | _, .variant _ c         => ⟨.first _, (c (.first _)).zero⟩
  | _, .struct c _ _        => fun i => (c i).zero
  | _, .fcVariant           => .null
  | _, .variantObject       => []
  | _, .fixedString n       => .replicate (n + 1) 0

-- No struct in the type has a `reflector_init`.
def Unhooked : {α : Type} → Codec α → Prop
  | _, .vector c             => Unhooked c
  | _, .deque c              => Unhooked c
  | _, .list c               => Unhooked c
  | _, .set _ c              => Unhooked c
  | _, .map _ k c            => Unhooked k ∧ Unhooked c
  | _, .unorderedSet _ _ c   => Unhooked c
  | _, .unorderedMap _ _ k c => Unhooked k ∧ Unhooked c
  | _, .pair a b             => Unhooked a ∧ Unhooked b
  | _, .array _ c            => Unhooked c
  | _, .cArray _ _ c         => Unhooked c
  | _, .optional c           => Unhooked c
  | _, .sharedPtr c          => Unhooked c
  | _, .variant _ c          => ∀ i, Unhooked (c i)
  | _, .struct c _ init      => (∀ i, Unhooked (c i)) ∧ init = none
  | _, _                     => True

theorem Plain.unhooked {c : Codec α} (h : Plain c) : Unhooked c := by
  induction c <;> try exact trivial
  case vector hc              => exact hc h
  case deque hc               => exact hc h
  case list hc                => exact hc h
  case set hc                 => exact hc h
  case map hk hc              => exact ⟨hk h.left, hc h.right⟩
  case unorderedSet hc        => exact hc h
  case unorderedMap hk hc     => exact ⟨hk h.left, hc h.right⟩
  case pair ha hb             => exact ⟨ha h.left, hb h.right⟩
  case array hc               => exact hc h
  case cArray hc              => exact hc h
  case optional hc            => exact hc h
  case sharedPtr hc           => exact hc h
  case variant hc             => exact fun i => hc i (h i)
  case struct hc              => exact ⟨fun i => hc i (h.left i), h.right⟩

theorem packs_zero (c : Codec α) : Packs (pack c c.zero) := by
  induction c
  case int                    => exact .int _
  case bool                   => exact .int _
  case unsignedInt            => exact .varint ..
  case signedInt              => exact .varint ..
  case string                 => exact .bytes (Nat.zero_le _)
  case bytes                  => exact .bytes (Nat.zero_le _)
  case enum                   => exact .int _
  case vector                 => exact .sequence (Nat.zero_le _) (List.forall_mem_nil _)
  case deque                  => exact .sequence (Nat.zero_le _) (List.forall_mem_nil _)
  case list                   => exact .sequence (Nat.zero_le _) (List.forall_mem_nil _)
  case set                    => exact .sequence (Nat.zero_le _) (List.forall_mem_nil _)
  case map                    => exact .sequence (Nat.zero_le _) (List.forall_mem_nil _)
  case unorderedSet t _ _     => rw [pack, Codec.zero, HashSet.empty, t.toList_zero]; exact .sequence (Nat.zero_le _) (List.forall_mem_nil _)
  case unorderedMap t _ _ _ _ => rw [pack, Codec.zero, HashSet.empty, t.toList_zero]; exact .sequence (Nat.zero_le _) (List.forall_mem_nil _)
  case pair ha hb             => exact ha.append hb
  case scalarArray            => exact Packs.done.write
  case array hc               => exact .pi fun _ => hc
  case cArray hc              => exact (Packs.varint ..).append (.pi fun _ => hc)
  case optional               => exact .int _
  case sharedPtr              => exact .int _
  case variant hc             => exact (Packs.varint ..).append (hc 0)
  case struct hc              => exact .pi hc
  case fcVariant              => exact (Packs.int _).append .done
  case variantObject          => exact (Packs.varint ..).append .done
  case fixedString            => exact (Packs.varint ..).append Packs.done.write

-- A component that can be packed, and zeros.
theorem packs_update {n : Nat} {δ : Fin n → Type} {c : ∀ i, Codec (δ i)} {i : Fin n} {v : δ i}
    (hv : Packs (pack (c i) v)) (j : Fin n) :
    Packs (pack (c j) (Function.update (fun j => (c j).zero) i v j)) := by
  by_cases hj : j = i
  case pos => subst hj; simpa using hv
  case neg => simpa [Function.update_of_ne hj] using packs_zero (c j)

theorem reads_empty_inPlace {f : Nat → α → Unpacker α} {w : α → Packer} {fill : α}
    {value : List α} :
    Reads (fun g => unpackInPlace (f g) fill value) (packSequence w []) [] :=
  reads_inPlace nofun

theorem reads_empty_inserting {x : Nat → Unpacker α} {w : α → Packer} {insert : γ → α → γ}
    {value : γ} :
    Reads (fun g => unpackInserting (x g) insert value) (packSequence w []) value :=
  reads_inserting nofun rfl

theorem reads_empty_hashed {x : Nat → Unpacker α} {w : α → Packer} {insert : γ → α → γ}
    {value : γ} :
    Reads (fun g => unpackHashed (x g) insert value) (packSequence w []) value :=
  reads_hashed nofun rfl

theorem reads_empty_fixedString {n : Nat} (d : Vector UInt8 (n + 1)) :
    Reads (fun _ => unpackFixedString d) (packFixedString (.replicate (n + 1) 0)) d := by
  have h0 : fixedStringSize (Vector.replicate (n + 1) (0 : UInt8)) = 0 := by
    simp [fixedStringSize]
  rw [packFixedString, h0]
  refine (reads_unsignedInt _).bind ?_
  intro b hb t g _
  cases hb
  rfl

theorem reads_zero {c : Codec α} (hu : Unhooked c) (d : α) :
    ∃ w, Reads (fun g => unpack g c d) (pack c c.zero) w := by
  induction c
  case int                    => exact ⟨_, reads_int d _⟩
  case bool                   => exact ⟨_, reads_bool _⟩
  case unsignedInt            => exact ⟨_, reads_unsignedInt _⟩
  case signedInt              => exact ⟨_, reads_signedInt _⟩
  case string                 => exact ⟨_, reads_bytes _ _⟩
  case bytes                  => exact ⟨_, reads_bytes d _⟩
  case enum                   => exact ⟨_, (reads_int _ _).map .pure⟩
  case vector                 => exact ⟨_, reads_empty_inPlace⟩
  case deque                  => exact ⟨_, reads_empty_inPlace⟩
  case list                   => exact ⟨_, reads_empty_inserting⟩
  case set                    => exact ⟨_, reads_empty_inserting⟩
  case map                    => exact ⟨_, reads_empty_inserting⟩
  case unorderedSet t _ _     =>
    rw [pack, Codec.zero, HashSet.empty, t.toList_zero]
    exact ⟨_, reads_empty_hashed⟩
  case unorderedMap t _ _ _ _ =>
    rw [pack, Codec.zero, HashSet.empty, t.toList_zero]
    exact ⟨_, reads_empty_hashed⟩
  case pair ha hb             =>
    obtain ⟨x, hx⟩ := ha hu.left d.1
    obtain ⟨y, hy⟩ := hb hu.right d.2
    exact ⟨_, reads_pair hx hy⟩
  case scalarArray n s        => exact ⟨_, .read (by simp) .pure⟩
  case array hc               =>
    obtain ⟨w, hw⟩ := Classical.skolem.mp fun i => hc hu (d i)
    exact ⟨w, .pi hw⟩
  case cArray n hn _ hc       =>
    obtain ⟨w, hw⟩ := Classical.skolem.mp fun i => hc hu (d i)
    exact ⟨w, (reads_unsignedInt _).bind (.check_bind (UInt32.toNat_ofNat_of_lt' hn) (.pi hw))⟩
  case optional               => exact ⟨_, reads_none⟩
  case sharedPtr              => exact ⟨_, reads_none⟩
  case variant n hn δ c hc    =>
    obtain ⟨w, hw⟩ := hc 0 (hu 0) (c 0).fresh
    exact ⟨_, reads_alternative hw⟩
  case struct hc              =>
    obtain ⟨hu, hi⟩ := hu
    obtain ⟨w, hw⟩ := Classical.skolem.mp fun i => hc i (hu i) (d i)
    rw [hi]
    exact ⟨w, (Decoder.Reads.pi hw).map .pure⟩
  case fcVariant              =>
    exact ⟨_, reads_variant .null d (by simp [Distinct, Variant.Objects]) (by simp [Sized, Variant.Objects])⟩
  case variantObject          => exact ⟨_, @reads_setAll _ [] id (by simp) (List.forall_mem_nil _)⟩
  case fixedString            => exact ⟨_, reads_empty_fixedString d⟩

end Raw
