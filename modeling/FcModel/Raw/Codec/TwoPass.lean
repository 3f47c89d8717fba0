import FcModel.Io.Datastream
import FcModel.Raw.Codec.Basic

-- The functions that pack into a new vector: a first pass counts the bytes, a second one writes
-- them.

namespace Raw

variable {α : Type}

-- The packer does not throw.
def Packs (x : Packer) : Prop :=
  ∃ b, x.bytes = .ok b

namespace Packs

variable {x y : Packer}

theorem done : Packs .done :=
  ⟨[], rfl⟩

theorem write {bs : Bytes} (h : Packs x) : Packs (.write bs x) :=
  have ⟨b, hb⟩ := h
  ⟨bs ++ b, Encoder.bytes_write_eq_ok.mpr ⟨b, hb, rfl⟩⟩

theorem append (hx : Packs x) (hy : Packs y) : Packs (x ++ y) :=
  have ⟨a, ha⟩ := hx
  have ⟨b, hb⟩ := hy
  ⟨a ++ b, Encoder.bytes_append_eq_ok.mpr ⟨a, b, ha, hb, rfl⟩⟩

theorem guard {p : Prop} [Decidable p] {e : Failure} (h : p) : Packs (.guard p e) :=
  ⟨[], Encoder.bytes_guard_eq_ok.mpr ⟨h, rfl⟩⟩

theorem each {f : α → Packer} {as : List α} (h : ∀ a ∈ as, Packs (f a)) : Packs (.each f as) := by
  induction as
  case nil          => exact done
  case cons a as hi =>
    exact (h a (List.mem_cons_self ..)).append (hi fun b hb => h b (List.mem_cons_of_mem _ hb))

theorem pi {n : Nat} {f : Fin n → Packer} (h : ∀ i, Packs (f i)) : Packs (.pi f) := by
  induction n
  case zero       => exact done
  case succ n hi  => exact (h 0).append (hi fun i => h i.succ)

theorem int {n : Nat} (v : BitVec (8 * n)) : Packs (packInt v) :=
  done.write

theorem varint (n val : Nat) : Packs (packVarint n val) := by
  induction n generalizing val
  case zero => exact done
  case succ n hi =>
    refine write ?_
    split
    case isTrue   => exact done
    case isFalse  => exact hi _

theorem sequence {f : α → Packer} {as : List α} (hl : as.length ≤ maxNumArrayElements)
    (h : ∀ a ∈ as, Packs (f a)) : Packs (packSequence f as) :=
  (guard hl).append ((varint ..).append (each h))

theorem bytes {v : Bytes} (hl : v.length ≤ maxSizeOfByteArrays) : Packs (packBytes v) := by
  refine (guard hl).append ((varint ..).append ?_)
  split
  case isTrue   => exact done
  case isFalse  => exact done.write

end Packs

-- A value together with its type.
structure Arg where
  type  : Type
  codec : Codec type
  value : type

-- `pack( s, a0, args... )`.
def packArgs : List Arg → Packer
  | []        => .done
  | a :: args => pack a.codec a.value ++ packArgs args

-- `pack( v, next... )`.
def packVector (args : List Arg) : Except Failure Bytes :=
  match ((packArgs args).run SizeStream.write).run 0 with
  | .error e _ => .error e
  | .ok _ size =>
    if size = 0 then .ok []
    else
      match ((packArgs args).run Datastream.write).run ⟨List.replicate size 0, 0⟩ with
      | .error e _ => .error e
      | .ok _ ds   => .ok ds.bytes

theorem run_datastream {x : Packer} {b buf : Bytes} (hb : x.bytes = .ok b)
    (hl : buf.length = b.length) :
    (x.run Datastream.write).run ⟨buf, 0⟩ = .ok () ⟨b, b.length⟩ := by
  have ⟨ds, hrun, hw⟩ := (Datastream.faithful b.length).run hb
    (show Datastream.Written b.length ⟨buf, 0⟩ [] from ⟨hl, rfl, rfl⟩) (Nat.le_refl _)
  rw [hrun, Datastream.Written.eq hw]

theorem packVector_of_ok {args : List Arg} {b : Bytes} (hb : (packArgs args).bytes = .ok b) :
    packVector args = .ok b := by
  have ⟨n, hrun, hn⟩ := SizeStream.faithful.run hb (show 0 = [].length from rfl) trivial
  rw [List.nil_append] at hn
  simp only [packVector, hrun]
  split
  case isTrue h0 =>
    have : b = [] := List.length_eq_zero_iff.mp (by rw [← hn, h0])
    rw [this]
  case isFalse   => rw [run_datastream hb (by rw [List.length_replicate, hn])]

theorem packVector_of_error {args : List Arg} {e : Failure}
    (he : (packArgs args).bytes = .error e) :
    packVector args = .error e := by
  have ⟨n, hrun⟩ := SizeStream.faithful.run_error he (show 0 = [].length from rfl)
  simp only [packVector, hrun]

-- Packing a single value.
theorem packVector_singleton {α : Type} (c : Codec α) (v : α) :
    packVector [⟨α, c, v⟩] = (pack c v).bytes := by
  have happ : packArgs [⟨α, c, v⟩] = pack c v := Encoder.append_done _
  cases hb : (pack c v).bytes
  case ok b     => exact packVector_of_ok (by rw [happ, hb])
  case error e  => exact packVector_of_error (by rw [happ, hb])

-- The first pass counts what any stream is given: either every stream sees the same exception, or
-- the second pass fits exactly into the vector and writes the bytes that any stream would get.
theorem two_pass_exact (args : List Arg) :
    (∃ b : Bytes,
      ((packArgs args).run SizeStream.write).run 0 = .ok () b.length ∧
      (∀ buf : Bytes, buf.length = b.length →
        ((packArgs args).run Datastream.write).run ⟨buf, 0⟩ = .ok () ⟨b, b.length⟩) ∧
      packVector args = .ok b ∧
      ((packArgs args).run ContainerStream.write).run ⟨[], 0⟩ = .ok () ⟨b, b.length⟩ ∧
      (∀ b₀ : Bytes, ((packArgs args).run StreambufStream.write).run b₀ = .ok () (b₀ ++ b)) ∧
      ∀ (σ : Type) (S : Sink UInt8 Failure σ) (rel : σ → Bytes → Prop),
        S.Faithful (fun _ => True) rel → ∀ s, rel s [] →
          ∃ s', ((packArgs args).run S).run s = .ok () s' ∧ rel s' b) ∨
    (∃ e,
      (∃ n, ((packArgs args).run SizeStream.write).run 0 = .error e n) ∧
      packVector args = .error e ∧
      ∀ (σ : Type) (S : Sink UInt8 Failure σ) (rel : σ → Bytes → Prop),
        S.Faithful (fun _ => True) rel → ∀ s, rel s [] →
          ∃ s', ((packArgs args).run S).run s = .error e s') := by
  cases hb : (packArgs args).bytes
  case error e =>
    refine .inr ⟨e, ?_, packVector_of_error hb, ?_⟩
    case refine_1 => exact SizeStream.faithful.run_error hb (show 0 = [].length from rfl)
    case refine_2 => exact fun σ S rel hS s hs => hS.run_error hb hs
  case ok b =>
    have ⟨n, hsize, hn⟩ := SizeStream.faithful.run hb (show 0 = [].length from rfl) trivial
    have ⟨s, hcont, hs⟩ := ContainerStream.faithful.run hb (show ContainerStream.Written ⟨[], 0⟩ [] from rfl) trivial
    refine .inl ⟨b, ?_, fun buf hl => run_datastream hb hl, packVector_of_ok hb, ?_, ?_, ?_⟩
    case refine_1 => rw [hsize, hn, List.nil_append]
    case refine_2 => rw [hcont, hs, List.nil_append]
    case refine_3 =>
      intro b₀
      have ⟨s', hrun, hs'⟩ := (StreambufStream.faithful b₀).run hb
        (show b₀ = b₀ ++ [] by rw [List.append_nil]) trivial
      rw [hrun, hs', List.nil_append]
    case refine_4 => exact fun σ S rel hS s hs => hS.run hb hs trivial

end Raw
