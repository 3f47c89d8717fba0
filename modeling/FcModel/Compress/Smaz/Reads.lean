import FcModel.Compress.Smaz.RoundTrip

-- Which strings are decompressed without reading outside of them.

namespace Smaz

variable {t : Token} {ts : List Token} {s c : Bytes} {inlen : UInt32}

-- The string consists of tokens. Of one whose size does not fit into 32 bits, its beginning does,
-- up to a size that is the same in 32 bits.
def Complete (s : Bytes) : Prop :=
  ∃ ts, (∀ t ∈ ts, t.Valid) ∧ bytes ts <+: s ∧ (bytes ts).length % 2 ^ 32 = s.length % 2 ^ 32

-- A round reads a token, or it reads what is not there.
theorem token_or_read (c : Bytes) (h0 : inlen ≠ 0) :
    (∃ (t : Token) (rest : Bytes), t.Valid ∧ c = t.bytes ++ rest) ∨
      decompressLoop c inlen = .error .read := by
  rw [decompressLoop.eq_def, if_neg h0]
  cases c
  case nil => exact Or.inr rfl
  case cons b c =>
    dsimp only
    split
    case isTrue h254 =>
      cases c
      case nil      => exact Or.inr rfl
      case cons v c => exact Or.inl ⟨.single v, c, trivial, by rw [h254]; rfl⟩
    case isFalse h254 =>
      split
      case isTrue h255 =>
        cases c
        case nil => exact Or.inr rfl
        case cons l c =>
          dsimp only
          split
          case isTrue      => exact Or.inr rfl
          case isFalse hle =>
            have hl := l.toNat_lt
            have htake : (c.take (l.toNat + 1)).length = l.toNat + 1 :=
              List.length_take_of_le (Nat.le_of_not_lt hle)
            refine Or.inl ⟨.run (c.take (l.toNat + 1)), c.drop (l.toNat + 1), ?_, ?_⟩
            case refine_1 =>
              change 0 < _ ∧ _ ≤ 256
              omega
            case refine_2 =>
              rw [Token.bytes, htake, h255, Nat.add_sub_cancel, UInt8.ofNat_toNat,
                List.cons_append, List.cons_append, List.take_append_drop]
      case isFalse h255 =>
        have hcode : ∀ b : UInt8, b ≠ 254 → b ≠ 255 → b < 254 := by decide +kernel
        exact Or.inl ⟨.code b, c, hcode b h254 h255, rfl⟩

-- The loop ends behind tokens whose size is the one it was given, in 32 bits.
theorem decompressLoop_ok_iff (c : Bytes) (inlen : UInt32) :
    (∃ y, decompressLoop c inlen = .ok y) ↔
      ∃ ts, (∀ t ∈ ts, t.Valid) ∧ bytes ts <+: c ∧ .ofNat (bytes ts).length = inlen := by
  constructor
  case mp =>
    rintro ⟨y, hy⟩
    induction hn : c.length using Nat.strongRecOn generalizing c inlen y
    case ind n hi =>
      by_cases h0 : inlen = 0
      case pos => exact ⟨[], by simp, List.nil_prefix, h0.symm⟩
      case neg =>
        obtain ⟨t, rest, ht, rfl⟩ | hr := token_or_read c h0
        case inr =>
          rw [hr] at hy
          cases hy
        case inl =>
          rw [decompressLoop_token ht h0] at hy
          have hpos := length_bytes_pos t
          rw [List.length_append] at hn
          cases hrest : decompressLoop rest (inlen - .ofNat t.bytes.length)
          case error e =>
            rw [hrest] at hy
            cases hy
          case ok z =>
            obtain ⟨ts, hts, hpre, hlen⟩ := hi rest.length (by omega) rest _ z hrest rfl
            refine ⟨t :: ts, List.forall_mem_cons.mpr ⟨ht, hts⟩, ?_, ?_⟩
            · rw [bytes, List.flatMap_cons]
              exact (List.prefix_append_right_inj _).mpr hpre
            · rw [bytes, List.flatMap_cons, List.length_append, UInt32.ofNat_add, hlen,
                UInt32.add_comm, UInt32.sub_add_cancel]
  case mpr =>
    rintro ⟨ts, hts, hpre, hlen⟩
    induction ts generalizing c inlen
    case nil =>
      have h0 : inlen = 0 := hlen.symm
      exact ⟨[], by rw [h0, decompressLoop_zero]⟩
    case cons t ts hi =>
      by_cases h0 : inlen = 0
      case pos => exact ⟨[], by rw [h0, decompressLoop_zero]⟩
      case neg =>
        obtain ⟨ht, hts⟩ := List.forall_mem_cons.mp hts
        have happ : bytes (t :: ts) = t.bytes ++ bytes ts := List.flatMap_cons
        rw [happ] at hpre hlen
        obtain ⟨rest, rfl⟩ := (List.prefix_append _ _).trans hpre
        have hsize : UInt32.ofNat (bytes ts).length = inlen - .ofNat t.bytes.length := by
          rw [← hlen, List.length_append, ofNat_sub]
        obtain ⟨y, hy⟩ := hi rest _ hts ((List.prefix_append_right_inj _).mp hpre) hsize
        exact ⟨t.text ++ y, by rw [decompressLoop_token ht h0, hy]; rfl⟩

-- There is no other error.
theorem decompressLoop_error {e : Error} (h : decompressLoop c inlen = .error e) : e = .read := by
  induction hn : c.length using Nat.strongRecOn generalizing c inlen
  case ind n hi =>
    by_cases h0 : inlen = 0
    case pos =>
      rw [h0, decompressLoop_zero] at h
      cases h
    case neg =>
      obtain ⟨t, rest, ht, rfl⟩ | hr := token_or_read c h0
      case inr =>
        rw [hr] at h
        cases h
        rfl
      case inl =>
        rw [decompressLoop_token ht h0] at h
        have hpos := length_bytes_pos t
        rw [List.length_append] at hn
        cases hrest : decompressLoop rest (inlen - .ofNat t.bytes.length)
        case ok z =>
          rw [hrest] at h
          cases h
        case error f =>
          rw [hrest] at h
          cases h
          exact hi rest.length (by omega) hrest rfl

theorem ofNat_eq_iff {m n : Nat} : UInt32.ofNat m = .ofNat n ↔ m % 2 ^ 32 = n % 2 ^ 32 := by
  rw [← UInt32.toNat_inj, UInt32.toNat_ofNat', UInt32.toNat_ofNat']

-- The NUL behind the string is never all that is read outside of it.
theorem decompress_ok_iff (s : Bytes) : (∃ y, decompress s = .ok y) ↔ Complete s := by
  refine (decompressLoop_ok_iff _ _).trans (exists_congr fun ts => and_congr_right fun _ => ?_)
  rw [ofNat_eq_iff]
  refine and_congr_left fun hlen => ⟨fun hpre => ?_, fun hpre => hpre.trans (List.prefix_append ..)⟩
  have hle := hpre.length_le
  rw [List.length_append, List.length_singleton] at hle
  have hne : (bytes ts).length ≠ s.length + 1 := by
    intro he
    omega
  exact List.prefix_of_prefix_length_le hpre (List.prefix_append ..) (by omega)

theorem decompress_read_iff (s : Bytes) : decompress s = .error .read ↔ ¬Complete s := by
  rw [← decompress_ok_iff]
  cases h : decompress s
  case ok y    => simp
  case error e => simp [decompressLoop_error h]

-- The string is decompressed without reading outside of it just if it consists of tokens.
theorem decompress_safe_iff (s : Bytes) : decompress s ≠ .error .read ↔ Complete s := by
  rw [ne_eq, decompress_read_iff, not_not]

-- The byte that is announced is not there.
theorem not_decompress_safe : ¬decompress [254] ≠ .error .read := by
  decide +kernel

end Smaz
