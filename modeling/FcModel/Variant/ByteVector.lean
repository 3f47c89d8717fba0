import FcModel.Crypto.Hex
import FcModel.Raw.Scalar
import FcModel.Variant.Equality

-- The conversions between variants and the byte vectors of the standard library and of Boost.

namespace ByteVector

open Variant Hex Raw

inductive Error
  | cast (e : CastError)
  | hex (e : Hex.Error)
  | assert (message : String)
deriving DecidableEq, Repr

def getString : Variant → Except CastError Bytes
  | string s => .ok s
  | _        => .error .badCast

section Conversions

-- The state is the vector. It is named in the messages.
variable (name : String)

def toVariant (vec : Bytes) : Except Error Variant :=
  if vec.length ≤ maxSizeOfByteArrays
  then .ok (if vec.length ≠ 0 then string (toHex vec (.ofNat vec.length)) else string [])
  else .error (.assert (name ++ ".size() <= MAX_SIZE_OF_BYTE_ARRAYS: "))

def fcAssert (p : Prop) [Decidable p] (message : String) : EStateM Error Bytes Unit :=
  if p then return () else throw (.assert message)

def liftHex {α : Type} (x : EStateM Hex.Error Bytes α) : EStateM Error Bytes α := fun vec =>
  match x vec with
  | .ok a vec    => .ok a vec
  | .error e vec => .error (.hex e) vec

def checkedString (v : Variant) : EStateM Error Bytes Bytes :=
  match getString v with
  | .error e => throw (.cast e)
  | .ok str  => do
    fcAssert (str.length ≤ 2 * maxSizeOfByteArrays) "str.size() <= 2*MAX_SIZE_OF_BYTE_ARRAYS: "
    return str

def fillFrom (str : Bytes) : EStateM Error Bytes Unit := do
  modify fun vec => resize vec (str.length / 2) 0
  if (← get).length ≠ 0 then
    let r ← liftHex (fromHex 0 str)
    fcAssert (r = (← get).length) ("r == " ++ name ++ ".size(): ")

end Conversions

-- `to_variant` and `from_variant` of `std::vector<char>`.
def stdToVariant : Bytes → Except Error Variant :=
  toVariant "var"

def stdFromVariant (v : Variant) : EStateM Error Bytes Unit := do
  let str ← checkedString v
  fcAssert (str.length % 2 = 0) "str.size() % 2 == 0: the length of hex string should be even number"
  fillFrom "vo" str

-- `to_variant` and `from_variant` of `boost::container::vector<char>`.
def boostToVariant : Bytes → Except Error Variant :=
  toVariant "vec"

def boostFromVariant (v : Variant) : EStateM Error Bytes Unit := do
  let str ← checkedString v
  fillFrom "vec" str

-- Both throw, or both give the same bytes, whatever the vectors hold before.
def Agree (v : Variant) : Prop :=
  ∀ vec vec', match (stdFromVariant v).run vec, (boostFromVariant v).run vec' with
    | .ok _ b, .ok _ b'        => b = b'
    | .error _ _, .error _ _   => True
    | _, _                     => False

def RoundTrips (toV : Bytes → Except Error Variant) (fromV : Variant → EStateM Error Bytes Unit)
    (b : Bytes) : Prop :=
  ∃ v, toV b = .ok v ∧ ∀ vec, (fromV v).run vec = .ok () b

-- What is to be expected of the conversions.
structure Consistent (v : Variant) (b : Bytes) : Prop where
  agree : Agree v
  std   : b.length ≤ maxSizeOfByteArrays → RoundTrips stdToVariant stdFromVariant b
  boost : b.length ≤ maxSizeOfByteArrays → RoundTrips boostToVariant boostFromVariant b

-- A string of odd length, within the limit, with hex digits before its last character.
def OddHex : Variant → Prop
  | string s => s.length ≤ 2 * maxSizeOfByteArrays ∧ s.length % 2 = 1 ∧ ∀ c ∈ s.dropLast, IsDigit c
  | _        => False

variable {name : String} {str vec : Bytes} {v : Variant}

-- The digits that are read: the last one of an odd number is not.
def paired (str : Bytes) : Bytes :=
  str.take (2 * (str.length / 2))

theorem paired_of_even (h : str.length % 2 = 0) : paired str = str :=
  List.take_of_length_le (by omega)

theorem paired_of_odd (h : str.length % 2 = 1) : paired str = str.dropLast := by
  rw [paired, List.dropLast_eq_take]
  congr 1
  omega

theorem liftHex_run_ok {α : Type} {x : EStateM Hex.Error Bytes α} {a : α} {vec' : Bytes}
    (h : x.run vec = .ok a vec') :
    (liftHex x).run vec = .ok a vec' := by
  simp only [liftHex, EStateM.run] at h ⊢
  rw [h]

theorem liftHex_run_error {α : Type} {x : EStateM Hex.Error Bytes α} {e : Hex.Error} {vec' : Bytes}
    (h : x.run vec = .error e vec') : (liftHex x).run vec = .error (.hex e) vec' := by
  simp only [liftHex, EStateM.run] at h ⊢
  rw [h]

theorem fillFrom_zero (h : str.length / 2 = 0) : (fillFrom name str).run vec = .ok () [] := by
  have hnil : resize vec (str.length / 2) 0 = [] := List.length_eq_zero_iff.mp ((length_resize ..).trans h)
  simp [fillFrom, hnil]

-- The vector is filled when it is not empty.
theorem fillFrom_pos (h : str.length / 2 ≠ 0) :
    resize vec (str.length / 2) 0 ≠ [] ∧
    (resize vec (str.length / 2) 0).length = str.length / 2 := by
  refine ⟨fun hnil => h ?_, length_resize ..⟩
  rw [← @length_resize _ vec (str.length / 2) 0, hnil]
  rfl

theorem fillFrom_run (h : ∀ c ∈ paired str, IsDigit c) :
    (fillFrom name str).run vec = .ok () (decode (paired str)) := by
  by_cases h0 : str.length / 2 = 0
  case pos => rw [fillFrom_zero h0, paired, h0]; rfl
  case neg =>
    obtain ⟨hne, hlength⟩ := @fillFrom_pos str vec h0
    have hrun := @fromHex_ok str (resize vec (str.length / 2) 0) (by rw [hlength]; omega) (by rwa [hlength])
    have hdecode : (decode (paired str)).length = str.length / 2 := by
      rw [length_decode, paired, List.length_take]
      omega
    rw [hlength, ← paired] at hrun
    simp [fillFrom, hne, liftHex_run_ok hrun, fcAssert, hdecode]

theorem fillFrom_run_error (h : ¬∀ c ∈ paired str, IsDigit c) :
    ∃ e vec', (fillFrom name str).run vec = .error e vec' := by
  obtain ⟨hne, hlength⟩ := @fillFrom_pos str vec fun h0 => h (by simp [paired, h0])
  obtain ⟨e, vec', hrun⟩ := @fromHex_error str (resize vec (str.length / 2) 0) (by rw [hlength]; omega)
    (by rwa [hlength])
  refine ⟨.hex e, vec', ?_⟩
  simp [fillFrom, hne, liftHex_run_error hrun]

theorem checkedString_run (hs : str.length ≤ 2 * maxSizeOfByteArrays) :
    (checkedString (.string str)).run vec = .ok str vec := by
  simp [checkedString, getString, fcAssert, hs]

-- Nothing but a string within the limit passes.
theorem checkedString_error (h : ∀ str, v = .string str → ¬str.length ≤ 2 * maxSizeOfByteArrays) :
    ∃ e, ∀ vec, (checkedString v).run vec = .error e vec := by
  cases hv : getString v
  case error e => exact ⟨.cast e, fun vec => by rw [checkedString, hv]; rfl⟩
  case ok str  =>
    have hstr : v = .string str := by
      cases v <;> simp [getString] at hv
      rw [hv]
    refine ⟨.assert "str.size() <= 2*MAX_SIZE_OF_BYTE_ARRAYS: ", fun vec => ?_⟩
    simp only [checkedString, hv, fcAssert, if_neg (h str hstr)]
    rfl

-- The parity is checked of one of the vectors only.
theorem stdFromVariant_run (hs : str.length ≤ 2 * maxSizeOfByteArrays)
    (heven : str.length % 2 = 0) :
    (stdFromVariant (.string str)).run vec = (fillFrom "vo" str).run vec := by
  simp [stdFromVariant, checkedString_run hs, fcAssert, heven]

theorem stdFromVariant_odd (hs : str.length ≤ 2 * maxSizeOfByteArrays) (hodd : str.length % 2 = 1) :
    ∃ e, (stdFromVariant (.string str)).run vec = .error e vec := by
  refine ⟨.assert "str.size() % 2 == 0: the length of hex string should be even number", ?_⟩
  simp [stdFromVariant, checkedString_run hs, fcAssert, hodd]

theorem boostFromVariant_run (hs : str.length ≤ 2 * maxSizeOfByteArrays) :
    (boostFromVariant (.string str)).run vec = (fillFrom "vec" str).run vec := by
  simp [boostFromVariant, checkedString_run hs]

theorem agree_of_error (h : ∀ str, v = .string str → ¬str.length ≤ 2 * maxSizeOfByteArrays) :
    Agree v := by
  obtain ⟨e, herror⟩ := checkedString_error h
  intro vec vec'
  have hstd : (stdFromVariant v).run vec = .error e vec := by simp [stdFromVariant, herror]
  have hboost : (boostFromVariant v).run vec' = .error e vec' := by simp [boostFromVariant, herror]
  rw [hstd, hboost]
  trivial

theorem agree_of_even (hs : str.length ≤ 2 * maxSizeOfByteArrays) (heven : str.length % 2 = 0) :
    Agree (.string str) := by
  intro vec vec'
  rw [stdFromVariant_run hs heven, boostFromVariant_run hs]
  by_cases hdigits : ∀ c ∈ paired str, IsDigit c
  case pos =>
    rw [fillFrom_run hdigits, fillFrom_run hdigits]
  case neg =>
    obtain ⟨e, out, hstd⟩ := @fillFrom_run_error "vo" str vec hdigits
    obtain ⟨e', out', hboost⟩ := @fillFrom_run_error "vec" str vec' hdigits
    rw [hstd, hboost]
    trivial

theorem agree_odd_iff (hs : str.length ≤ 2 * maxSizeOfByteArrays) (hodd : str.length % 2 = 1) :
    Agree (.string str) ↔ ¬∀ c ∈ str.dropLast, IsDigit c := by
  rw [← paired_of_odd hodd]
  constructor
  · intro h hdigits
    obtain ⟨e, hstd⟩ := @stdFromVariant_odd str [] hs hodd
    have hagree := h [] []
    rw [hstd, boostFromVariant_run hs, fillFrom_run hdigits] at hagree
    exact hagree
  · intro hdigits vec vec'
    obtain ⟨e, hstd⟩ := @stdFromVariant_odd str vec hs hodd
    obtain ⟨e', out', hboost⟩ := @fillFrom_run_error "vec" str vec' hdigits
    rw [hstd, boostFromVariant_run hs, hboost]
    trivial

theorem agree_iff : Agree v ↔ ¬OddHex v := by
  by_cases h : ∃ str, v = .string str ∧ str.length ≤ 2 * maxSizeOfByteArrays
  case neg =>
    have hagree := agree_of_error fun str hv hs => h ⟨str, hv, hs⟩
    refine iff_of_true hagree fun hodd => ?_
    cases v
    case string str => exact h ⟨str, rfl, hodd.1⟩
    all_goals exact hodd
  case pos =>
    obtain ⟨str, rfl, hs⟩ := h
    obtain heven | hodd := Nat.mod_two_eq_zero_or_one str.length
    · refine iff_of_true (agree_of_even hs heven) fun h => ?_
      exact absurd h.2.1 (by rw [heven]; decide)
    · rw [agree_odd_iff hs hodd, OddHex, not_iff_not]
      exact ⟨fun h => ⟨hs, hodd, h⟩, fun h => h.2.2⟩

section RoundTrip

variable {b : Bytes}

theorem toHex_of_le (hb : b.length ≤ maxSizeOfByteArrays) :
    (toHex b (.ofNat b.length)).length = 2 * b.length ∧ decode (toHex b (.ofNat b.length)) = b := by
  have hsize : b.length ≤ (UInt32.ofNat b.length).toNat := by
    rw [UInt32.toNat_ofNat_of_lt' (Nat.lt_of_le_of_lt hb (by decide))]
  exact ⟨length_toHex hsize, decode_toHex hsize⟩

theorem toVariant_eq (hb : b.length ≤ maxSizeOfByteArrays) :
    toVariant name b = .ok (.string (toHex b (.ofNat b.length))) := by
  rw [toVariant, if_pos hb]
  split
  case isTrue => rfl
  case isFalse h =>
    rw [not_not.mp h, List.length_eq_zero_iff.mp (not_not.mp h)]
    rfl

theorem fillFrom_toHex (hb : b.length ≤ maxSizeOfByteArrays) :
    (fillFrom name (toHex b (.ofNat b.length))).run vec = .ok () b := by
  obtain ⟨hlength, hdecode⟩ := toHex_of_le hb
  have hpaired := @paired_of_even (toHex b (.ofNat b.length)) (by rw [hlength]; omega)
  rw [fillFrom_run fun c hc => isDigit_toHex (hpaired ▸ hc), hpaired, hdecode]

theorem roundTrips_std (hb : b.length ≤ maxSizeOfByteArrays) :
    RoundTrips stdToVariant stdFromVariant b := by
  have hlength := (toHex_of_le hb).1
  refine ⟨_, toVariant_eq hb, fun vec => ?_⟩
  rw [stdFromVariant_run (by omega) (by omega), fillFrom_toHex hb]

theorem roundTrips_boost (hb : b.length ≤ maxSizeOfByteArrays) :
    RoundTrips boostToVariant boostFromVariant b := by
  have hlength := (toHex_of_le hb).1
  refine ⟨_, toVariant_eq hb, fun vec => ?_⟩
  rw [boostFromVariant_run (by omega), fillFrom_toHex hb]

end RoundTrip

-- The conversions are consistent, but for strings of odd length whose last character is not read.
theorem consistent_iff (v : Variant) (b : Bytes) : Consistent v b ↔ ¬OddHex v :=
  ⟨fun h => agree_iff.mp h.agree, fun h => ⟨agree_iff.mpr h, roundTrips_std, roundTrips_boost⟩⟩

-- One digit is an empty vector of Boost, and no vector of the standard library.
theorem not_consistent_digit : ¬Consistent (.string [0x61]) [] := by
  intro h
  exact h.agree [] []

end ByteVector
