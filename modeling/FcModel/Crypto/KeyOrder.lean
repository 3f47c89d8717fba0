import FcModel.Crypto.Keys
import FcModel.Lib.Comparator

-- The operators `==` and `<` of `public_key` and `signature`.

namespace Keys

open Raw

-- `memcmp` of as many bytes as there are in both.
def memcmp : Bytes → Bytes → Int
  | x :: xs, y :: ys => if x = y then memcmp xs ys else (x.toNat : Int) - y.toNat
  | _, _             => 0

section Operators

-- `unsigned char`.
def byteOrder : Comparator UInt8 where
  lt x y := x < y
  eq x y := x = y

-- `fc::array`.
def arrayOrder (n : Nat) : Comparator (Data n) where
  lt a b := memcmp (memory a) (memory b) < 0
  eq a b := memcmp (memory a) (memory b) = 0

-- `std::string`. Where the shorter one is the beginning of the longer one, the lengths decide.
def stringOrder : Comparator Bytes where
  lt a b := (if memcmp a b = 0 then (a.length : Int) - b.length else memcmp a b) < 0
  eq a b := a.length = b.length ∧ memcmp a b = 0

-- `std::vector<uint8_t>`.
def vectorOrder : Comparator Bytes :=
  byteOrder.container

-- An `enum class` is compared as its underlying type.
def presenceOrder : Comparator Webauthn.UserPresence where
  lt x y := x < y
  eq x y := x = y

def webauthnPublicKeyTie : Comparator (Data 33 × Webauthn.UserPresence × Bytes) :=
  (arrayOrder 33).tie (presenceOrder.tie stringOrder)

-- `operator==` names the members once more.
def webauthnPublicKeyOrder : Comparator Webauthn.PublicKey where
  lt a b := webauthnPublicKeyTie.lt (a.publicKeyData, a.userVerificationType, a.rpid)
    (b.publicKeyData, b.userVerificationType, b.rpid)
  eq a b :=
    (arrayOrder 33).eq a.publicKeyData b.publicKeyData &&
      presenceOrder.eq a.userVerificationType b.userVerificationType &&
      stringOrder.eq a.rpid b.rpid

def webauthnSignatureTie : Comparator (Data 65 × Bytes × Bytes) :=
  (arrayOrder 65).tie (vectorOrder.tie stringOrder)

def webauthnSignatureOrder : Comparator Webauthn.Signature where
  lt a b := webauthnSignatureTie.lt (a.compactSignature, a.authData, a.clientJson)
    (b.compactSignature, b.authData, b.clientJson)
  eq a b :=
    (arrayOrder 65).eq a.compactSignature b.compactSignature &&
      vectorOrder.eq a.authData b.authData && stringOrder.eq a.clientJson b.clientJson

-- `eq_comparator` and `less_comparator` of the alternatives.
def publicKeyComparators : ∀ i, Comparator (PublicKeyType i)
  | 0 => arrayOrder 33
  | 1 => arrayOrder 33
  | 2 => webauthnPublicKeyOrder

def signatureComparators : ∀ i, Comparator (SignatureType i)
  | 0 => arrayOrder 65
  | 1 => arrayOrder 65
  | 2 => webauthnSignatureOrder

def PublicKey.order : Comparator PublicKey :=
  .alternatives publicKeyComparators

def Signature.order : Comparator Signature :=
  .alternatives signatureComparators

end Operators

section Memory

theorem lawful_byteOrder : byteOrder.Lawful where
  eq_iff   := decide_eq_true_iff
  irrefl x := decide_eq_false (UInt8.lt_irrefl x)
  trans h₁ h₂ := decide_eq_true (UInt8.lt_trans (of_decide_eq_true h₁) (of_decide_eq_true h₂))
  total h  := (UInt8.lt_or_lt_of_ne h).imp decide_eq_true decide_eq_true

theorem memcmp_eq_zero {a b : Bytes} (h : a.length = b.length) : memcmp a b = 0 ↔ a = b := by
  induction a generalizing b
  case nil => cases b <;> simp_all [memcmp]
  case cons x a hi =>
    cases b
    case nil       => cases h
    case cons y b =>
      rw [memcmp]
      by_cases hxy : x = y
      case pos => rw [if_pos hxy, hi (Nat.succ.inj h), List.cons.injEq, and_iff_right hxy]
      case neg =>
        have hne : x.toNat ≠ y.toNat := fun h => hxy (UInt8.toNat_inj.mp h)
        rw [if_neg hxy]
        exact iff_of_false (by omega) fun h => hxy (List.cons.inj h).left

theorem stringOrder_eq (a b : Bytes) : stringOrder.eq a b = byteOrder.container.eq a b := by
  rw [Bool.eq_iff_iff, Comparator.container_eq_iff lawful_byteOrder, stringOrder,
    decide_eq_true_iff]
  constructor
  case mp  => exact fun h => (memcmp_eq_zero h.left).mp h.right
  case mpr => exact fun h => ⟨congrArg _ h, (memcmp_eq_zero (congrArg _ h)).mpr h⟩

-- Bytes are compared as numbers without a sign, the first difference decides.
theorem stringOrder_lt (a b : Bytes) : stringOrder.lt a b = byteOrder.container.lt a b := by
  change decide _ = byteOrder.lexicographical a b
  induction a generalizing b
  case nil =>
    cases b
    case nil  => rfl
    case cons =>
      simp [memcmp, Comparator.lexicographical]
      omega
  case cons x a hi =>
    cases b
    case nil =>
      simp [memcmp, Comparator.lexicographical]
      omega
    case cons y b =>
      rw [memcmp, Comparator.lexicographical]
      by_cases hxy : x = y
      case pos =>
        rw [← hi b, if_pos hxy, hxy, lawful_byteOrder.irrefl]
        simp only [List.length_cons, Bool.false_eq_true, if_false]
        congr 3
        omega
      case neg =>
        have hne : x.toNat ≠ y.toNat := fun h => hxy (UInt8.toNat_inj.mp h)
        rw [if_neg hxy, if_neg (by omega)]
        cases lawful_byteOrder.total hxy
        case inl hlt =>
          have hnat : x.toNat < y.toNat := of_decide_eq_true hlt
          rw [if_pos hlt, decide_eq_true_iff]
          omega
        case inr hlt =>
          have hnat : y.toNat < x.toNat := of_decide_eq_true hlt
          rw [lawful_byteOrder.asymm hlt, if_neg Bool.false_ne_true, if_pos hlt,
            decide_eq_false_iff_not]
          omega

theorem lawful_stringOrder : stringOrder.Lawful := by
  have h : stringOrder = byteOrder.container :=
    Comparator.ext (funext₂ stringOrder_lt) (funext₂ stringOrder_eq)
  rw [h]
  exact lawful_byteOrder.container

theorem lawful_vectorOrder : vectorOrder.Lawful :=
  lawful_byteOrder.container

theorem memory_injective {n : Nat} : (memory : Data n → Bytes).Injective :=
  Function.LeftInverse.injective (Scalar.arrayOfBytes_arrayToBytes (.int 1))

-- Arrays have the same length, so that they are compared as strings are.
theorem lawful_arrayOrder (n : Nat) : (arrayOrder n).Lawful := by
  have hlength : ∀ a b : Data n, (memory a).length = (memory b).length := by
    intro a b
    rw [length_memory, length_memory]
  have h : arrayOrder n = stringOrder.on memory := by
    refine Comparator.ext (funext₂ fun a b => ?_) (funext₂ fun a b => ?_)
    case refine_1 =>
      change decide _ = decide _
      rw [hlength a b, Int.sub_self]
      congr 1
      split
      case isTrue h  => rw [h]
      case isFalse h => rfl
    case refine_2 =>
      exact decide_eq_decide.mpr (and_iff_right (hlength a b)).symm
  rw [h]
  exact lawful_stringOrder.on memory_injective

theorem lawful_presenceOrder : presenceOrder.Lawful where
  eq_iff   := decide_eq_true_iff
  irrefl x := decide_eq_false (BitVec.lt_irrefl x)
  trans h₁ h₂ := decide_eq_true (BitVec.lt_trans (of_decide_eq_true h₁) (of_decide_eq_true h₂))
  total h  := by
    have hne := fun he => h (BitVec.eq_of_toNat_eq he)
    exact (Nat.lt_or_gt_of_ne hne).imp (fun h => decide_eq_true h) fun h => decide_eq_true h

end Memory

section Alternatives

theorem lawful_webauthnPublicKeyOrder : webauthnPublicKeyOrder.Lawful := by
  have h : webauthnPublicKeyOrder =
      webauthnPublicKeyTie.on fun k => (k.publicKeyData, k.userVerificationType, k.rpid) :=
    Comparator.ext rfl (funext₂ fun _ _ => Bool.and_assoc ..)
  have htie : webauthnPublicKeyTie.Lawful :=
    (lawful_arrayOrder 33).tie (lawful_presenceOrder.tie lawful_stringOrder)
  rw [h]
  refine htie.on ?_
  rintro ⟨_, _, _⟩ ⟨_, _, _⟩ he
  cases he
  rfl

theorem lawful_webauthnSignatureOrder : webauthnSignatureOrder.Lawful := by
  have h : webauthnSignatureOrder =
      webauthnSignatureTie.on fun s => (s.compactSignature, s.authData, s.clientJson) :=
    Comparator.ext rfl (funext₂ fun _ _ => Bool.and_assoc ..)
  have htie : webauthnSignatureTie.Lawful :=
    (lawful_arrayOrder 65).tie (lawful_vectorOrder.tie lawful_stringOrder)
  rw [h]
  refine htie.on ?_
  rintro ⟨_, _, _⟩ ⟨_, _, _⟩ he
  cases he
  rfl

theorem PublicKey.lawful_order : PublicKey.order.Lawful :=
  Comparator.lawful_alternatives fun
    | 0 => lawful_arrayOrder 33
    | 1 => lawful_arrayOrder 33
    | 2 => lawful_webauthnPublicKeyOrder

theorem Signature.lawful_order : Signature.order.Lawful :=
  Comparator.lawful_alternatives fun
    | 0 => lawful_arrayOrder 65
    | 1 => lawful_arrayOrder 65
    | 2 => lawful_webauthnSignatureOrder

end Alternatives

section Contents

theorem toLE_injective {x y : Webauthn.UserPresence} (h : toLE 1 x.toNat = toLE 1 y.toNat) :
    x = y := by
  have hof := congrArg (Scalar.ofBytes (.int 1)) h
  rw [← Scalar.toBytes, ← Scalar.toBytes, Scalar.ofBytes_toBytes, Scalar.ofBytes_toBytes] at hof
  exact hof

theorem PublicKey.contents_injective :
    ∀ {i : Fin 3} {a b : PublicKeyType i}, contents ⟨i, a⟩ = contents ⟨i, b⟩ → a = b
  | 0, _, _, h => memory_injective (List.singleton_injective h)
  | 1, _, _, h => memory_injective (List.singleton_injective h)
  | 2, ⟨data, verification, rpid⟩, ⟨data', verification', rpid'⟩, h => by
    obtain ⟨hdata, h⟩ := List.cons.inj h
    obtain ⟨hverification, h⟩ := List.cons.inj h
    cases memory_injective hdata
    cases toLE_injective hverification
    cases List.singleton_injective h
    rfl

theorem Signature.contents_injective :
    ∀ {i : Fin 3} {a b : SignatureType i}, contents ⟨i, a⟩ = contents ⟨i, b⟩ → a = b
  | 0, _, _, h => memory_injective (List.singleton_injective h)
  | 1, _, _, h => memory_injective (List.singleton_injective h)
  | 2, ⟨compact, auth, json⟩, ⟨compact', auth', json'⟩, h => by
    obtain ⟨hcompact, h⟩ := List.cons.inj h
    cases memory_injective hcompact
    cases h
    rfl

-- What is packed of a key without a host is read back only if it is not checked.
def unpackUnchecked : Unpacker Webauthn.PublicKey := do
  let data ← (array 33).unpack 0
  let verification ← unpackInt (n := 1) 0
  let rpid ← unpackBytes []
  return ⟨data, verification, rpid⟩

theorem reads_unchecked (k : Webauthn.PublicKey) : Reads (fun _ => unpackUnchecked) k.pack k :=
  (carries_array k.publicKeyData).reads.bind
    (.bind (reads_int 0 k.userVerificationType) (.map (reads_bytes [] k.rpid) .pure))

theorem PublicKey.packed_injective {bytes : Bytes} : ∀ {i : Fin 3} {a b : PublicKeyType i},
    ((publicKeys.dataType i).pack a).bytes = .ok bytes →
      ((publicKeys.dataType i).pack b).bytes = .ok bytes → a = b
  | 0, a, b => (carries_array a).reads.inj (carries_array b).reads
  | 1, a, b => (carries_array a).reads.inj (carries_array b).reads
  | 2, a, b => (reads_unchecked a).inj (reads_unchecked b)

theorem Signature.packed_injective {bytes : Bytes} : ∀ {i : Fin 3} {a b : SignatureType i},
    ((signatures.dataType i).pack a).bytes = .ok bytes →
      ((signatures.dataType i).pack b).bytes = .ok bytes → a = b
  | 0, a, b => (carries_array a).reads.inj (carries_array b).reads
  | 1, a, b => (carries_array a).reads.inj (carries_array b).reads
  | 2, a, b => (reads_webauthnSignature a).inj (reads_webauthnSignature b)

end Contents

section Order

variable {T : Fin 3 → Type}

-- What the operators of a variant are for. The values of an alternative can be told apart by what
-- they are serialised to, be it the members or, as far as they can be packed, the bytes.
structure Ordered (S : Suite.Suites T) (contents : (Σ i, T i) → List Bytes)
    (c : Comparator (Σ i, T i)) : Prop where
  irrefl      : ∀ a, c.lt a a = false
  trans       : ∀ a b d, c.lt a b = true → c.lt b d = true → c.lt a d = true
  total       : ∀ a b, c.eq a b = false → c.lt a b = true ∨ c.lt b a = true
  exactlyOne  : ∀ a b, c.ExactlyOne a b
  eq_contents : ∀ a b, c.eq a b = true ↔ a.1 = b.1 ∧ contents a = contents b
  eq_packed   : ∀ a b bytes, ((S.dataType a.1).pack a.2).bytes = .ok bytes →
    (c.eq a b = true ↔ a.1 = b.1 ∧ ((S.dataType b.1).pack b.2).bytes = .ok bytes)

theorem ordered_of_lawful {S : Suite.Suites T} {contents : (Σ i, T i) → List Bytes}
    {c : Comparator (Σ i, T i)} (hc : c.Lawful)
    (hcontents : ∀ {i} {a b : T i}, contents ⟨i, a⟩ = contents ⟨i, b⟩ → a = b)
    (hpacked : ∀ {bytes i} {a b : T i}, ((S.dataType i).pack a).bytes = .ok bytes →
      ((S.dataType i).pack b).bytes = .ok bytes → a = b) : Ordered S contents c where
  irrefl          := hc.irrefl
  trans _ _ _     := hc.trans
  total a b h     := hc.total fun he => by
    rw [hc.eq_iff.mpr he] at h
    cases h
  exactlyOne      := hc.exactlyOne
  eq_contents a b := by
    rw [hc.eq_iff]
    constructor
    case mp =>
      rintro rfl
      exact ⟨rfl, rfl⟩
    case mpr =>
      obtain ⟨i, a⟩ := a
      obtain ⟨j, b⟩ := b
      rintro ⟨hi, h⟩
      cases hi
      exact congrArg (Sigma.mk i) (hcontents h)
  eq_packed a b bytes ha := by
    rw [hc.eq_iff]
    constructor
    case mp =>
      rintro rfl
      exact ⟨rfl, ha⟩
    case mpr =>
      obtain ⟨i, a⟩ := a
      obtain ⟨j, b⟩ := b
      rintro ⟨hi, h⟩
      cases hi
      exact congrArg (Sigma.mk i) (hpacked ha h)

end Order

-- Keys and signatures are strictly and totally ordered, and `==` compares what they are serialised
-- to.
theorem keys_ordered :
    Ordered publicKeys PublicKey.contents PublicKey.order ∧
      Ordered signatures Signature.contents Signature.order :=
  ⟨ordered_of_lawful PublicKey.lawful_order PublicKey.contents_injective PublicKey.packed_injective,
    ordered_of_lawful Signature.lawful_order Signature.contents_injective Signature.packed_injective⟩

-- The index is compared first, and a host after the flag of the user's presence.
example : PublicKey.order.lt ⟨0, fun _ => 0xff⟩ ⟨1, fun _ => 0⟩ = true := by decide +kernel

example :
    PublicKey.order.lt ⟨2, (⟨fun _ => 0, .present, ascii "z"⟩ : Webauthn.PublicKey)⟩
      ⟨2, (⟨fun _ => 0, .verified, ascii "a"⟩ : Webauthn.PublicKey)⟩ = true := by decide +kernel

end Keys
