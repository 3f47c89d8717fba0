import FcModel.Io.Json.Generator

-- The conversions of a variant, and `operator==`.

namespace Variant

inductive CastError
  | badCast
  | parseError
deriving DecidableEq, Repr

-- The arithmetic of `double`, whose values are given by their bits.
structure Doubles where
  ofInt64  : Int64 → UInt64
  ofUint64 : UInt64 → UInt64
  ofBool   : Bool → UInt64
  toInt64  : UInt64 → Int64
  toUint64 : UInt64 → UInt64
  zero     : UInt64
  eq       : UInt64 → UInt64 → Bool

section Conversions

variable (L : LexicalCast) (D : Doubles)

-- A string that is not a number is a parse error.
def parsed {α : Type} : Option α → Except CastError α
  | some a => .ok a
  | none   => .error .parseError

def asInt64 : Variant → Except CastError Int64
  | string s => parsed (L.toInt64 s)
  | double d => .ok (D.toInt64 d)
  | int64 v  => .ok v
  | uint64 v => .ok v.toInt64
  | bool b   => .ok (if b then 1 else 0)
  | null     => .ok 0
  | _        => .error .badCast

def asUint64 : Variant → Except CastError UInt64
  | string s => parsed (L.toUint64 s)
  | double d => .ok (D.toUint64 d)
  | int64 v  => .ok v.toUInt64
  | uint64 v => .ok v
  | bool b   => .ok (if b then 1 else 0)
  | null     => .ok 0
  | _        => .error .badCast

def asDouble : Variant → Except CastError UInt64
  | string s => parsed (L.toDouble s)
  | double d => .ok d
  | int64 v  => .ok (D.ofInt64 v)
  | uint64 v => .ok (D.ofUint64 v)
  | bool b   => .ok (D.ofBool b)
  | null     => .ok D.zero
  | _        => .error .badCast

def asString : Variant → Except CastError Bytes
  | string s  => .ok s
  | double d  => .ok (L.ofDouble d)
  | int64 v   => .ok (L.ofInt64 v)
  | uint64 v  => .ok (L.ofUint64 v)
  | bool b    => .ok (Json.boolToString b)
  | blob data => .ok (Json.blobToString data)
  | null      => .ok []
  | _         => .error .badCast

def getArray : Variant → Except CastError (List Variant)
  | array vs => .ok vs
  | _        => .error .badCast

end Conversions

section Equality

variable (L : LexicalCast) (D : Doubles)

def isString : Variant → Bool
  | string _ => true
  | _        => false

def isDouble : Variant → Bool
  | double _ => true
  | _        => false

def isInt64 : Variant → Bool
  | int64 _ => true
  | _       => false

def isUint64 : Variant → Bool
  | uint64 _ => true
  | _        => false

def isArray : Variant → Bool
  | array _ => true
  | _       => false

-- The branches of `operator==` that do not compare two arrays.
def eqConverted (a b : Variant) : Except CastError Bool :=
  if a.isString ∨ b.isString then return (← a.asString L) = (← b.asString L)
  else if a.isDouble ∨ b.isDouble then return D.eq (← a.asDouble L D) (← b.asDouble L D)
  else if a.isInt64 ∨ b.isInt64 then return (← a.asInt64 L D) = (← b.asInt64 L D)
  else if a.isUint64 ∨ b.isUint64 then return (← a.asUint64 L D) = (← b.asUint64 L D)
  else if a.isArray ∨ b.isArray then do
    let _ ← a.getArray
    let _ ← b.getArray
    return false
  else return false

mutual

-- Two arrays come to the branch in which vectors are compared: first their sizes, then their
-- elements up to the first difference.
def eq : Variant → Variant → Except CastError Bool
  | array vs, array ws => if vs.length = ws.length then eqElements vs ws else return false
  | a, b               => eqConverted L D a b

def eqElements : List Variant → List Variant → Except CastError Bool
  | v :: vs, w :: ws => do
    if ← eq v w then eqElements vs ws else return false
  | _, _             => return true

end

end Equality

-- No double is in the variant.
inductive NoDouble : Variant → Prop
  | null : NoDouble .null
  | int64 (v : Int64) : NoDouble (.int64 v)
  | uint64 (v : UInt64) : NoDouble (.uint64 v)
  | bool (b : Bool) : NoDouble (.bool b)
  | string (s : Bytes) : NoDouble (.string s)
  | array {vs : List Variant} (h : ∀ v ∈ vs, NoDouble v) : NoDouble (.array vs)
  | object {es : List (Bytes × Variant)} (h : ∀ e ∈ es, NoDouble e.2) : NoDouble (.object es)
  | blob (data : Bytes) : NoDouble (.blob data)

-- The integer that a variant denotes.
def integer : Variant → Option Int
  | int64 v  => some v.toInt
  | uint64 v => some v.toNat
  | _        => none

section Domain

variable (L : LexicalCast) (D : Doubles)

-- The comparisons that are made for `a == b`: of `a` and `b`, and of the elements of two arrays of
-- the same size as long as those before them are equal.
inductive Compares : Variant → Variant → Variant → Variant → Prop
  | refl (a b : Variant) : Compares a b a b
  | element {vs vs' ws ws' : List Variant} {v w x y : Variant} (hl : vs.length = ws.length)
      (heq : eqElements L D vs ws = .ok true) (h : Compares v w x y) (hl' : vs'.length = ws'.length) :
      Compares (.array (vs ++ v :: vs')) (.array (ws ++ w :: ws')) x y

-- What an equality should be, on a set of variants.
structure EquivalenceOn (S : Set Variant) : Prop where
  total   : ∀ a ∈ S, ∀ b ∈ S, ∀ x y, Compares L D a b x y → ∃ r, eq L D x y = .ok r
  numbers : ∀ a ∈ S, ∀ b ∈ S, ∀ x y, Compares L D a b x y → ∀ m n, x.integer = some m → y.integer = some n →
    (eq L D x y = .ok true ↔ m = n)
  refl    : ∀ a ∈ S, eq L D a a = .ok true
  symm    : ∀ a ∈ S, ∀ b ∈ S, eq L D a b = .ok true → eq L D b a = .ok true
  trans   : ∀ a ∈ S, ∀ b ∈ S, ∀ c ∈ S, eq L D a b = .ok true → eq L D b c = .ok true → eq L D a c = .ok true

end Domain

-- Built from integers and strings.
inductive Comparable : Variant → Prop
  | int64 (v : Int64) : Comparable (.int64 v)
  | uint64 (v : UInt64) : Comparable (.uint64 v)
  | string (s : Bytes) : Comparable (.string s)
  | array {vs : List Variant} (h : ∀ v ∈ vs, Comparable v) : Comparable (.array vs)

-- A text, or a list of keys.
inductive Key
  | text (s : Bytes)
  | list (ks : List Key)

mutual

-- The texts that a variant is made of.
def key : Variant → Key
  | int64 v   => .text (Decimal.ofInt v.toInt)
  | uint64 v  => .text (Decimal.ofInt v.toNat)
  | string s  => .text s
  | array vs  => .list (keys vs)
  | _         => .text []

def keys : List Variant → List Key
  | []      => []
  | v :: vs => key v :: keys vs

end

mutual

-- Arrays are compared with arrays only, and a negative integer is not compared with the one that it
-- would wrap to. What follows the first difference of two arrays does not matter.
def Fits : Variant → Variant → Prop
  | array vs, array ws  => vs.length = ws.length → FitsElements vs ws
  | array _, _          => False
  | _, array _          => False
  | int64 v, uint64 w   => v.toInt + 2 ^ 64 ≠ w.toNat
  | uint64 v, int64 w   => w.toInt + 2 ^ 64 ≠ v.toNat
  | _, _                => True

def FitsElements : List Variant → List Variant → Prop
  | v :: vs, w :: ws => Fits v w ∧ (key v = key w → FitsElements vs ws)
  | _, _             => True

end

section Integers

theorem ofInt_injective {m n : Int} (h : Decimal.ofInt m = Decimal.ofInt n) : m = n := by
  have hminus (k : Nat) (ds : Bytes) : Decimal.ofNat k ≠ Ascii.minus :: ds := by
    intro he
    have hd := (Decimal.numeral_ofNat k).digits Ascii.minus (by rw [he]; exact List.mem_cons_self ..)
    exact absurd hd (by decide)
  have hnat {k l : Nat} (he : Decimal.ofNat k = Decimal.ofNat l) : k = l := by
    rw [← Decimal.value_ofNat k, he, Decimal.value_ofNat]
  rw [Decimal.ofInt, Decimal.ofInt] at h
  split at h <;> split at h
  case isTrue.isTrue =>
    have := hnat (List.cons.inj h).2
    omega
  case isTrue.isFalse => exact absurd h.symm (hminus _ _)
  case isFalse.isTrue => exact absurd h (hminus _ _)
  case isFalse.isFalse =>
    have := hnat h
    omega

-- An unsigned integer is cast modulo `2 ^ 64`.
theorem eq_toInt64_iff (v : Int64) (w : UInt64) : v = w.toInt64 ↔ v.toInt = w.toNat ∨
    v.toInt + 2 ^ 64 = w.toNat := by
  have hw := w.toNat_lt
  have hl := v.le_toInt
  have hu := v.toInt_lt
  have hcast : w.toInt64.toInt = if 2 * w.toNat < 2 ^ 64 then (w.toNat : Int) else w.toNat - 2 ^ 64 :=
    BitVec.toInt_eq_toNat_cond w.toBitVec
  rw [← Int64.toInt_inj, hcast]
  split <;> omega

end Integers

section Equivalence

variable {L : LexicalCast} {D : Doubles} {a b x y v w : Variant} {vs ws : List Variant}

theorem eqElements_cons : eqElements L D (v :: vs) (w :: ws) =
    eq L D v w >>= fun r => if r then eqElements L D vs ws else pure false := by
  rw [eqElements]

theorem eqElements_nil : eqElements L D [] [] = .ok true := by
  rw [eqElements]
  · rfl
  · exact fun _ _ _ _ h => by cases h

theorem eqElements_cons_eq_true : eqElements L D (v :: vs) (w :: ws) = .ok true ↔
    eq L D v w = .ok true ∧ eqElements L D vs ws = .ok true := by
  rw [eqElements_cons]
  cases eq L D v w
  case error e => exact iff_of_false (fun h => by cases h) (fun h => by cases h.1)
  case ok r =>
    cases r
    case false => exact iff_of_false (fun h => by cases h) (fun h => by cases h.1)
    case true  => exact ⟨fun h => ⟨rfl, h⟩, fun h => h.2⟩

theorem eq_array : eq L D (.array vs) (.array ws) =
    if vs.length = ws.length then eqElements L D vs ws else .ok false := by
  rw [eq]
  rfl

theorem eq_converted (h : a.isArray = false ∨ b.isArray = false) :
    eq L D a b = eqConverted L D a b := by
  rw [eq]
  rintro vs ws rfl rfl
  rcases h with h | h <;> cases h

-- The two are scalars that are compared as integers or as texts.
def Agrees (L : LexicalCast) (D : Doubles) (a b : Variant) : Prop :=
  ∃ r, eq L D a b = .ok r ∧ (r = true ↔ key a = key b)

theorem agrees_of_text {s t : Bytes} (h : eq L D a b = .ok (decide (s = t))) (ha : key a = .text s)
    (hb : key b = .text t) :
    Agrees L D a b :=
  ⟨_, h, by rw [decide_eq_true_eq, ha, hb, Key.text.injEq]⟩

theorem agrees_of_integer {m n : Int} {p : Prop} [Decidable p] (h : eq L D a b = .ok (decide p))
    (hp : p ↔ m = n)
    (ha : key a = .text (Decimal.ofInt m)) (hb : key b = .text (Decimal.ofInt n)) :
    Agrees L D a b := by
  refine ⟨_, h, ?_⟩
  rw [decide_eq_true_eq, hp, ha, hb, Key.text.injEq]
  exact ⟨fun h => by rw [h], ofInt_injective⟩

theorem ofUint64_eq (hL : L.Exact) (v : UInt64) : L.ofUint64 v = Decimal.ofInt v.toNat := by
  rw [hL.ofUint64, Decimal.ofInt, if_neg (by omega), Int.natAbs_natCast]

theorem agrees_elements (h : ∀ v ∈ vs, ∀ w, Comparable w → Fits v w → Agrees L D v w)
    (hws : ∀ w ∈ ws, Comparable w)
    (hl : vs.length = ws.length) (hf : FitsElements vs ws) :
    ∃ r, eqElements L D vs ws = .ok r ∧ (r = true ↔ keys vs = keys ws) := by
  induction vs generalizing ws
  case nil =>
    cases ws
    case nil  => exact ⟨true, eqElements_nil, by simp⟩
    case cons => cases hl
  case cons v vs hi =>
    cases ws
    case nil       => cases hl
    case cons w ws =>
      obtain ⟨hv, hvs⟩ := List.forall_mem_cons.mp h
      obtain ⟨hw, hws⟩ := List.forall_mem_cons.mp hws
      rw [FitsElements] at hf
      obtain ⟨r, hr, hkey⟩ := hv w hw hf.1
      rw [eqElements_cons, hr, keys, keys, List.cons.injEq, ← hkey]
      cases r
      case false => exact ⟨false, rfl, by simp⟩
      case true =>
        obtain ⟨r, hr, hkeys⟩ := hi hvs hws (Nat.succ.inj hl) (hf.2 (hkey.mp rfl))
        exact ⟨r, hr, by simp [hkeys]⟩

theorem length_eq_of_keys (h : keys vs = keys ws) : vs.length = ws.length := by
  induction vs generalizing ws
  case nil =>
    cases ws
    case nil  => rfl
    case cons => rw [keys, keys] at h; cases h
  case cons v vs hi =>
    cases ws
    case nil       => rw [keys, keys] at h; cases h
    case cons w ws =>
      rw [keys, keys, List.cons.injEq] at h
      rw [List.length_cons, List.length_cons, hi h.2]

-- What fits is equal if the texts are.
theorem agrees_of_fits (hL : L.Exact) (ha : Comparable a) (hb : Comparable b) (hf : Fits a b) :
    Agrees L D a b := by
  induction ha generalizing b
  case int64 v =>
    cases hb
    case int64 w => exact agrees_of_integer (eq_converted (.inl rfl)) Int64.toInt_inj.symm (by rw [key]) (by rw [key])
    case uint64 w =>
      rw [Fits] at hf
      exact agrees_of_integer (eq_converted (.inl rfl)) ((eq_toInt64_iff v w).trans (or_iff_left hf)) (by rw [key]) (by rw [key])
    case string t =>
      exact agrees_of_text (eq_converted (.inl rfl)) (by rw [key, hL.ofInt64]) (by rw [key])
    case array ws h => exact hf.elim
  case uint64 v =>
    cases hb
    case int64 w =>
      rw [Fits] at hf
      refine agrees_of_integer (eq_converted (.inl rfl)) ?_ (by rw [key]) (by rw [key])
      rw [eq_comm, eq_toInt64_iff w v, or_iff_left hf, eq_comm]
    case uint64 w =>
      refine agrees_of_integer (eq_converted (.inl rfl)) ?_ (by rw [key]) (by rw [key])
      rw [Int.natCast_inj, UInt64.toNat_inj]
    case string t =>
      exact agrees_of_text (eq_converted (.inl rfl)) (by rw [key, ofUint64_eq hL]) (by rw [key])
    case array ws h => exact hf.elim
  case string s =>
    cases hb
    case int64 w => exact agrees_of_text (eq_converted (.inl rfl)) (by rw [key]) (by rw [key, hL.ofInt64])
    case uint64 w => exact agrees_of_text (eq_converted (.inl rfl)) (by rw [key]) (by rw [key, ofUint64_eq hL])
    case string t => exact agrees_of_text (eq_converted (.inl rfl)) (by rw [key]) (by rw [key])
    case array ws h => exact hf.elim
  case array vs hvs hi =>
    cases hb
    case array ws hws =>
      rw [Fits] at hf
      rw [Agrees, eq_array, key, key, Key.list.injEq]
      by_cases hl : vs.length = ws.length
      case pos =>
        rw [if_pos hl]
        exact agrees_elements (fun v hv w hw hf => hi v hv hw hf) hws hl (hf hl)
      case neg =>
        rw [if_neg hl]
        exact ⟨false, rfl, iff_of_false Bool.false_ne_true fun h => hl (length_eq_of_keys h)⟩
    all_goals exact hf.elim

theorem comparable_of_eq (hn : NoDouble a) (h : eq L D a a = .ok true) : Comparable a := by
  induction hn
  case int64 v     => exact .int64 v
  case uint64 v    => exact .uint64 v
  case string s    => exact .string s
  case array vs hvs hi =>
    rw [eq_array, if_pos rfl] at h
    refine .array fun v hv => hi v hv ?_
    clear hi hvs
    induction vs
    case nil => cases hv
    case cons w vs ih =>
      obtain ⟨hw, hvs⟩ := eqElements_cons_eq_true.mp h
      cases hv
      case head    => exact hw
      case tail hv => exact ih hvs hv
  all_goals
    rw [eq_converted (.inl rfl)] at h
    cases h

theorem eqElements_append (hl : vs.length = ws.length) (h : eqElements L D vs ws = .ok true)
    (hvw : eq L D v w = .ok true) : eqElements L D (vs ++ [v]) (ws ++ [w]) = .ok true := by
  induction vs generalizing ws
  case nil =>
    cases ws
    case nil  => exact eqElements_cons_eq_true.mpr ⟨hvw, eqElements_nil⟩
    case cons => cases hl
  case cons v' vs hi =>
    cases ws
    case nil        => cases hl
    case cons w' ws =>
      obtain ⟨hv, hvs⟩ := eqElements_cons_eq_true.mp h
      exact eqElements_cons_eq_true.mpr ⟨hv, hi (Nat.succ.inj hl) hvs⟩

-- A comparison is as it should be: it does not throw, and it is exact on integers.
def Sound (L : LexicalCast) (D : Doubles) (x y : Variant) : Prop :=
  (∃ r, eq L D x y = .ok r) ∧ ∀ m n, x.integer = some m → y.integer = some n → (eq L D x y = .ok true ↔ m = n)

-- The comparisons of elements are made when those before them are equal.
theorem fitsElements_of_compares
    (hi : ∀ v ∈ vs, ∀ w, Comparable w → (∀ x y, Compares L D v w x y → Sound L D x y) →
      Fits v w ∧ Agrees L D v w) (hws : ∀ w ∈ ws, Comparable w) (hl :
      vs.length = ws.length) {ps qs : List Variant}
    (hpq : ps.length = qs.length) (heq : eqElements L D ps qs = .ok true)
    (h : ∀ x y, Compares L D (.array (ps ++ vs)) (.array (qs ++ ws)) x y → Sound L D x y) :
    FitsElements vs ws := by
  induction vs generalizing ws ps qs
  case nil =>
    cases ws
    case nil  => exact trivial
    case cons => cases hl
  case cons v vs ih =>
    cases ws
    case nil       => cases hl
    case cons w ws =>
      obtain ⟨hv, hvs⟩ := List.forall_mem_cons.mp hi
      obtain ⟨hw, hws⟩ := List.forall_mem_cons.mp hws
      obtain ⟨hfits, r, hr, hkey⟩ := hv w hw fun x y hxy => h x y (.element hpq heq hxy (Nat.succ.inj hl))
      rw [FitsElements]
      refine ⟨hfits, fun hk => ?_⟩
      rw [hkey.mpr hk] at hr
      refine @ih ws hvs hws (Nat.succ.inj hl) (ps ++ [v]) (qs ++ [w]) (by simp [hpq]) (eqElements_append hpq heq hr) ?_
      simpa using h

theorem fits_of_compares (hL : L.Exact) (ha : Comparable a) (hb : Comparable b)
    (h : ∀ x y, Compares L D a b x y → Sound L D x y) : Fits a b := by
  have hthrows {a b : Variant} (h : Sound L D a b) (he : eqConverted L D a b = .error .badCast)
      (hab : a.isArray = false ∨ b.isArray = false) : False := by
    obtain ⟨⟨r, hr⟩, -⟩ := h
    rw [eq_converted hab, he] at hr
    cases hr
  induction ha generalizing b
  case int64 v =>
    cases hb
    case uint64 w =>
      rw [Fits]
      intro he
      have heq : eq L D (.int64 v) (.uint64 w) = .ok true :=
        (eq_converted (.inl rfl)).trans (congrArg Except.ok (decide_eq_true ((eq_toInt64_iff v w).mpr (.inr he))))
      have := ((h _ _ (.refl ..)).2 _ _ rfl rfl).mp heq
      omega
    case array ws _ => exact hthrows (h _ _ (.refl ..)) rfl (.inl rfl)
    all_goals exact trivial
  case uint64 v =>
    cases hb
    case int64 w =>
      rw [Fits]
      intro he
      have heq : eq L D (.uint64 v) (.int64 w) = .ok true :=
        (eq_converted (.inl rfl)).trans (congrArg Except.ok (decide_eq_true ((eq_toInt64_iff w v).mpr (.inr he)).symm))
      have := ((h _ _ (.refl ..)).2 _ _ rfl rfl).mp heq
      omega
    case array ws _ => exact hthrows (h _ _ (.refl ..)) rfl (.inl rfl)
    all_goals exact trivial
  case string s =>
    cases hb
    case array ws _ => exact hthrows (h _ _ (.refl ..)) rfl (.inl rfl)
    all_goals exact trivial
  case array vs hvs hi =>
    cases hb
    case array ws hws =>
      rw [Fits]
      intro hl
      refine fitsElements_of_compares (fun v hv w hw hvw => ?_) hws hl rfl eqElements_nil h
      have hfits := hi v hv hw hvw
      exact ⟨hfits, agrees_of_fits hL (hvs v hv) hw hfits⟩
    all_goals exact hthrows (h _ _ (.refl ..)) rfl (.inr rfl)

theorem fits_of_fitsElements (hL : L.Exact) (hvs : ∀ v ∈ vs, Comparable v)
    (hws : ∀ w ∈ ws, Comparable w)
    (hl : vs.length = ws.length) (heq : eqElements L D vs ws = .ok true) {vs' ws' : List Variant}
    (hf : FitsElements (vs ++ v :: vs') (ws ++ w :: ws')) : Fits v w := by
  induction vs generalizing ws
  case nil =>
    cases ws
    case nil  => exact (show Fits v w ∧ (key v = key w → FitsElements vs' ws') by rwa [List.nil_append, List.nil_append, FitsElements] at hf).1
    case cons => cases hl
  case cons v' vs hi =>
    cases ws
    case nil        => cases hl
    case cons w' ws =>
      obtain ⟨hv, hvs⟩ := List.forall_mem_cons.mp hvs
      obtain ⟨hw, hws⟩ := List.forall_mem_cons.mp hws
      obtain ⟨heq, heqs⟩ := eqElements_cons_eq_true.mp heq
      rw [List.cons_append, List.cons_append, FitsElements] at hf
      obtain ⟨r, hr, hkey⟩ := agrees_of_fits hL hv hw hf.1
      rw [heq] at hr
      cases hr
      exact hi hvs hws (Nat.succ.inj hl) heqs (hf.2 (hkey.mp rfl))

-- What is compared for two variants that fit does fit.
theorem Fits.compares (hL : L.Exact) (hxy : Compares L D a b x y) (ha : Comparable a)
    (hb : Comparable b)
    (hf : Fits a b) : Comparable x ∧ Comparable y ∧ Fits x y := by
  induction hxy
  case refl => exact ⟨ha, hb, hf⟩
  case element vs vs' ws ws' v w x y hl heq h hl' hi =>
    cases ha
    case array hvs =>
      cases hb
      case array hws =>
        obtain ⟨hvs, hv⟩ := List.forall_mem_append.mp hvs
        obtain ⟨hws, hw⟩ := List.forall_mem_append.mp hws
        rw [Fits] at hf
        have hf := fits_of_fitsElements hL hvs hws hl heq (hf (by simp [hl, hl']))
        exact hi (List.forall_mem_cons.mp hv).1 (List.forall_mem_cons.mp hw).1 hf

theorem key_integer {m : Int} (h : x.integer = some m) : key x = .text (Decimal.ofInt m) := by
  cases x
  case int64 v  => cases h; rw [key]
  case uint64 v => cases h; rw [key]
  all_goals cases h

theorem sound_of_fits (hL : L.Exact) (hx : Comparable x) (hy : Comparable y) (hf : Fits x y) :
    Sound L D x y := by
  obtain ⟨r, hr, hkey⟩ := agrees_of_fits hL hx hy hf
  refine ⟨⟨r, hr⟩, fun m n hm hn => ?_⟩
  rw [hr, Except.ok.injEq, hkey, key_integer hm, key_integer hn, Key.text.injEq]
  exact ⟨ofInt_injective, fun h => by rw [h]⟩

-- On which variants the operator is an equivalence that is exact on integers.
theorem equivalenceOn_iff (hL : L.Exact) {S : Set Variant} (hS : ∀ a ∈ S, NoDouble a) :
    EquivalenceOn L D S ↔ ∀ a ∈ S, Comparable a ∧ ∀ b ∈ S, Fits a b := by
  constructor
  case mp =>
    intro h a ha
    have hcomparable : ∀ a ∈ S, Comparable a := fun a ha => comparable_of_eq (hS a ha) (h.refl a ha)
    refine ⟨hcomparable a ha, fun b hb => ?_⟩
    refine @fits_of_compares L D a b hL (hcomparable a ha) (hcomparable b hb) fun x y hxy => ?_
    exact ⟨h.total a ha b hb x y hxy, h.numbers a ha b hb x y hxy⟩
  case mpr =>
    intro h
    have hkey : ∀ a ∈ S, ∀ b ∈ S, (eq L D a b = .ok true ↔ key a = key b) := by
      intro a ha b hb
      obtain ⟨r, hr, hiff⟩ := @agrees_of_fits L D a b hL (h a ha).1 (h b hb).1 ((h a ha).2 b hb)
      rw [hr, ← hiff, Except.ok.injEq]
    have hsound : ∀ a ∈ S, ∀ b ∈ S, ∀ x y, Compares L D a b x y → Sound L D x y := by
      intro a ha b hb x y hxy
      obtain ⟨hx, hy, hf⟩ := Fits.compares hL hxy (h a ha).1 (h b hb).1 ((h a ha).2 b hb)
      exact sound_of_fits hL hx hy hf
    refine ⟨fun a ha b hb x y hxy => (hsound a ha b hb x y hxy).1, fun a ha b hb x y hxy => (hsound a ha b hb x y hxy).2,
      ?_, ?_, ?_⟩
    · exact fun a ha => (hkey a ha a ha).mpr rfl
    · exact fun a ha b hb hab => (hkey b hb a ha).mpr ((hkey a ha b hb).mp hab).symm
    · exact fun a ha b hb c hc hab hbc => (hkey a ha c hc).mpr (((hkey a ha b hb).mp hab).trans ((hkey b hb c hc).mp hbc))

-- No operation on doubles is needed where there are none.
def Doubles.unused : Doubles where
  ofInt64 _  := 0
  ofUint64 _ := 0
  ofBool _   := 0
  toInt64 _  := 0
  toUint64 _ := 0
  zero       := 0
  eq _ _     := false

-- An array, and one that is equal to it.
theorem equivalenceOn_arrays : EquivalenceOn .decimal .unused
    {.array [.int64 (-1), .uint64 1], .array [.string (ascii "-1"), .int64 1]} := by
  refine (equivalenceOn_iff LexicalCast.decimal_exact ?_).mpr ?_
  · rintro a (rfl | rfl)
    · exact .array (List.forall_mem_cons.mpr ⟨.int64 _, List.forall_mem_singleton.mpr (.uint64 _)⟩)
    · exact .array (List.forall_mem_cons.mpr ⟨.string _, List.forall_mem_singleton.mpr (.int64 _)⟩)
  · rintro a (rfl | rfl)
    · refine ⟨.array (List.forall_mem_cons.mpr ⟨.int64 _, List.forall_mem_singleton.mpr (.uint64 _)⟩), ?_⟩
      rintro b (rfl | rfl)
      all_goals simp [Fits, FitsElements]
    · refine ⟨.array (List.forall_mem_cons.mpr ⟨.string _, List.forall_mem_singleton.mpr (.int64 _)⟩), ?_⟩
      rintro b (rfl | rfl)
      all_goals simp [Fits, FitsElements]

-- `true` is not equal to itself.
theorem not_equivalenceOn : ¬EquivalenceOn .decimal .unused {a | NoDouble a} := by
  intro h
  have heq := h.refl (.bool true) (.bool true)
  cases heq

end Equivalence

end Variant
