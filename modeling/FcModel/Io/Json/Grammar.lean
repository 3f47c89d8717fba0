import FcModel.Io.Json.Stream
import FcModel.Utf8.Encode

-- JSON texts and what they denote, after RFC 8259.

namespace Json

open Ascii

-- `[ e / E ] [ minus / plus ] 1*DIGIT`
structure Exponent where
  letter  : UInt8
  sign    : Option UInt8
  digits  : Bytes
  isE     : letter = 'e'.toUInt8 ∨ letter = 'E'.toUInt8
  isSign  : ∀ c, sign = some c → c = plus ∨ c = minus
  numeral : Decimal.Numeral digits

def Exponent.text (e : Exponent) : Bytes :=
  [e.letter] ++ e.sign.toList ++ e.digits

def Exponent.value (e : Exponent) : Int :=
  if e.sign = some minus then -Decimal.value e.digits else Decimal.value e.digits

-- `[ minus ] int [ frac ] [ exp ]`
structure Number where
  neg           : Bool
  int           : Bytes
  frac          : Option Bytes
  exp           : Option Exponent
  numeral       : Decimal.Numeral int
  noLeadingZero : int.head? = some zero → int = [zero]
  fracNumeral   : ∀ ds, frac = some ds → Decimal.Numeral ds

namespace Number

def fracText (n : Number) : Bytes :=
  n.frac.elim [] fun ds => dot :: ds

def expText (n : Number) : Bytes :=
  n.exp.elim [] Exponent.text

-- The text without the sign.
def unsigned (n : Number) : Bytes :=
  n.int ++ n.fracText ++ n.expText

def text (n : Number) : Bytes :=
  (if n.neg then [minus] else []) ++ n.unsigned

def value (n : Number) : ℚ :=
  let frac : ℚ := n.frac.elim 0 fun ds => Decimal.value ds / 10 ^ ds.length
  (if n.neg then -1 else 1) * (Decimal.value n.int + frac) * 10 ^ n.exp.elim 0 Exponent.value

-- There is no fraction and no exponent.
def IsInteger (n : Number) : Prop :=
  n.frac = none ∧ n.exp = none

def intValue (n : Number) : Int :=
  if n.neg then -Decimal.value n.int else Decimal.value n.int

theorem value_eq_intValue {n : Number} (h : n.IsInteger) : n.value = n.intValue := by
  simp only [value, intValue, h.1, h.2, Option.elim_none, zpow_zero, mul_one, add_zero]
  cases n.neg
  case true   => simp
  case false  => simp

theorem text_eq {n : Number} (h : n.IsInteger) :
    n.text = (if n.neg then [minus] else []) ++ n.int := by
  simp [text, unsigned, fracText, expText, h.1, h.2]

def ofInt (i : Int) : Number where
  neg           := i < 0
  int           := Decimal.ofNat i.natAbs
  frac          := none
  exp           := none
  numeral       := Decimal.numeral_ofNat _
  noLeadingZero := Decimal.head_ofNat
  fracNumeral   := nofun

theorem isInteger_ofInt (i : Int) : (ofInt i).IsInteger :=
  ⟨rfl, rfl⟩

theorem text_ofInt (i : Int) : (ofInt i).text = Decimal.ofInt i := by
  rw [text_eq (isInteger_ofInt i), Decimal.ofInt, ofInt]
  simp only [decide_eq_true_eq]
  split
  case isTrue   => rfl
  case isFalse  => rfl

theorem intValue_ofInt (i : Int) : (ofInt i).intValue = i := by
  simp only [intValue, ofInt, decide_eq_true_eq, Decimal.value_ofNat]
  omega

end Number

-- What a text denotes. The members of an object are kept in the order of the text, whether or not
-- there are several of one name. A number is kept as it is written.
inductive Value
  | null
  | bool (b : Bool)
  | number (n : Number)
  | string (cs : List Char)
  | array (vs : List Value)
  | object (ms : List (List Char × Value))

def Ws (w : Bytes) : Prop :=
  ∀ c ∈ w, isSpace c

-- Elements that are separated by commas, with white space around them.
inductive Elements {α : Type} (R : Bytes → α → Prop) : Bytes → List α → Prop
  | nil {w : Bytes} (hw : Ws w) : Elements R w []
  | one {w s w' : Bytes} {a : α} (hw : Ws w) (h : R s a) (hw' : Ws w') :
    Elements R (w ++ s ++ w') [a]
  | cons {w s w' t : Bytes} {a b : α} {as : List α} (hw : Ws w) (h : R s a) (hw' : Ws w')
      (ht : Elements R t (b :: as)) : Elements R (w ++ s ++ w' ++ [comma] ++ t) (a :: b :: as)

-- A member of an object, of which `K` is the name and `R` the value.
inductive Member {κ α : Type} (K : Bytes → κ → Prop) (R : Bytes → α → Prop) : Bytes → κ × α → Prop
  | intro {k w w' s : Bytes} {key : κ} {a : α} (hk : K k key) (hw : Ws w) (hw' : Ws w')
  (h : R s a) :
      Member K R (k ++ w ++ [colon] ++ w' ++ s) (key, a)

-- The ways to write a character of a string, and the numbers that may be written.
structure Dialect where
  char   : Bytes → Char → Prop
  number : Number → Prop

inductive Chars (char : Bytes → Char → Prop) : Bytes → List Char → Prop
  | nil : Chars char [] []
  | cons {b bs : Bytes} {c : Char} {cs : List Char} (h : char b c) (hs : Chars char bs cs) :
      Chars char (b ++ bs) (c :: cs)

inductive Quoted (char : Bytes → Char → Prop) : Bytes → List Char → Prop
  | intro {s : Bytes} {cs : List Char} (h : Chars char s cs) :
  Quoted char ([quote] ++ s ++ [quote]) cs

-- The value is written as the text.
inductive Spells (d : Dialect) : Bytes → Value → Prop
  | null : Spells d (ascii "null") .null
  | bool (b : Bool) : Spells d (ascii (if b then "true" else "false")) (.bool b)
  | number {n : Number} (h : d.number n) : Spells d n.text (.number n)
  | string {s : Bytes} {cs : List Char} (h : Quoted d.char s cs) : Spells d s (.string cs)
  | array {s : Bytes} {vs : List Value} (h : Elements (Spells d) s vs) :
      Spells d ([openBracket] ++ s ++ [closeBracket]) (.array vs)
  | object {s : Bytes} {ms : List (List Char × Value)}
    (h : Elements (Member (Quoted d.char) (Spells d)) s ms) :
      Spells d ([openBrace] ++ s ++ [closeBrace]) (.object ms)

-- `JSON-text = ws value ws`
def IsText (d : Dialect) (s : Bytes) (v : Value) : Prop :=
  ∃ w t w', s = w ++ t ++ w' ∧ Ws w ∧ Spells d t v ∧ Ws w'

section Induction

variable {α β κ : Type}

theorem Elements.imp_mem {R Q : Bytes → α → Prop} {s : Bytes} {as : List α} (h : Elements R s as)
    (hR : ∀ s, ∀ a ∈ as, R s a → Q s a) : Elements Q s as := by
  induction h
  case nil hw       => exact .nil hw
  case one hw h hw' => exact .one hw (hR _ _ (List.mem_cons_self ..) h) hw'
  case cons hw h hw' _ hi =>
    exact .cons hw (hR _ _ (List.mem_cons_self ..) h) hw'
      (hi fun s a ha => hR s a (List.mem_cons_of_mem _ ha))

theorem Elements.imp {R R' : Bytes → α → Prop} (hR : ∀ s a, R s a → R' s a) {s : Bytes}
    {as : List α}
    (h : Elements R s as) : Elements R' s as :=
  h.imp_mem fun s a _ => hR s a

theorem Elements.forall_mem {P : α → Prop} {s : Bytes} {as : List α}
    (h : Elements (fun _ a => P a) s as) :
    ∀ a ∈ as, P a := by
  induction h
  case nil          => exact List.forall_mem_nil _
  case one h _      => exact List.forall_mem_singleton.mpr h
  case cons h _ _ hi => exact List.forall_mem_cons.mpr ⟨h, hi⟩

theorem Member.imp {K : Bytes → κ → Prop} {R R' : Bytes → α → Prop} (hR : ∀ s a, R s a → R' s a)
    {s : Bytes}
    {m : κ × α} (h : Member K R s m) : Member K R' s m := by
  have .intro hk hw hw' h := h
  exact .intro hk hw hw' (hR _ _ h)

@[elab_as_elim]
theorem Spells.induct {d : Dialect} {motive : (s : Bytes) → (v : Value) → Spells d s v → Prop}
    (null : motive (ascii "null") .null .null) (bool : ∀ b, motive _ (.bool b) (.bool b))
    (number : ∀ n (h : d.number n), motive n.text (.number n) (.number h))
    (string : ∀ s cs (h : Quoted d.char s cs), motive s (.string cs) (.string h))
    (array : ∀ s vs (h : Elements (Spells d) s vs), Elements (fun s v => ∃ h, motive s v h) s vs →
      motive _ (.array vs) (.array h))
    (object : ∀ s ms (h : Elements (Member (Quoted d.char) (Spells d)) s ms),
      Elements (Member (Quoted d.char) fun s v => ∃ h, motive s v h) s ms →
      motive _ (.object ms) (.object h))
    {s : Bytes} {v : Value} (h : Spells d s v) : motive s v h :=
  @Spells.rec d motive (fun s vs _ => Elements (fun s v => ∃ h, motive s v h) s vs)
    (fun s ms _ => Elements (Member (Quoted d.char) fun s v => ∃ h, motive s v h) s ms)
    (fun s m _ => Member (Quoted d.char) (fun s v => ∃ h, motive s v h) s m)
    null bool (fun h => number _ h) (fun h => string _ _ h) (fun h hi => array _ _ h hi)
      (fun h hi => object _ _ h hi)
    (fun hw => .nil hw) (fun hw h hw' hi => .one hw ⟨h, hi⟩ hw')
      (fun hw h hw' _ hi ht => .cons hw ⟨h, hi⟩ hw' ht)
    (fun hw => .nil hw) (fun hw _ hw' hi => .one hw hi hw')
      (fun hw _ hw' _ hi ht => .cons hw hi hw' ht)
    (fun hk hw hw' h hi => .intro hk hw hw' ⟨h, hi⟩) s v h

end Induction

end Json
