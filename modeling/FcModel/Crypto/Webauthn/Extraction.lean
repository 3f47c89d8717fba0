import FcModel.Crypto.Webauthn.Handler

-- What the handler finds in a document.

namespace Webauthn

open MutableVariantObject

-- The members of the client data that are looked for.
inductive Field
  | challenge
  | origin
  | type
deriving DecidableEq, Repr

namespace Field

def name : Field → Bytes
  | challenge => ascii "challenge"
  | origin    => ascii "origin"
  | type      => ascii "type"

theorem name_injective {f g : Field} (h : f.name = g.name) : f = g := by
  cases f <;> cases g <;> first | rfl | (revert h; decide)

def ofName (k : Bytes) : Option Field :=
  [challenge, origin, type].find? fun f => k = f.name

theorem ofName_eq_some {k : Bytes} {f : Field} : ofName k = some f ↔ k = f.name := by
  constructor
  case mp =>
    intro h
    have hk := List.find?_some h
    exact of_decide_eq_true hk
  case mpr =>
    intro h
    subst h
    cases f <;> decide

theorem ofName_eq_none {k : Bytes} : ofName k = none ↔ ∀ f : Field, k ≠ f.name := by
  rw [Option.eq_none_iff_forall_ne_some]
  exact forall_congr' fun f => not_congr ofName_eq_some

end Field

abbrev Member := Bytes × Document

-- The value of the last member whose key satisfies `p`.
def lastMember (p : Bytes → Bool) : List Member → Option Document
  | []      => none
  | m :: ms => (lastMember p ms).or (if p m.1 then some m.2 else none)

theorem mem_of_lastMember {p : Bytes → Bool} {ms : List Member} {d : Document}
    (h : lastMember p ms = some d) :
    ∃ k, (k, d) ∈ ms ∧ p k = true := by
  induction ms
  case nil => cases h
  case cons m ms hi =>
    rw [lastMember, Option.or_eq_some_iff] at h
    cases h
    case inl h =>
      obtain ⟨k, hk, hp⟩ := hi h
      exact ⟨k, List.mem_cons_of_mem _ hk, hp⟩
    case inr h =>
      obtain ⟨hp, hd⟩ := Option.ite_none_right_eq_some.mp h.2
      exact ⟨m.1, Option.some.inj hd ▸ List.mem_cons_self .., hp⟩

-- The bytes of the string that a member is, if there is one.
def stringValue (dflt : Bytes) : Option Document → Bytes
  | some (.string s) => s
  | _                => dflt

@[simp]
theorem stringValue_none (dflt : Bytes) : stringValue dflt none = dflt :=
  rfl

@[simp]
theorem stringValue_string (dflt s : Bytes) : stringValue dflt (some (.string s)) = s :=
  rfl

-- The members that the handler takes for the ones it looks for are strings.
def Strings (ms : List Member) : Prop :=
  ∀ m ∈ ms, ∀ f : Field, cStr m.1 = f.name → ∃ s, m.2 = .string s

namespace JsonHandler

variable {h h' : JsonHandler} {ms : List Member}

def found (h : JsonHandler) : Field → Bytes
  | .challenge => h.foundChallenge
  | .origin    => h.foundOrigin
  | .type      => h.foundType

def setFound (h : JsonHandler) (str : Bytes) : Field → JsonHandler
  | .challenge => { h with foundChallenge := str }
  | .origin    => { h with foundOrigin := str }
  | .type      => { h with foundType := str }

theorem found_setFound (str : Bytes) (f g : Field) :
    (h.setFound str f).found g = if g = f then str else h.found g := by
  cases f <;> cases g <;> rfl

-- The state in which the value of a member is expected.
def expectValue : Field → ParseStat
  | .challenge => .expectChallengeValue
  | .origin    => .expectOriginValue
  | .type      => .expectTypeValue

-- Whether the handler is in the top-level object, between its members.
structure AtKey (h : JsonHandler) : Prop where
  state : h.currentState = .expectFirstObjectKey
  depth : h.currentNestedContainerDepth = 0

theorem AtKey.setFound (hk : h.AtKey) (str : Bytes) (f : Field) : (h.setFound str f).AtKey := by
  cases f <;> exact ⟨hk.state, hk.depth⟩

theorem key_field (hk : h.AtKey) {k : Bytes} {f : Field} (hf : cStr k = f.name) :
    h.handle (.key k) = some { h with currentState := expectValue f } := by
  cases f <;> simp [handle, key, hk.state, hf, Field.name, expectValue, ascii]

theorem key_other (hk : h.AtKey) {k : Bytes} (hf : ∀ f : Field, cStr k ≠ f.name) :
    h.handle (.key k) = some { h with currentState := .expectFirstObjectDontcareValue } := by
  have h₁ : ascii "challenge" ≠ cStr k := (hf .challenge).symm
  have h₂ : ascii "origin" ≠ cStr k := (hf .origin).symm
  have h₃ : ascii "type" ≠ cStr k := (hf .type).symm
  rw [handle, key, hk.state]
  simp only [if_neg h₁, if_neg h₂, if_neg h₃]

section Nested

-- The handler is in `m` nested containers.
structure Nested (m : Nat) (h : JsonHandler) : Prop where
  state : h.currentState = .inNestedContainer
  depth : h.currentNestedContainerDepth = .ofNat m

variable {m : Nat}

theorem Nested.enter (hn : h.Nested m) : h.enter.Nested (m + 1) where
  state := hn.state
  depth := by rw [JsonHandler.enter, hn.depth, UInt32.ofNat_add]; rfl

theorem Nested.leave (hn : h.Nested m) (hm : 1 ≤ m) (hle : m + 1 ≤ 2 ^ 32) : h.enter.leave = h := by
  have hdepth : h.currentNestedContainerDepth + 1 - 1 = h.currentNestedContainerDepth :=
    UInt32.add_sub_cancel _ _
  have hne : h.currentNestedContainerDepth ≠ 0 := by
    rw [hn.depth, ne_eq, ← UInt32.toNat_inj, UInt32.toNat_ofNat', UInt32.toNat_zero]
    omega
  simp only [JsonHandler.leave, JsonHandler.enter, hdepth, if_neg hne]

-- What a container leaves as it was when its contents do.
theorem run_container {es : List Event} {s e : Event} (hn : h.Nested m) (hm : 1 ≤ m)
    (hle : m + 1 ≤ 2 ^ 32)
    (hs : h.handle s = some h.enter) (hes : h.enter.run es = some h.enter)
    (he : h.enter.handle e = some h.enter.leave) :
    h.run (s :: (es ++ [e])) = some h := by
  rw [run_cons, hs, Option.bind_some, run_append, hes, Option.bind_some, run_cons, he,
    Option.bind_some, run_nil,
    hn.leave hm hle]

theorem run_elements {es : List Document}
    (hall : ∀ d ∈ es, ∀ {h : JsonHandler}, h.Nested m → m + d.nesting ≤ 2 ^ 32 →
      h.run d.events = some h) (hn : h.Nested m) (hle :
      m + Sax.Document.elementNesting es ≤ 2 ^ 32) :
    h.run (Sax.Document.elementEvents es) = some h := by
  induction es
  case nil => rw [Sax.Document.elementEvents, run_nil]
  case cons d es hi =>
    obtain ⟨hd, hes⟩ := List.forall_mem_cons.mp hall
    rw [Sax.Document.elementNesting] at hle
    rw [Sax.Document.elementEvents, run_append, hd hn (by omega), Option.bind_some]
    exact hi hes (by omega)

theorem run_members {ms : List Member}
    (hall : ∀ d ∈ ms, ∀ {h : JsonHandler}, h.Nested m → m + d.2.nesting ≤ 2 ^ 32 →
      h.run d.2.events = some h) (hn : h.Nested m) (hle :
      m + Sax.Document.memberNesting ms ≤ 2 ^ 32) :
    h.run (Sax.Document.memberEvents ms) = some h := by
  induction ms
  case nil => rw [Sax.Document.memberEvents, run_nil]
  case cons d ms hi =>
    obtain ⟨k, d⟩ := d
    obtain ⟨hd, hms⟩ := List.forall_mem_cons.mp hall
    have hkey : h.handle (.key k) = some h := by simp [handle, key, hn.state]
    rw [Sax.Document.memberNesting] at hle
    have hd := hd hn (show m + d.nesting ≤ 2 ^ 32 by omega)
    rw [Sax.Document.memberEvents, run_cons, hkey, Option.bind_some, run_append, hd,
      Option.bind_some]
    exact hi hms (by omega)

-- A value in a nested container leaves the handler as it was.
theorem run_nested (d : Document) (hm : 1 ≤ m) (hn : h.Nested m) (hle : m + d.nesting ≤ 2 ^ 32) :
    h.run d.events = some h := by
  induction d using Sax.Document.induct generalizing h m
  case basic v  => simp [Sax.Document.events, run_cons, handle, basicStuff, hn.state]
  case string v => simp [Sax.Document.events, run_cons, handle, string, hn.state]
  case array es hi =>
    rw [Sax.Document.nesting] at hle
    have hes : h.enter.run (Sax.Document.elementEvents es) = some h.enter :=
      run_elements (fun d hd h hn hle => hi d hd (by omega) hn hle) hn.enter (by omega)
    rw [Sax.Document.events]
    exact run_container hn hm (by omega) (by simp [handle, startArray, hn.state]) hes
      (by simp [handle, endArray, hn.enter.state])
  case object ms hi =>
    rw [Sax.Document.nesting] at hle
    have hms : h.enter.run (Sax.Document.memberEvents ms) = some h.enter :=
      run_members (fun d hd h hn hle => hi d hd (by omega) hn hle) hn.enter (by omega)
    rw [Sax.Document.events]
    exact run_container hn hm (by omega) (by simp [handle, startObject, hn.state]) hms
      (by simp [handle, endObject, hn.enter.state])

end Nested

-- A member whose value is not looked at.
theorem run_dontcare (d : Document) (hs : h.currentState = .expectFirstObjectDontcareValue)
    (hd : h.currentNestedContainerDepth = 0) (hle : d.nesting ≤ 2 ^ 32) :
    h.run d.events = some { h with currentState := .expectFirstObjectKey } := by
  have hn : { h with currentState := .inNestedContainer }.enter.Nested 1 :=
    ⟨rfl, by simp only [enter, hd]; rfl⟩
  have hleave : { h with currentState := .inNestedContainer }.enter.leave =
      { h with currentState := .expectFirstObjectKey } := by
    simp [enter, leave, hd]
  cases d
  case basic v  => simp [Sax.Document.events, run_cons, handle, basicStuff, hs]
  case string v => simp [Sax.Document.events, run_cons, handle, string, hs]
  case array es =>
    rw [Sax.Document.nesting] at hle
    have hes := run_elements (fun d _ h hn hle => run_nested d le_rfl hn hle) hn hle
    simp [Sax.Document.events, run_cons, run_append, handle, startArray, hs, hes, endArray,
      hn.state, hleave]
  case object ms =>
    rw [Sax.Document.nesting] at hle
    have hms := run_members (fun d _ h hn hle => run_nested d.2 le_rfl hn hle) hn hle
    simp [Sax.Document.events, run_cons, run_append, handle, startObject, hs, hms, endObject,
      hn.state, hleave]

-- What a member of the top-level object does.
def member (h : JsonHandler) (m : Member) : Option JsonHandler :=
  match Field.ofName (cStr m.1), m.2 with
  | some f, .string s => some (h.setFound s f)
  | some _, _         => none
  | none, _           => some h

theorem run_field (hk : h.AtKey) {f : Field} {k : Bytes} (d : Document)
    (hf : Field.ofName (cStr k) = some f) :
    run { h with currentState := expectValue f } d.events = h.member (k, d) := by
  cases d
  case basic v   =>
    cases f <;> simp [member, hf, Sax.Document.events, run_cons, handle, basicStuff, expectValue]
  case array es  =>
    cases f <;> simp [member, hf, Sax.Document.events, run_cons, handle, startArray, expectValue]
  case object ms =>
    cases f <;> simp [member, hf, Sax.Document.events, run_cons, handle, startObject, expectValue]
  case string s  =>
    cases f <;> simp [member, hf, Sax.Document.events, run_cons, handle, string, expectValue,
      setFound, hk.state]

theorem run_member (hk : h.AtKey) (k : Bytes) (d : Document) (hle : d.nesting ≤ 2 ^ 32) :
    h.run (.key k :: d.events) = h.member (k, d) := by
  rw [run_cons]
  cases hf : Field.ofName (cStr k)
  case none =>
    have hkey := key_other hk (Field.ofName_eq_none.mp hf)
    have hmember : h.member (k, d) = some h := by simp [member, hf]
    have hsame : { h with currentState := .expectFirstObjectKey } = h := by rw [← hk.state]
    have hrun : run { h with currentState := .expectFirstObjectDontcareValue } d.events =
        some { h with currentState := .expectFirstObjectKey } := run_dontcare d rfl hk.depth hle
    rw [hkey, Option.bind_some, hrun, hmember, hsame]
  case some f =>
    rw [key_field hk (Field.ofName_eq_some.mp hf), Option.bind_some, run_field hk d hf]

theorem AtKey.member (hk : h.AtKey) {m : Member} (hm : h.member m = some h') : h'.AtKey := by
  rw [JsonHandler.member] at hm
  split at hm
  case h_1 f s _ _ => cases hm; exact hk.setFound s f
  case h_2         => cases hm
  case h_3         => cases hm; exact hk

theorem run_memberEvents (hk : h.AtKey) (hle : Sax.Document.memberNesting ms ≤ 2 ^ 32) :
    h.run (Sax.Document.memberEvents ms) = ms.foldlM member h := by
  induction ms generalizing h
  case nil => rfl
  case cons m ms hi =>
    obtain ⟨k, d⟩ := m
    rw [Sax.Document.memberNesting] at hle
    have hevents : Sax.Document.memberEvents ((k, d) :: ms) =
        (.key k :: d.events) ++ Sax.Document.memberEvents ms := by
      rw [Sax.Document.memberEvents, List.cons_append]
    rw [hevents, run_append, run_member hk k d (by omega), List.foldlM_cons]
    cases hm : h.member (k, d)
    case none    => rfl
    case some h₁ => exact hi (hk.member hm) (by omega)

-- The state after the start of the top-level object.
def started : JsonHandler :=
  { currentState := .expectFirstObjectKey }

theorem foldlM_atKey (hk : h.AtKey) (hms : ms.foldlM member h = some h') : h'.AtKey := by
  induction ms generalizing h
  case nil => cases hms; exact hk
  case cons m ms hi =>
    rw [List.foldlM_cons, Option.bind_eq_bind, Option.bind_eq_some_iff] at hms
    obtain ⟨h₁, hm, hms⟩ := hms
    exact hi (hk.member hm) hms

theorem run_document (hle : Sax.Document.memberNesting ms ≤ 2 ^ 32) :
    run {} (Sax.Document.object ms : Document).events = ms.foldlM member started := by
  have hk : started.AtKey := ⟨rfl, rfl⟩
  have hstart : handle {} .startObject = some started := rfl
  rw [Sax.Document.events, run_cons, hstart, Option.bind_some, run_append, run_memberEvents hk hle]
  cases hms : ms.foldlM member started
  case none    => rfl
  case some h' => simp [run_cons, handle, endObject, (foldlM_atKey hk hms).state]

theorem run_other {d : Document} (hd : ∀ ms, d ≠ .object ms) : run {} d.events = none := by
  cases d
  case basic v   => rfl
  case string s  => rfl
  case array es  => rfl
  case object ms => exact absurd rfl (hd ms)

theorem member_some {m : Member} (hm : h.member m = some h') :
    (∀ f : Field, cStr m.1 = f.name → ∃ s, m.2 = .string s) ∧
      ∀ f : Field,
      h'.found f = stringValue (h.found f) (if cStr m.1 = f.name then some m.2 else none) := by
  rw [member] at hm
  split at hm
  case h_1 g s hg hs =>
    cases hm
    rw [Field.ofName_eq_some] at hg
    refine ⟨fun _ _ => ⟨s, hs⟩, fun f => ?_⟩
    rw [found_setFound, hg, hs]
    by_cases hf : f = g
    case pos => rw [if_pos hf, if_pos (hf ▸ rfl), stringValue_string]
    case neg => rw [if_neg hf, if_neg fun hn => hf (Field.name_injective hn).symm, stringValue_none]
  case h_2 => cases hm
  case h_3 hnone =>
    cases hm
    rw [Field.ofName_eq_none] at hnone
    exact ⟨fun f hf => absurd hf (hnone f), fun f => by rw [if_neg (hnone f), stringValue_none]⟩

theorem member_of_string {m : Member} (hm : ∀ f : Field, cStr m.1 = f.name → ∃ s, m.2 = .string s) :
    ∃ h', h.member m = some h' := by
  rw [member]
  cases hf : Field.ofName (cStr m.1)
  case none   => exact ⟨h, rfl⟩
  case some f =>
    obtain ⟨s, hs⟩ := hm f (Field.ofName_eq_some.mp hf)
    rw [hs]
    exact ⟨_, rfl⟩

theorem foldlM_some (hms : ms.foldlM member h = some h') :
    Strings ms ∧ ∀ f : Field,
    h'.found f = stringValue (h.found f) (lastMember (fun k => cStr k = f.name) ms) := by
  induction ms generalizing h
  case nil =>
    cases hms
    exact ⟨fun _ hm => (by cases hm), fun f => rfl⟩
  case cons m ms hi =>
    rw [List.foldlM_cons, Option.bind_eq_bind, Option.bind_eq_some_iff] at hms
    obtain ⟨h₁, hm, hms⟩ := hms
    obtain ⟨hstring, hvalue⟩ := member_some hm
    obtain ⟨hstrings, hvalues⟩ := hi hms
    refine ⟨List.forall_mem_cons.mpr ⟨hstring, hstrings⟩, fun f => ?_⟩
    rw [hvalues f, lastMember]
    cases hlast : lastMember (fun k => cStr k = f.name) ms
    case none =>
      rw [Option.none_or, stringValue_none, hvalue f]
      simp only [decide_eq_true_eq]
    case some d =>
      obtain ⟨k, hk, hp⟩ := mem_of_lastMember hlast
      obtain ⟨s, hs⟩ := hstrings _ hk f (of_decide_eq_true hp)
      rw [Option.some_or, show d = .string s from hs, stringValue_string, stringValue_string]

theorem foldlM_of_strings (hms : Strings ms) : ∃ h', ms.foldlM member h = some h' := by
  induction ms generalizing h
  case nil => exact ⟨h, rfl⟩
  case cons m ms hi =>
    obtain ⟨hm, hms⟩ := List.forall_mem_cons.mp hms
    obtain ⟨h₁, hm⟩ := @member_of_string h _ hm
    rw [List.foldlM_cons, hm]
    exact hi hms

end JsonHandler

-- The string is the value of the member, or empty if there is none.
def IsValue (s : Bytes) : Option Document → Prop
  | some d => d = .string s
  | none   => s = []

-- A document that is accepted is an object, and what is found are the strings of the last members
-- with the names; one in which a member with such a name is not a string is rejected.
def Extracts (d : Document) : Prop :=
  (∀ h : JsonHandler, JsonHandler.run {} d.events = some h →
    ∃ ms, d = .object ms ∧ ∀ f : Field, IsValue (h.found f) (lastMember (fun k => k = f.name) ms)) ∧
  ∀ ms, d = .object ms → (∃ f : Field, ∃ m ∈ ms, m.1 = f.name ∧ ∀ s, m.2 ≠ .string s) →
    JsonHandler.run {} d.events = none

-- The keys that are the names up to a NUL do not matter: if all members with such keys are strings,
-- the last one of them has the value of the last one whose key is the name.
def NamesAgree (d : Document) : Prop :=
  ∀ ms, d = .object ms → Strings ms → ∀ f : Field,
    stringValue [] (lastMember (fun k => cStr k = f.name) ms) =
      stringValue [] (lastMember (fun k => k = f.name) ms)

theorem cStr_name (f : Field) : cStr f.name = f.name := by
  cases f <;> decide

theorem isValue_iff {ms : List Member} (hms : Strings ms) (f : Field) (s : Bytes) :
    IsValue s (lastMember (fun k => k = f.name) ms) ↔
    s = stringValue [] (lastMember (fun k => k = f.name) ms) := by
  cases hlast : lastMember (fun k => k = f.name) ms
  case none => exact .rfl
  case some d =>
    obtain ⟨k, hk, hp⟩ := mem_of_lastMember hlast
    have hname : cStr k = f.name := by rw [of_decide_eq_true hp, cStr_name]
    obtain ⟨t, ht⟩ := hms _ hk f hname
    rw [IsValue, show d = .string t from ht, stringValue_string]
    exact ⟨fun h => (Sax.Document.string.inj h).symm, fun h => h ▸ rfl⟩

open JsonHandler in
-- The handler compares keys as C strings.
theorem extracts_iff {d : Document} (hd : d.nesting ≤ 2 ^ 32 + 1) : Extracts d ↔ NamesAgree d := by
  by_cases hobj : ∃ ms, d = .object ms
  case neg =>
    have hother : ∀ ms, d ≠ .object ms := fun ms h => hobj ⟨ms, h⟩
    refine iff_of_true ⟨fun h hrun => ?_, fun ms h => absurd h (hother ms)⟩ fun ms h =>
      absurd h (hother ms)
    rw [run_other hother] at hrun
    cases hrun
  case pos =>
    obtain ⟨ms, rfl⟩ := hobj
    rw [Sax.Document.nesting] at hd
    have hrun := @run_document ms (by omega)
    constructor
    case mp =>
      rintro ⟨hfound, -⟩ ms' hms' hstrings f
      cases hms'
      obtain ⟨h, hh⟩ := @foldlM_of_strings started _ hstrings
      obtain ⟨ms', hms', hvalue⟩ := hfound h (hrun.trans hh)
      cases hms'
      have hexact := (isValue_iff hstrings f _).mp (hvalue f)
      rw [← hexact, (foldlM_some hh).2 f]
      cases f <;> rfl
    case mpr =>
      intro hagree
      refine ⟨fun h hh => ⟨ms, rfl, fun f => ?_⟩, fun ms' hms' hnot => ?_⟩
      · rw [hrun] at hh
        obtain ⟨hstrings, hvalue⟩ := foldlM_some hh
        rw [isValue_iff hstrings, ← hagree ms rfl hstrings f, hvalue f]
        cases f <;> rfl
      · cases hms'
        obtain ⟨f, m, hm, hname, hs⟩ := hnot
        rw [hrun, Option.eq_none_iff_forall_ne_some]
        intro h hh
        obtain ⟨s, hs'⟩ := (foldlM_some hh).1 m hm f (by rw [hname, cStr_name])
        exact hs s hs'

-- A nested object has a member with one of the names, and the names come twice.
theorem extracts_iff_nested :
    Extracts (.object [(ascii "origin", .string (ascii "a")),
        (ascii "x", .object [(ascii "origin", .basic .null)]),
      (ascii "origin", .string (ascii "b"))]) := by
  refine (extracts_iff (by decide)).mpr fun ms hms _ f => ?_
  cases hms
  cases f <;> rfl

-- The key of the second member is `origin`, a NUL and `x`.
theorem not_extracts_nul :
    ¬Extracts (.object [(ascii "origin", .string (ascii "https://a")),
      (ascii "origin" ++ [0] ++ ascii "x", .string (ascii "https://b"))]) := by
  rintro ⟨hfound, -⟩
  obtain ⟨ms, hms, hvalue⟩ := hfound _ rfl
  cases hms
  have horigin : Sax.Document.string (ascii "https://a") =
    Sax.Document.string (ascii "https://b") := hvalue .origin
  exact absurd (Sax.Document.string.inj horigin) (by decide)

end Webauthn
