import FcModel.Lib.Sax
import FcModel.Text.Basic

-- `webauthn_json_handler`: what is called for the events of the client data.

namespace Webauthn

open MutableVariantObject

-- The values that are passed to `Null`, `Bool`, `Int`, `Uint`, `Int64`, `Uint64` and `Double`.
inductive BasicValue
  | null
  | bool (b : Bool)
  | int (i : Int32)
  | uint (u : UInt32)
  | int64 (i : Int64)
  | uint64 (u : UInt64)
  | double (bits : UInt64)
deriving DecidableEq, Repr

-- The document is what the parser makes of the text, with the strings as they are decoded.
abbrev Document := Sax.Document BasicValue Bytes

abbrev Event := Sax.Event BasicValue Bytes

inductive ParseStat
  | expectFirstObjectStart
  | expectFirstObjectKey
  | expectFirstObjectDontcareValue
  | expectChallengeValue
  | expectOriginValue
  | expectTypeValue
  | inNestedContainer
deriving DecidableEq, Repr

structure JsonHandler where
  foundChallenge : Bytes := []
  foundOrigin    : Bytes := []
  foundType      : Bytes := []
  currentState   : ParseStat := .expectFirstObjectStart
  currentNestedContainerDepth : UInt32 := 0
deriving DecidableEq, Repr

namespace JsonHandler

-- A callback that returns `false` changes nothing and ends the parsing.
def basicStuff (h : JsonHandler) : Option JsonHandler :=
  match h.currentState with
  | .inNestedContainer              => some h
  | .expectFirstObjectDontcareValue => some { h with currentState := .expectFirstObjectKey }
  | _                               => none

def string (str : Bytes) (h : JsonHandler) : Option JsonHandler :=
  match h.currentState with
  | .expectFirstObjectStart         => none
  | .expectFirstObjectKey           => none
  | .expectChallengeValue           =>
    some { h with foundChallenge := str, currentState := .expectFirstObjectKey }
  | .expectOriginValue              =>
    some { h with foundOrigin := str, currentState := .expectFirstObjectKey }
  | .expectTypeValue                =>
    some { h with foundType := str, currentState := .expectFirstObjectKey }
  | .expectFirstObjectDontcareValue => some { h with currentState := .expectFirstObjectKey }
  | .inNestedContainer              => some h

-- `++current_nested_container_depth`.
def enter (h : JsonHandler) : JsonHandler :=
  { h with currentNestedContainerDepth := h.currentNestedContainerDepth + 1 }

-- `if(!--current_nested_container_depth)`.
def leave (h : JsonHandler) : JsonHandler :=
  let depth := h.currentNestedContainerDepth - 1
  { h with
    currentNestedContainerDepth := depth
    currentState := if depth = 0 then .expectFirstObjectKey else h.currentState }

def startObject (h : JsonHandler) : Option JsonHandler :=
  match h.currentState with
  | .expectFirstObjectStart         => some { h with currentState := .expectFirstObjectKey }
  | .expectFirstObjectDontcareValue => some { h with currentState := .inNestedContainer }.enter
  | .inNestedContainer              => some h.enter
  | _                               => none

-- A `std::string` is compared with a C string.
def key (str : Bytes) (h : JsonHandler) : Option JsonHandler :=
  match h.currentState with
  | .expectFirstObjectKey =>
    if ascii "challenge" = cStr str then some { h with currentState := .expectChallengeValue }
    else if ascii "origin" = cStr str then some { h with currentState := .expectOriginValue }
    else if ascii "type" = cStr str then some { h with currentState := .expectTypeValue }
    else some { h with currentState := .expectFirstObjectDontcareValue }
  | .inNestedContainer => some h
  | _                  => none

def endObject (h : JsonHandler) : Option JsonHandler :=
  match h.currentState with
  | .inNestedContainer    => some h.leave
  | .expectFirstObjectKey => some h
  | _                     => none

def startArray (h : JsonHandler) : Option JsonHandler :=
  match h.currentState with
  | .expectFirstObjectDontcareValue => some { h with currentState := .inNestedContainer }.enter
  | .inNestedContainer              => some h.enter
  | _                               => none

def endArray (h : JsonHandler) : Option JsonHandler :=
  match h.currentState with
  | .inNestedContainer => some h.leave
  | _                  => none

def handle (h : JsonHandler) : Event → Option JsonHandler
  | .basic _     => h.basicStuff
  | .string str  => h.string str
  | .key str     => h.key str
  | .startObject => h.startObject
  | .endObject   => h.endObject
  | .startArray  => h.startArray
  | .endArray    => h.endArray

-- The events are reported until a callback returns `false`.
def run (h : JsonHandler) (es : List Event) : Option JsonHandler :=
  es.foldlM handle h

variable {h h' : JsonHandler} {e : Event} {es es' : List Event}

@[simp]
theorem run_nil : h.run [] = some h :=
  rfl

theorem run_append : h.run (es ++ es') = (h.run es).bind (·.run es') :=
  List.foldlM_append

theorem run_cons : h.run (e :: es) = (h.handle e).bind (·.run es) :=
  rfl

-- All that an event can do.
inductive Step (h : JsonHandler) : Event → JsonHandler → Prop
  | skip {e : Event} : h.currentState = .inNestedContainer → e.weight = 0 → Step h e h
  | enter {e : Event} : h.currentState = .inNestedContainer → e.weight = 1 → Step h e h.enter
  | leave {e : Event} : h.currentState = .inNestedContainer → e.weight = -1 → Step h e h.leave
  | first : h.currentState = .expectFirstObjectStart →
    Step h .startObject { h with currentState := .expectFirstObjectKey }
  | last : h.currentState = .expectFirstObjectKey → Step h .endObject h
  | key {k : Bytes} {s : ParseStat} : h.currentState = .expectFirstObjectKey →
    s ≠ .expectFirstObjectStart →
      s ≠ .expectFirstObjectKey → s ≠ .inNestedContainer →
          Step h (.key k) { h with currentState := s }
  | nested {e : Event} : h.currentState = .expectFirstObjectDontcareValue → e.weight = 1 →
      Step h e { h with currentState := .inNestedContainer }.enter
  | value {e : Event} {c o t : Bytes} : h.currentState ≠ .expectFirstObjectStart →
    h.currentState ≠ .expectFirstObjectKey →
      h.currentState ≠ .inNestedContainer → e.weight = 0 →
      Step h e { h with foundChallenge := c, foundOrigin := o, foundType := t, currentState :=
          .expectFirstObjectKey }

theorem step_of_handle (he : h.handle e = some h') : Step h e h' := by
  cases e
  case basic v =>
    rw [handle, basicStuff] at he
    split at he
    case h_1 hs => cases he; exact .skip hs rfl
    case h_2 hs => cases he; exact .value (by simp [hs]) (by simp [hs]) (by simp [hs]) rfl
    case h_3    => cases he
  case string str =>
    rw [handle, string] at he
    split at he
    case h_1    => cases he
    case h_2    => cases he
    case h_3 hs => cases he; exact .value (by simp [hs]) (by simp [hs]) (by simp [hs]) rfl
    case h_4 hs => cases he; exact .value (by simp [hs]) (by simp [hs]) (by simp [hs]) rfl
    case h_5 hs => cases he; exact .value (by simp [hs]) (by simp [hs]) (by simp [hs]) rfl
    case h_6 hs => cases he; exact .value (by simp [hs]) (by simp [hs]) (by simp [hs]) rfl
    case h_7 hs => cases he; exact .skip hs rfl
  case key str =>
    rw [handle, key] at he
    split at he
    case h_1 hs =>
      split_ifs at he
      all_goals
        cases he
        exact .key hs (by decide) (by decide) (by decide)
    case h_2 hs => cases he; exact .skip hs rfl
    case h_3    => cases he
  case startObject =>
    rw [handle, startObject] at he
    split at he
    case h_1 hs => cases he; exact .first hs
    case h_2 hs => cases he; exact .nested hs rfl
    case h_3 hs => cases he; exact .enter hs rfl
    case h_4    => cases he
  case endObject =>
    rw [handle, endObject] at he
    split at he
    case h_1 hs => cases he; exact .leave hs rfl
    case h_2 hs => cases he; exact .last hs
    case h_3    => cases he
  case startArray =>
    rw [handle, startArray] at he
    split at he
    case h_1 hs => cases he; exact .nested hs rfl
    case h_2 hs => cases he; exact .enter hs rfl
    case h_3    => cases he
  case endArray =>
    rw [handle, endArray] at he
    split at he
    case h_1 hs => cases he; exact .leave hs rfl
    case h_2    => cases he

-- The state of the handler when `n` containers are open.
def Follows (n : Int) (h : JsonHandler) : Prop :=
  match h.currentState with
  | .expectFirstObjectStart => n = 0 ∧ h.currentNestedContainerDepth = 0
  | .expectFirstObjectKey   => (n = 1 ∨ n = 0) ∧ h.currentNestedContainerDepth = 0
  | .inNestedContainer      => 1 < n ∧ h.currentNestedContainerDepth.toNat = n - 1
  | _                       => n = 1 ∧ h.currentNestedContainerDepth = 0

theorem toNat_enter {n : Int} (hd : h.currentNestedContainerDepth.toNat = n - 1) (hn : n < 2 ^ 32) :
    (h.enter.currentNestedContainerDepth.toNat : Int) = n := by
  have h1 : (1 : UInt32).toNat = 1 := rfl
  rw [enter, UInt32.toNat_add, h1]
  omega

theorem toNat_leave {n : Int} (hd : h.currentNestedContainerDepth.toNat = n - 1) (hn : 1 < n) :
    (h.leave.currentNestedContainerDepth.toNat : Int) = n - 2 := by
  have h1 : (1 : UInt32).toNat = 1 := rfl
  have := h.currentNestedContainerDepth.toNat_lt
  rw [leave, UInt32.toNat_sub, h1]
  omega

-- The depth counts all containers but the first one, as long as it does not wrap.
theorem Follows.step {n : Int} (hn : Follows n h) (hstep : Step h e h')
    (hopen : n = 0 → h.currentState = .expectFirstObjectStart)
    (hle : n + e.weight ≤ 2 ^ 32) : Follows (n + e.weight) h' := by
  cases hstep
  case skip hs he => rwa [he, add_zero]
  case enter hs he =>
    simp only [Follows, hs] at hn
    have hd := toNat_enter hn.2 (by omega)
    have hs' : h.enter.currentState = .inNestedContainer := hs
    simp only [Follows, hs', he]
    omega
  case leave hs he =>
    simp only [Follows, hs] at hn
    have hd := toNat_leave hn.2 hn.1
    have hzero : h.leave.currentNestedContainerDepth = 0 ↔ n = 2 := by
      rw [← UInt32.toNat_inj, UInt32.toNat_zero]
      omega
    by_cases h2 : n = 2
    case pos =>
      have hs' : h.leave.currentState = .expectFirstObjectKey := if_pos (hzero.mpr h2)
      simp only [Follows, hs', he]
      exact ⟨by omega, hzero.mpr h2⟩
    case neg =>
      have hs' : h.leave.currentState = .inNestedContainer :=
        (if_neg fun hz => h2 (hzero.mp hz)).trans hs
      simp only [Follows, hs', he]
      omega
  case first hs =>
    simp only [Follows, hs] at hn
    exact ⟨.inl (by rw [hn.1]; rfl), hn.2⟩
  case last hs =>
    simp only [Follows, hs] at hn
    have hn1 : n = 1 := hn.1.resolve_right fun h0 => by
      have := hopen h0
      rw [hs] at this
      cases this
    simp only [Follows, hs]
    exact ⟨.inr (by rw [hn1]; rfl), hn.2⟩
  case key k s hs h₁ h₂ h₃ =>
    simp only [Follows, hs] at hn
    have hn1 : n = 1 := hn.1.resolve_right fun h0 => by
      have := hopen h0
      rw [hs] at this
      cases this
    cases s
    all_goals first | contradiction | exact ⟨by rw [hn1]; rfl, hn.2⟩
  case nested hs he =>
    simp only [Follows, hs] at hn
    refine ⟨by omega, ?_⟩
    rw [he, hn.1]
    simp [enter, hn.2]
  case value h₁ h₂ h₃ he =>
    have hn' : n = 1 ∧ h.currentNestedContainerDepth = 0 := by
      revert hn
      cases hs : h.currentState
      all_goals first | contradiction | (simp only [Follows, hs]; exact id)
    exact ⟨.inl (by rw [he, hn'.1]; rfl), hn'.2⟩

theorem run_concat (hrun : h.run (es ++ [e]) = some h') : ∃ h₁, h.run es = some h₁ ∧
    h₁.handle e = some h' := by
  rw [run_append, Option.bind_eq_some_iff] at hrun
  obtain ⟨h₁, hes, he⟩ := hrun
  rw [run_cons, Option.bind_eq_some_iff] at he
  obtain ⟨h₂, he, hnil⟩ := he
  cases hnil
  exact ⟨h₁, hes, he⟩

theorem Follows.run {d : Document} (hes : es <+: d.events)
    (hle : ∀ p, p <+: es → Sax.level p ≤ 2 ^ 32)
    (hrun : run {} es = some h) : Follows (Sax.level es) h := by
  induction es using List.reverseRecOn generalizing h
  case nil => cases hrun; exact ⟨rfl, rfl⟩
  case append_singleton es e hi =>
    obtain ⟨h₁, hrun₁, he⟩ := run_concat hrun
    have hpre : es <+: es ++ [e] := List.prefix_append ..
    have hfollows := hi (hpre.trans hes) (fun p hp => hle p (hp.trans hpre)) hrun₁
    have hopen : Sax.level es = 0 → h₁.currentState = .expectFirstObjectStart := by
      intro h0
      have hnil : es = [] := by
        by_contra hne
        have := Sax.Document.level_pos hes hne
        omega
      subst hnil
      cases hrun₁
      rfl
    have hlevel : Sax.level (es ++ [e]) = Sax.level es + e.weight := by simp
    have hbound := hle _ List.prefix_rfl
    rw [hlevel] at hbound ⊢
    exact hfollows.step (step_of_handle he) hopen hbound

theorem Follows.nested_iff {n : Int} (hn : Follows n h) :
    (h.currentState = .inNestedContainer ↔ 0 < h.currentNestedContainerDepth) ∧
      (h.currentNestedContainerDepth.toNat : Int) = max (n - 1) 0 := by
  rw [UInt32.lt_iff_toNat_lt, UInt32.toNat_zero]
  cases hs : h.currentState
  case inNestedContainer =>
    simp only [Follows, hs] at hn
    refine ⟨iff_of_true rfl ?_, ?_⟩
    all_goals omega
  all_goals
    simp only [Follows, hs] at hn
    rw [hn.2, UInt32.toNat_zero]
    exact ⟨by simp, by omega⟩

-- The three things that can happen in a nested container.
theorem Step.nested_cases (hstep : Step h e h') (hs : h.currentState = .inNestedContainer) :
    (e.weight = 0 ∧ h' = h) ∨ (e.weight = 1 ∧ h' = h.enter) ∨ (e.weight = -1 ∧ h' = h.leave) := by
  cases hstep
  case skip hw        => exact .inl ⟨hw, rfl⟩
  case enter hw       => exact .inr (.inl ⟨hw, rfl⟩)
  case leave hw       => exact .inr (.inr ⟨hw, rfl⟩)
  case first hs'      => rw [hs] at hs'; cases hs'
  case last hs'       => rw [hs] at hs'; cases hs'
  case key hs' _ _ _  => rw [hs] at hs'; cases hs'
  case nested hs' _   => rw [hs] at hs'; cases hs'
  case value hs' _    => exact absurd hs hs'

-- While fewer than `2 ^ 32` containers are open below the top-level object, the handler is in a
-- nested container exactly if its depth is not zero, which is the number of these containers.
-- Events in there change nothing else.
theorem nested_invariant {d : Document} (hes : es <+: d.events)
    (hle : ∀ p, p <+: es → Sax.level p ≤ 2 ^ 32) (hrun : run {} es = some h) :
    (h.currentState = .inNestedContainer ↔ 0 < h.currentNestedContainerDepth) ∧
      (h.currentNestedContainerDepth.toNat : Int) = max (Sax.level es - 1) 0 ∧
      ∀ e h', es ++ [e] <+: d.events → 1 < Sax.level es → h.handle e = some h' →
        h'.foundChallenge = h.foundChallenge ∧ h'.foundOrigin = h.foundOrigin ∧
        h'.foundType = h.foundType ∧
        (e.weight = -1 → h'.currentNestedContainerDepth.toNat + 1 =
            h.currentNestedContainerDepth.toNat) ∧
        (Sax.level (es ++ [e]) = 1 → h'.currentState = .expectFirstObjectKey) := by
  have hfollows := Follows.run hes hle hrun
  obtain ⟨hiff, hdepth⟩ := hfollows.nested_iff
  refine ⟨hiff, hdepth, fun e h' hpre hlevel he => ?_⟩
  have hs : h.currentState = .inNestedContainer := by
    rw [hiff, UInt32.lt_iff_toNat_lt, UInt32.toNat_zero]
    omega
  have hsum : Sax.level (es ++ [e]) = Sax.level es + e.weight := by simp
  rw [hsum]
  obtain ⟨hw, rfl⟩ | ⟨hw, rfl⟩ | ⟨hw, rfl⟩ := (step_of_handle he).nested_cases hs
  · refine ⟨rfl, rfl, rfl, fun hw' => ?_, fun h1 => ?_⟩
    all_goals omega
  · refine ⟨rfl, rfl, rfl, fun hw' => ?_, fun h1 => ?_⟩
    all_goals omega
  · have hd := toNat_leave (h := h) (n := Sax.level es) (by omega) hlevel
    refine ⟨rfl, rfl, rfl, fun _ => by omega, fun h1 => if_pos ?_⟩
    refine UInt32.toNat_inj.mp ?_
    change h.leave.currentNestedContainerDepth.toNat = 0
    omega

-- A nested object has a member that is named like one of the client data.
theorem nested_invariant_type :
    let d :
    Document := .object [(ascii "a", .object [(ascii "type", .string (ascii "x"))]),
        (ascii "type", .basic .null)]
    let es : List Event := [.startObject, .key (ascii "a"), .startObject, .key (ascii "type")]
    es <+: d.events ∧ ∃ h h' : JsonHandler, run {} es = some h ∧
        h.currentNestedContainerDepth.toNat = 1 ∧
      h.handle (.string (ascii "x")) = some h' ∧ h'.foundType = h.foundType := by
  intro d es
  have hpre : es ++ [.string (ascii "x")] <+: d.events := ⟨_, rfl⟩
  have hes : es <+: d.events := (List.prefix_append ..).trans hpre
  have hle : ∀ p, p <+: es → Sax.level p ≤ 2 ^ 32 := fun p hp =>
    ((d.events_balanced.bounds p (hp.trans hes)).2).trans (by decide)
  have hinv := nested_invariant hes hle rfl
  exact ⟨hes, _, _, rfl, rfl, rfl, (hinv.2.2 (.string (ascii "x")) _ hpre (by decide) rfl).2.2.1⟩

section Wrap

-- Arrays that are nested `n + 1` times.
def arrays : Nat → Document
  | 0     => .array []
  | n + 1 => .array [arrays n]

theorem replicate_prefix_arrays (n : Nat) :
    List.replicate (n + 1) .startArray <+: (arrays n).events := by
  induction n
  case zero => exact ⟨_, rfl⟩
  case succ n hi =>
    obtain ⟨t, ht⟩ := hi
    refine ⟨t ++ [.endArray], ?_⟩
    rw [arrays, Sax.Document.events, Sax.Document.elementEvents, Sax.Document.elementEvents, ← ht,
      List.replicate_succ]
    simp

theorem run_replicate (hs : h.currentState = .inNestedContainer) (n : Nat) :
    h.run (List.replicate n .startArray) =
      some { h with currentNestedContainerDepth := h.currentNestedContainerDepth + .ofNat n } := by
  induction n generalizing h
  case zero => simp
  case succ n hi =>
    have hstep : h.handle .startArray = some h.enter := by simp [handle, startArray, hs]
    have hs' : h.enter.currentState = .inNestedContainer := hs
    rw [List.replicate_succ, run_cons, hstep, Option.bind_some, hi hs', enter, UInt32.ofNat_add,
      UInt32.add_assoc,
      UInt32.add_comm 1]
    rfl

theorem prefix_object (n : Nat) :
    [.startObject, .key (ascii "a")] ++ List.replicate (n + 1) .startArray <+:
    (.object [(ascii "a", arrays n)] : Document).events := by
  obtain ⟨t, ht⟩ := replicate_prefix_arrays n
  refine ⟨t ++ [.endObject], ?_⟩
  rw [Sax.Document.events, Sax.Document.memberEvents, Sax.Document.memberEvents, ← ht]
  simp

theorem run_object (n : Nat) :
    run {} ([.startObject, .key (ascii "a")] ++ List.replicate (n + 1) .startArray) =
    some { currentState := .inNestedContainer, currentNestedContainerDepth := .ofNat (n + 1) } := by
  have hstart : run {} [.startObject, .key (ascii "a"), .startArray] =
      some { currentState := .inNestedContainer, currentNestedContainerDepth := 1 } := by decide
  have hsplit : [.startObject, .key (ascii "a")] ++ List.replicate (n + 1) .startArray =
      ([.startObject, .key (ascii "a"), .startArray] : List Event) ++
        List.replicate n .startArray := by
    simp [List.replicate_succ]
  rw [hsplit, run_append, hstart, Option.bind_some, run_replicate rfl, UInt32.ofNat_add,
    UInt32.add_comm]
  rfl

end Wrap

-- The depth is zero again when `2 ^ 32` containers are open below the top-level object.
theorem depth_wraps :
    let d : Document := .object [(ascii "a", arrays (2 ^ 32 - 1))]
    let es : List Event := [.startObject, .key (ascii "a")] ++ List.replicate (2 ^ 32) .startArray
    es <+: d.events ∧ ∃ h : JsonHandler, run {} es = some h ∧ h.currentState = .inNestedContainer ∧
      h.currentNestedContainerDepth = 0 := by
  have hn : 2 ^ 32 - 1 + 1 = 2 ^ 32 := by norm_num
  have hpre := prefix_object (2 ^ 32 - 1)
  have hrun := run_object (2 ^ 32 - 1)
  rw [hn] at hpre hrun
  exact ⟨hpre, _, hrun, rfl, by decide⟩

end JsonHandler

end Webauthn
