import FcModel.Log.Logger

-- What the loggers are after a configuration.

namespace Log

open Ascii

theorem update_cases {map : Bytes → Option Nat} {n m : Bytes} {i j : Nat}
    (h : Function.update map n (some i) m = some j) : m = n ∧ j = i ∨ m ≠ n ∧ map m = some j := by
  by_cases hm : m = n
  case pos =>
    rw [hm, Function.update_self] at h
    exact .inl ⟨hm, (Option.some.inj h).symm⟩
  case neg =>
    rw [Function.update_of_ne hm] at h
    exact .inr ⟨hm, h⟩

namespace State

variable {ν : Type} {s₀ s : State ν} {n m : Bytes} {i : Nat}

theorem loggerAt_of_some (h : s.loggerMap n = some i) : s.loggerAt n = (i, s) := by
  rw [loggerAt, h]

theorem loggerAt_of_none (h : s.loggerMap n = none) :
    s.loggerAt n = (s.nextLogger, { s with
      loggers    := Function.update s.loggers s.nextLogger {}
      nextLogger := s.nextLogger + 1
      loggerMap  := Function.update s.loggerMap n (some s.nextLogger) }) := by
  rw [loggerAt, h]
  rfl

theorem loggerMap_loggerAt_self (s : State ν) (n : Bytes) :
    (s.loggerAt n).2.loggerMap n = some (s.loggerAt n).1 := by
  cases h : s.loggerMap n
  case none   => rw [loggerAt_of_none h]; exact Function.update_self ..
  case some i => rw [loggerAt_of_some h, h]

-- Names keep their loggers when others are added.
theorem loggerMap_loggerAt (h : s.loggerMap m = some i) :
    (s.loggerAt n).2.loggerMap m = some i := by
  cases hn : s.loggerMap n
  case some => rw [loggerAt_of_some hn, h]
  case none =>
    have hm : m ≠ n := fun hc => by simp [← hc, h] at hn
    rw [loggerAt_of_none hn]
    exact (Function.update_of_ne hm ..).trans h

-- The loggers that `s` has made since `s₀`: `mem` are their names, and `spec` is what they are.
structure Book (s₀ : State ν) (mem : Set Bytes) (spec : Bytes → Logger) (s : State ν) : Prop where
  rest   : { s with
    loggers := s₀.loggers, nextLogger := s₀.nextLogger, loggerMap := s₀.loggerMap } = s₀
  le     : s₀.nextLogger ≤ s.nextLogger
  older  : ∀ {i}, i < s₀.nextLogger → s.loggers i = s₀.loggers i
  fresh  : ∀ {n i}, s.loggerMap n = some i → s₀.nextLogger ≤ i ∧ i < s.nextLogger
  inj    : ∀ {n m i}, s.loggerMap n = some i → s.loggerMap m = some i → n = m
  names  : ∀ {n}, (s.loggerMap n).isSome ↔ n ∈ mem
  logger : ∀ {n i}, s.loggerMap n = some i → s.loggers i = spec n

namespace Book

variable {mem : Set Bytes} {spec : Bytes → Logger}

theorem appenderMap (h : Book s₀ mem spec s) : s.appenderMap = s₀.appenderMap :=
  h.rest ▸ rfl

theorem loggerAt (h : Book s₀ mem spec s) (hn : n ∉ mem → spec n = {}) :
    Book s₀ (insert n mem) spec (s.loggerAt n).2 := by
  cases hm : s.loggerMap n
  case some i =>
    have hmem : n ∈ mem := h.names.mp (by rw [hm]; rfl)
    rw [Set.insert_eq_of_mem hmem, loggerAt_of_some hm]
    exact h
  case none =>
    have hmem : n ∉ mem := fun hc => by simpa [hm] using h.names.mpr hc
    rw [loggerAt_of_none hm]
    constructor
    case rest  => exact h.rest
    case le    => exact h.le.trans (Nat.le_succ _)
    case older =>
      intro j hj
      exact (Function.update_of_ne (hj.trans_le h.le).ne ..).trans (h.older hj)
    case fresh =>
      intro k j hj
      rcases update_cases hj with ⟨-, rfl⟩ | ⟨-, hk⟩
      case inl => exact ⟨h.le, Nat.lt_succ_self _⟩
      case inr => exact ⟨(h.fresh hk).1, (h.fresh hk).2.trans (Nat.lt_succ_self _)⟩
    case inj =>
      intro k k' j hj hj'
      rcases update_cases hj with ⟨rfl, rfl⟩ | ⟨-, hk⟩ <;>
        rcases update_cases hj' with ⟨rfl, he⟩ | ⟨-, hk'⟩
      case inl.inl => rfl
      case inl.inr => exact absurd (h.fresh hk').2 (Nat.lt_irrefl _)
      case inr.inl => exact absurd (h.fresh hk).2 (he ▸ Nat.lt_irrefl _)
      case inr.inr => exact h.inj hk hk'
    case names =>
      intro k
      by_cases hk : k = n
      case pos => simp [hk]
      case neg => simp [hk, h.names]
    case logger =>
      intro k j hj
      rcases update_cases hj with ⟨rfl, rfl⟩ | ⟨-, hk⟩
      case inl => exact (Function.update_self ..).trans (hn hmem).symm
      case inr => exact (Function.update_of_ne (h.fresh hk).2.ne ..).trans (h.logger hk)

theorem setLogger (h : Book s₀ mem spec s) (hi : s.loggerMap n = some i) (f : Logger → Logger) :
    Book s₀ mem (Function.update spec n (f (spec n))) (s.setLogger i f) where
  rest      := h.rest
  le        := h.le
  older hj  := (Function.update_of_ne (hj.trans_le (h.fresh hi).1).ne ..).trans (h.older hj)
  fresh     := h.fresh
  inj       := h.inj
  names     := h.names
  logger {m j} hj := by
    by_cases hm : m = n
    case pos =>
      have hij : j = i := Option.some.inj (hj.symm.trans (hm ▸ hi))
      rw [hij, hm, Function.update_self, ← h.logger hi]
      exact Function.update_self ..
    case neg =>
      have hij : j ≠ i := fun hc => hm (h.inj (hc ▸ hj) hi)
      rw [Function.update_of_ne hm, ← h.logger hj]
      exact Function.update_of_ne hij ..

theorem congr {mem' : Set Bytes} {spec' : Bytes → Logger} (h : Book s₀ mem spec s)
    (hm : mem = mem') (hs : spec = spec') : Book s₀ mem' spec' s :=
  hm ▸ hs ▸ h

end Book

-- What a configuration says of the logger with a name: levels and parents that are given again
-- replace the earlier ones, appenders are added to the earlier ones. A name that is only a parent
-- gets a logger without a name.
def configured (cs : List LoggerConfig) (loggerMap appenderMap : Bytes → Option Nat) (n : Bytes) :
    Logger :=
  let mine := cs.filter (·.name = n)
  { name      := if mine = [] then [] else n
    parent    := (mine.filterMap (·.parent)).getLast?.bind loggerMap
    level     := (mine.filterMap (·.level)).getLast?.getD .warn
    appenders := (mine.flatMap (·.appenders)).filterMap appenderMap }

def mentioned (cs : List LoggerConfig) : Set Bytes :=
  {n | ∃ c ∈ cs, c.name = n ∨ c.parent = some n}

section Configured

variable {cs : List LoggerConfig} {c : LoggerConfig} {map apps : Bytes → Option Nat}

theorem configured_of_not_mem (h : n ∉ mentioned cs) : configured cs map apps n = {} := by
  have hf : cs.filter (·.name = n) = [] := by
    rw [List.filter_eq_nil_iff]
    exact fun c hc hn => h ⟨c, hc, .inl (of_decide_eq_true hn)⟩
  simp [configured, hf]

theorem configured_of_ne (h : c.name ≠ n) :
    configured (cs ++ [c]) map apps n = configured cs map apps n := by
  simp [configured, h]

theorem configured_name :
    configured (cs ++ [c]) map apps c.name =
      let l := configured cs map apps c.name
      { l with
        name      := c.name
        parent    := c.parent.elim l.parent map
        level     := c.level.getD l.level
        appenders := l.appenders ++ c.appenders.filterMap apps } := by
  cases hp : c.parent <;> cases hl : c.level <;> simp [configured, hp, hl]

-- The names of the parents have their loggers, so that other names do not matter.
theorem configured_congr {map' : Bytes → Option Nat}
    (h : ∀ p ∈ mentioned cs, map p = map' p) :
    configured cs map apps = configured cs map' apps := by
  funext n
  simp only [configured, Logger.mk.injEq, true_and, and_true]
  cases hp : ((cs.filter (·.name = n)).filterMap (·.parent)).getLast?
  case none => rfl
  case some p =>
    obtain ⟨c, hc, hcp⟩ := List.mem_filterMap.mp (List.mem_of_getLast? hp)
    exact h p ⟨c, (List.mem_filter.mp hc).1, .inr hcp⟩

theorem mentioned_append :
    mentioned (cs ++ [c]) = c.parent.elim (insert c.name (mentioned cs))
      fun p => insert p (insert c.name (mentioned cs)) := by
  ext n
  cases hp : c.parent
  case none   => simp [mentioned, hp, eq_comm (a := n), or_comm]
  case some p => simp [mentioned, hp, eq_comm (a := n), or_comm, or_assoc]

end Configured

theorem appenderMap_loggerAt (s : State ν) (n : Bytes) :
    (s.loggerAt n).2.appenderMap = s.appenderMap := by
  cases h : s.loggerMap n
  case none   => rw [loggerAt_of_none h]
  case some i => rw [loggerAt_of_some h]

theorem foldl_addAppender (as : List Bytes) :
    as.foldl (addAppender i) s =
      s.setLogger i fun l => { l with appenders := l.appenders ++ as.filterMap s.appenderMap } := by
  induction as generalizing s
  case nil => simp [setLogger]
  case cons a as hi =>
    rw [List.foldl_cons, hi]
    cases h : s.appenderMap a
    case none   => simp [addAppender, h]
    case some k => simp [addAppender, h, setLogger]

-- The loggers that an entry of the configuration names are there.
def touch (s : State ν) (c : LoggerConfig) : State ν :=
  c.parent.elim (s.loggerAt c.name).2 fun p => ((s.loggerAt c.name).2.loggerAt p).2

theorem configureLogger_eq (s : State ν) (c : LoggerConfig) :
    configureLogger s c = (s.touch c).setLogger (s.loggerAt c.name).1 fun l => { l with
      name      := c.name
      parent    := c.parent.elim l.parent (s.touch c).loggerMap
      level     := c.level.getD l.level
      appenders := l.appenders ++ c.appenders.filterMap s.appenderMap } := by
  simp only [configureLogger, foldl_addAppender]
  cases hp : c.parent
  case none =>
    cases hl : c.level <;>
      simp [setParentOf, touch, hp, setLogger, appenderMap_loggerAt]
  case some p =>
    cases hl : c.level <;>
      simp [setParentOf, touch, hp, setLogger, loggerMap_loggerAt_self, appenderMap_loggerAt]

theorem Book.touch {spec : Bytes → Logger} {cs : List LoggerConfig} {c : LoggerConfig}
    (h : Book s₀ (mentioned cs) spec s) (hs : ∀ n ∉ mentioned cs, spec n = {}) :
    Book s₀ (mentioned (cs ++ [c])) spec (s.touch c) := by
  have hc := h.loggerAt (hs c.name)
  rw [mentioned_append, State.touch]
  cases c.parent
  case none   => exact hc
  case some p => exact hc.loggerAt fun hn => hs p (hn <| .inr ·)

theorem loggerMap_touch {c : LoggerConfig} (h : s.loggerMap n = some i) :
    (s.touch c).loggerMap n = some i := by
  rw [State.touch]
  cases c.parent
  case none   => exact loggerMap_loggerAt h
  case some p => exact loggerMap_loggerAt (loggerMap_loggerAt h)

theorem appenderMap_touch (s : State ν) (c : LoggerConfig) :
    (s.touch c).appenderMap = s.appenderMap := by
  rw [touch]
  cases c.parent
  case none   => exact appenderMap_loggerAt ..
  case some p => exact (appenderMap_loggerAt ..).trans (appenderMap_loggerAt ..)

theorem loggerMap_touch_name (s : State ν) (c : LoggerConfig) :
    (s.touch c).loggerMap c.name = some (s.loggerAt c.name).1 := by
  rw [touch]
  cases c.parent
  case none   => exact loggerMap_loggerAt_self ..
  case some p => exact loggerMap_loggerAt (loggerMap_loggerAt_self ..)

-- What is done so far is the configuration of the entries so far.
theorem Book.configureLogger {cs : List LoggerConfig} {c : LoggerConfig}
    (h : Book s₀ (mentioned cs) (configured cs s.loggerMap s.appenderMap) s) :
    Book s₀ (mentioned (cs ++ [c]))
      (configured (cs ++ [c]) (configureLogger s c).loggerMap (configureLogger s c).appenderMap)
      (configureLogger s c) := by
  have hmap : ∀ p ∈ mentioned cs, s.loggerMap p = (s.touch c).loggerMap p := by
    intro p hp
    obtain ⟨i, hi⟩ := Option.isSome_iff_exists.mp (h.names.mpr hp)
    rw [hi, loggerMap_touch hi]
  have ht := h.touch (c := c) fun n hn => configured_of_not_mem hn
  rw [configured_congr hmap, ← appenderMap_touch s c] at ht
  have hs := ht.setLogger (loggerMap_touch_name s c) fun l => { l with
    name      := c.name
    parent    := c.parent.elim l.parent (s.touch c).loggerMap
    level     := c.level.getD l.level
    appenders := l.appenders ++ c.appenders.filterMap s.appenderMap }
  rw [configureLogger_eq]
  refine hs.congr rfl ?_
  funext n
  by_cases hn : n = c.name
  case pos =>
    rw [hn, Function.update_self, configured_name, ← appenderMap_touch s c]
    rfl
  case neg =>
    rw [Function.update_of_ne hn, configured_of_ne (Ne.symm hn)]
    rfl

theorem Book.foldl_configureLogger {cs : List LoggerConfig} (ds : List LoggerConfig)
    (h : Book s₀ (mentioned cs) (configured cs s.loggerMap s.appenderMap) s) :
    let s' := ds.foldl State.configureLogger s
    Book s₀ (mentioned (cs ++ ds)) (configured (cs ++ ds) s'.loggerMap s'.appenderMap) s' := by
  induction ds generalizing cs s
  case nil          => simpa using h
  case cons d ds hi => simpa using hi h.configureLogger

section Appenders

variable {cs : List AppenderConfig} {c : AppenderConfig}

def failure (s : State ν) (c : AppenderConfig) : Option Failure :=
  match s.factoryMap c.type with
  | none        => none
  | some create =>
    match create c.args with
    | .error e => some e
    | .ok _    => none

-- The appenders that are made of the entries of a configuration.
def known (s : State ν) (cs : List AppenderConfig) : List AppenderConfig :=
  cs.filter fun c => (s.factoryMap c.type).isSome

-- The appenders that `s` has made since `s₀`, from the entries `cs`.
structure Shelf (s₀ : State ν) (cs : List AppenderConfig) (s : State ν) : Prop where
  rest  : { s with
    appenders := s₀.appenders, nextAppender := s₀.nextAppender, appenderMap := s₀.appenderMap } = s₀
  le    : s₀.nextAppender ≤ s.nextAppender
  older : ∀ {k}, k < s₀.nextAppender → s.appenders k = s₀.appenders k
  fresh : ∀ {a k}, s.appenderMap a = some k → s₀.nextAppender ≤ k ∧ k < s.nextAppender
  made  : ∀ {a}, (s.appenderMap a).map s.appenders =
    ((s₀.known cs).filter (·.name = a)).getLast?

theorem Shelf.factoryMap (h : Shelf s₀ cs s) : s.factoryMap = s₀.factoryMap :=
  h.rest ▸ rfl

theorem Shelf.createAppender {s' : State ν} (h : Shelf s₀ cs s)
    (hc : s.createAppender c = .ok s') : Shelf s₀ (cs ++ [c]) s' := by
  rw [State.createAppender] at hc
  cases hf : s.factoryMap c.type
  case none =>
    rw [hf] at hc
    cases hc
    have hk : s₀.known (cs ++ [c]) = s₀.known cs := by simp [known, ← h.factoryMap, hf]
    exact { h with made := hk ▸ h.made }
  case some create =>
    rw [hf] at hc
    obtain ⟨-, -, hc⟩ := Except.bind_eq_ok hc
    cases hc
    have hk : s₀.known (cs ++ [c]) = s₀.known cs ++ [c] := by simp [known, ← h.factoryMap, hf]
    constructor
    case rest  => exact h.rest
    case le    => exact h.le.trans (Nat.le_succ _)
    case older =>
      intro k hk
      exact (Function.update_of_ne (hk.trans_le h.le).ne ..).trans (h.older hk)
    case fresh =>
      intro a k ha
      rcases update_cases ha with ⟨-, rfl⟩ | ⟨-, ha⟩
      case inl => exact ⟨h.le, Nat.lt_succ_self _⟩
      case inr => exact ⟨(h.fresh ha).1, (h.fresh ha).2.trans (Nat.lt_succ_self _)⟩
    case made =>
      intro a
      rw [hk]
      by_cases hac : c.name = a
      case pos => simp [hac]
      case neg =>
        simp only [List.filter_append, List.filter_cons, hac, decide_false, Bool.false_eq_true,
          if_false, List.filter_nil, List.append_nil, Function.update_of_ne (Ne.symm hac), ← h.made]
        exact Option.map_congr fun k hk => Function.update_of_ne (h.fresh hk).2.ne ..

theorem createAppender_failure :
    match s.failure c with
    | some e => s.createAppender c = .error e
    | none   => ∃ s', s.createAppender c = .ok s' := by
  rw [failure, createAppender]
  cases s.factoryMap c.type
  case none => exact ⟨s, rfl⟩
  case some create =>
    cases h : create c.args
    case error e => simp only [h]; rfl
    case ok      => simp only [h]; exact ⟨_, rfl⟩

theorem failure_congr (h : Shelf s₀ cs s) : s.failure = s₀.failure := by
  funext c
  rw [failure, h.factoryMap, failure]

-- The appenders are made up to the first one that fails.
theorem Shelf.createAppenders (h : Shelf s₀ cs s) (ds : List AppenderConfig) :
    (s.createAppenders ds).2 = ds.findSome? s₀.failure ∧
      ∃ es, Shelf s₀ es (s.createAppenders ds).1 ∧
        (ds.findSome? s₀.failure = none → es = cs ++ ds) := by
  induction ds generalizing cs s
  case nil => exact ⟨rfl, cs, h, fun _ => (List.append_nil _).symm⟩
  case cons d ds hi =>
    have hd := createAppender_failure (s := s) (c := d)
    rw [failure_congr h] at hd
    cases hf : s₀.failure d
    case some e =>
      rw [hf] at hd
      simp only [State.createAppenders, hd, List.findSome?_cons, hf]
      exact ⟨trivial, cs, h, fun hc => by cases hc⟩
    case none =>
      rw [hf] at hd
      obtain ⟨s', hs⟩ := hd
      simp only [State.createAppenders, hs, List.findSome?_cons, hf]
      simpa using hi (h.createAppender hs)

end Appenders

-- The state `s` after a configuration that went through and started in `s₀`.
structure Applied (B : Builtin) (cfg : LoggingConfig) (s₀ s : State ν) : Prop where
  -- Each name that the configuration mentions has a new logger of its own.
  names  : ∀ {n}, (s.loggerMap n).isSome ↔ n ∈ mentioned cfg.loggers
  inj    : ∀ {n m i}, s.loggerMap n = some i → s.loggerMap m = some i → n = m
  fresh  : ∀ {n i}, s.loggerMap n = some i → s₀.nextLogger ≤ i
  logger : ∀ {n i}, s.loggerMap n = some i →
    s.loggers i = configured cfg.loggers s.loggerMap s.appenderMap n
  -- The name of an appender stands for the last appender of a known type with that name.
  appender      : ∀ {a}, (s.appenderMap a).map s.appenders =
    (((s₀.registerBuiltin B).known cfg.appenders).filter (·.name = a)).getLast?
  freshAppender : ∀ {a k}, s.appenderMap a = some k → s₀.nextAppender ≤ k
  -- The rest of the program does not see the configuration.
  older         : ∀ {i}, i < s₀.nextLogger → s.loggers i = s₀.loggers i
  olderAppender : ∀ {k}, k < s₀.nextAppender → s.appenders k = s₀.appenders k
  handles       : s.handles = s₀.handles
  contexts      : s.contexts = s₀.contexts
  deliveries    : s.deliveries = s₀.deliveries

-- What a configuration starts from.
def cleared (B : Builtin) (s : State ν) : State ν :=
  { s.registerBuiltin B with loggerMap := fun _ => none, appenderMap := fun _ => none }

theorem cleared_eq (B : Builtin) (s : State ν) :
    s.cleared B = { s with
      registered  := (s.registerBuiltin B).registered
      factoryMap  := (s.registerBuiltin B).factoryMap
      loggerMap   := fun _ => none
      appenderMap := fun _ => none } := by
  rw [cleared, registerBuiltin]
  split
  case isTrue  => rfl
  case isFalse => rfl

theorem shelf_cleared (B : Builtin) (s : State ν) : Shelf (s.cleared B) [] (s.cleared B) where
  rest    := rfl
  le      := Nat.le_refl _
  older _ := rfl
  fresh h := by cases h
  made    := rfl

theorem Shelf.book {cs : List AppenderConfig} {B : Builtin} (h : Shelf (s₀.cleared B) cs s) :
    Book s (mentioned []) (configured [] s.loggerMap s.appenderMap) s := by
  have hm : s.loggerMap = fun _ => none := congrArg State.loggerMap h.rest
  constructor
  case rest   => rfl
  case le     => exact Nat.le_refl _
  case older  => intros; rfl
  case fresh  => simp [hm]
  case inj    => simp [hm]
  case names  => simp [hm, mentioned]
  case logger => simp [hm]

theorem Shelf.applied {B : Builtin} {cfg : LoggingConfig}
    (h : Shelf (s₀.cleared B) cfg.appenders s) :
    Applied B cfg s₀ (cfg.loggers.foldl configureLogger s) := by
  have hb := h.book.foldl_configureLogger cfg.loggers
  have hr := h.rest
  rw [cleared_eq] at h hr
  have hn : s.nextLogger = s₀.nextLogger := (congrArg State.nextLogger hr :)
  constructor
  case names  => exact hb.names
  case inj    => exact hb.inj
  case fresh  => exact fun hi => hn ▸ (hb.fresh hi).1
  case logger => exact hb.logger
  case appender =>
    intro a
    rw [hb.appenderMap, (congrArg State.appenders hb.rest :)]
    exact h.made
  case freshAppender =>
    intro a k ha
    rw [hb.appenderMap] at ha
    exact (h.fresh ha).1
  case older =>
    intro i hi
    exact (hb.older (hn ▸ hi)).trans (congrFun (congrArg State.loggers hr :) i)
  case olderAppender =>
    intro k hk
    exact (congrFun (congrArg State.appenders hb.rest :) k).trans (h.older hk)
  case handles =>
    exact (congrArg State.handles hb.rest :).trans (congrArg State.handles hr :)
  case contexts =>
    exact (congrArg State.contexts hb.rest :).trans (congrArg State.contexts hr :)
  case deliveries =>
    exact (congrArg State.deliveries hb.rest :).trans (congrArg State.deliveries hr :)

end State

-- A configuration fails exactly when an appender of a known type cannot be made. Then no name has a
-- logger any more.
theorem configureLogging_applied {ν : Type} (B : Builtin) (cfg : LoggingConfig) (s : State ν) :
    let failure := cfg.appenders.findSome? (s.registerBuiltin B).failure
    let (s', r) := s.configureLogging B cfg
    (r = match failure with
      | none              => .ok true
      | some .fcException => .ok false
      | some .other       => .error .other) ∧
    (failure = none → State.Applied B cfg s s') ∧
    (failure ≠ none → s'.loggerMap = (fun _ => none) ∧ s'.loggers = s.loggers ∧
      s'.handles = s.handles) := by
  obtain ⟨hf, es, hs, he⟩ := (State.shelf_cleared B s).createAppenders cfg.appenders
  change _ = cfg.appenders.findSome? (s.registerBuiltin B).failure at hf
  change cfg.appenders.findSome? (s.registerBuiltin B).failure = none → _ at he
  cases hl : (s.cleared B).createAppenders cfg.appenders with | mk s₁ r =>
  rw [hl] at hf hs
  rw [State.cleared] at hl
  simp only [State.configureLogging, hl, ← hf] at he ⊢
  have hr := hs.rest
  rw [State.cleared_eq] at hr
  have hm : s₁.loggerMap = fun _ => none := (congrArg State.loggerMap hr :)
  have hg : s₁.loggers = s.loggers := (congrArg State.loggers hr :)
  have hh : s₁.handles = s.handles := (congrArg State.handles hr :)
  rcases r with _ | _ | _
  case none             =>
    rw [he rfl] at hs
    exact ⟨rfl, fun _ => hs.applied, fun hc => absurd rfl hc⟩
  case some.fcException => exact ⟨rfl, fun hc => (by cases hc), fun _ => ⟨hm, hg, hh⟩⟩
  case some.other       => exact ⟨rfl, fun hc => (by cases hc), fun _ => ⟨hm, hg, hh⟩⟩

end Log
