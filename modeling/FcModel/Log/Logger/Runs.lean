import FcModel.Log.Logger.Configured

-- Programs that make, share, change and configure loggers in any order: what a logged message does
-- after any of them, and what of a logger and of a name lasts.

namespace Log

open Ascii Machine

variable {ν : Type}

namespace State

-- No logger ever gets additivity, and whatever refers to a logger refers to one that was made.
structure Sound (s : State ν) : Prop where
  additivity : ∀ i, (s.loggers i).additivity = false
  parent     : ∀ {i j}, (s.loggers i).parent = some j → j < s.nextLogger
  named      : ∀ {n i}, s.loggerMap n = some i → i < s.nextLogger
  handle     : ∀ {h i}, s.handles h = some i → i < s.nextLogger

-- What every operation leaves as it is.
structure Grows (s s' : State ν) : Prop where
  le        : s.nextLogger ≤ s'.nextLogger
  appenders : ∀ {i}, i < s.nextLogger → (s'.loggers i).appenders = (s.loggers i).appenders

-- What all operations but a configuration leave as it is.
structure Lasts (s s' : State ν) : Prop extends Grows s s' where
  named : ∀ {n i}, s.loggerMap n = some i → s'.loggerMap n = some i

variable {s₀ s s' s'' : State ν} {i : Nat}

theorem Sound.initial (contexts : Nat → LogContext) : Sound ({ contexts } : State ν) where
  additivity _ := rfl
  parent h     := by cases h
  named h      := by cases h
  handle h     := by cases h

theorem Grows.trans (h : Grows s s') (h' : Grows s' s'') : Grows s s'' where
  le           := h.le.trans h'.le
  appenders hi := (h'.appenders (hi.trans_le h.le)).trans (h.appenders hi)

theorem Lasts.refl (s : State ν) : Lasts s s where
  le          := Nat.le_refl _
  appenders _ := rfl
  named h     := h

theorem Lasts.trans (h : Lasts s s') (h' : Lasts s' s'') : Lasts s s'' where
  toGrows  := h.toGrows.trans h'.toGrows
  named hn := h'.named (h.named hn)

theorem Sound.newLogger (hs : Sound s) {l : Logger} (ha : l.additivity = false)
    (hp : ∀ {j}, l.parent = some j → j < s.nextLogger) : Sound (s.newLogger l).2 where
  additivity i := by
    by_cases hi : i = s.nextLogger
    case pos => rw [hi]; exact (congrArg _ (Function.update_self ..)).trans ha
    case neg => exact (congrArg _ (Function.update_of_ne hi ..)).trans (hs.additivity i)
  parent {i j} h := by
    refine Nat.lt_succ_of_lt ?_
    by_cases hi : i = s.nextLogger
    case pos => rw [hi] at h; exact hp ((congrArg _ (Function.update_self ..)).symm.trans h)
    case neg => exact hs.parent ((congrArg _ (Function.update_of_ne hi ..)).symm.trans h)
  named h  := Nat.lt_succ_of_lt (hs.named h)
  handle h := Nat.lt_succ_of_lt (hs.handle h)

theorem Lasts.newLogger (s : State ν) (l : Logger) : Lasts s (s.newLogger l).2 where
  le           := Nat.le_succ _
  appenders hi := congrArg _ (Function.update_of_ne hi.ne ..)
  named h      := h

theorem Sound.setLogger (hs : Sound s) {f : Logger → Logger}
    (ha : (f (s.loggers i)).additivity = (s.loggers i).additivity)
    (hp : ∀ {j}, (f (s.loggers i)).parent = some j → j < s.nextLogger) :
    Sound (s.setLogger i f) where
  additivity j := by
    by_cases hj : j = i
    case pos =>
      rw [hj]
      exact (congrArg _ (Function.update_self ..)).trans <| ha.trans (hs.additivity i)
    case neg => exact (congrArg _ (Function.update_of_ne hj ..)).trans (hs.additivity j)
  parent {j k} h := by
    by_cases hj : j = i
    case pos => rw [hj] at h; exact hp ((congrArg _ (Function.update_self ..)).symm.trans h)
    case neg => exact hs.parent ((congrArg _ (Function.update_of_ne hj ..)).symm.trans h)
  named  := hs.named
  handle := hs.handle

theorem Lasts.setLogger {f : Logger → Logger}
    (ha : (f (s.loggers i)).appenders = (s.loggers i).appenders) : Lasts s (s.setLogger i f) where
  le := Nat.le_refl _
  appenders {j} hj := by
    by_cases hi : j = i
    case pos => rw [hi]; exact (congrArg _ (Function.update_self ..)).trans ha
    case neg => exact congrArg _ (Function.update_of_ne hi ..)
  named h := h

theorem Sound.setHandles (hs : Sound s) {handles : ν → Option Nat}
    (h : ∀ {h i}, handles h = some i → i < s.nextLogger) : Sound { s with handles } where
  additivity := hs.additivity
  parent     := hs.parent
  named      := hs.named
  handle     := h

theorem Lasts.setHandles (s : State ν) (handles : ν → Option Nat) :
    Lasts s { s with handles } where
  le          := Nat.le_refl _
  appenders _ := rfl
  named h     := h

theorem Sound.setName (hs : Sound s) {n : Bytes} (hi : i < s.nextLogger) :
    Sound { s with loggerMap := Function.update s.loggerMap n (some i) } where
  additivity := hs.additivity
  parent     := hs.parent
  named h    := by
    rcases update_cases h with ⟨-, rfl⟩ | ⟨-, h⟩
    case inl => exact hi
    case inr => exact hs.named h
  handle     := hs.handle

theorem Sound.loggerAt (hs : Sound s) (n : Bytes) :
    Sound (s.loggerAt n).2 ∧ (s.loggerAt n).1 < (s.loggerAt n).2.nextLogger := by
  cases h : s.loggerMap n
  case some i => rw [loggerAt_of_some h]; exact ⟨hs, hs.named h⟩
  case none =>
    rw [State.loggerAt, h]
    have hn := hs.newLogger (l := {}) rfl fun hp => by cases hp
    exact ⟨hn.setName (Nat.lt_succ_self _), Nat.lt_succ_self _⟩

theorem Lasts.loggerAt (s : State ν) (n : Bytes) : Lasts s (s.loggerAt n).2 where
  toGrows := by
    cases h : s.loggerMap n
    case some i => rw [loggerAt_of_some h]; exact (Lasts.refl s).toGrows
    case none =>
      have := Lasts.newLogger s {}
      rw [State.loggerAt, h]
      exact ⟨this.le, this.appenders⟩
  named h := loggerMap_loggerAt h

theorem Sound.touch (hs : Sound s) (c : LoggerConfig) : Sound (s.touch c) := by
  rw [State.touch]
  cases c.parent
  case none   => exact (hs.loggerAt _).1
  case some p => exact ((hs.loggerAt _).1.loggerAt _).1

theorem Sound.configureLogger (hs : Sound s) (c : LoggerConfig) :
    Sound (State.configureLogger s c) := by
  rw [configureLogger_eq]
  refine (hs.touch c).setLogger rfl fun {j} hj => ?_
  cases hp : c.parent
  case none   => rw [hp] at hj; exact (hs.touch c).parent hj
  case some p => rw [hp] at hj; exact (hs.touch c).named hj

theorem Sound.foldl_configureLogger (hs : Sound s) (cs : List LoggerConfig) :
    Sound (cs.foldl State.configureLogger s) := by
  induction cs generalizing s
  case nil          => exact hs
  case cons c cs hi => exact hi (hs.configureLogger c)

theorem Sound.shelf {cs : List AppenderConfig} (hs : Sound s₀) (h : Shelf s₀ cs s) : Sound s := by
  have hr := h.rest
  rw [← h.rest] at hs
  exact ⟨hs.additivity, hs.parent, hs.named, hs.handle⟩

theorem Sound.cleared (hs : Sound s) (B : Builtin) : Sound (s.cleared B) := by
  rw [cleared_eq]
  exact ⟨hs.additivity, hs.parent, fun h => (by cases h), hs.handle⟩

theorem configureLogging_cases (B : Builtin) (cfg : LoggingConfig) (s : State ν) :
    ∃ es s₁, Shelf (s.cleared B) es s₁ ∧ ((s.configureLogging B cfg).1 = s₁ ∨
      (s.configureLogging B cfg).1 = cfg.loggers.foldl State.configureLogger s₁) := by
  obtain ⟨-, es, hs, -⟩ := (shelf_cleared B s).createAppenders cfg.appenders
  cases h : (s.cleared B).createAppenders cfg.appenders with | mk s₁ r =>
  rw [h] at hs
  rw [State.cleared] at h
  refine ⟨es, s₁, hs, ?_⟩
  simp only [configureLogging, h]
  rcases r with _ | _ | _
  case none             => exact .inr rfl
  case some.fcException => exact .inl rfl
  case some.other       => exact .inl rfl

theorem Sound.configureLogging (hs : Sound s) (B : Builtin) (cfg : LoggingConfig) :
    Sound (s.configureLogging B cfg).1 := by
  obtain ⟨es, s₁, hc, h⟩ := configureLogging_cases B cfg s
  have hs₁ := (hs.cleared B).shelf hc
  rcases h with h | h
  case inl => rw [h]; exact hs₁
  case inr => rw [h]; exact hs₁.foldl_configureLogger cfg.loggers

-- A configuration makes new loggers, and does not touch those that are there.
theorem Grows.configureLogging (B : Builtin) (cfg : LoggingConfig) (s : State ν) :
    Grows s (s.configureLogging B cfg).1 := by
  obtain ⟨es, s₁, hc, h⟩ := configureLogging_cases B cfg s
  have hr := hc.rest
  rw [cleared_eq] at hr
  have hn : s₁.nextLogger = s.nextLogger := (congrArg State.nextLogger hr :)
  have hl : s₁.loggers = s.loggers := (congrArg State.loggers hr :)
  rcases h with h | h
  case inl => rw [h]; exact ⟨hn.ge, fun _ => by rw [hl]⟩
  case inr =>
    have hb := hc.book.foldl_configureLogger cfg.loggers
    rw [h]
    exact ⟨hn ▸ hb.le, fun hi => by rw [hb.older (hn ▸ hi), hl]⟩

theorem Sound.updateLogger (hs : Sound s) (n : Bytes) {log : Option Nat}
    (hl : ∀ {i}, log = some i → i < s.nextLogger) :
    Sound (s.updateLogger n log).2 ∧
      ∀ {i}, (s.updateLogger n log).1 = some i → i < (s.updateLogger n log).2.nextLogger := by
  rw [State.updateLogger]
  cases h : s.loggerMap n
  case some i => exact ⟨hs, fun hi => Option.some.inj hi ▸ hs.named h⟩
  case none =>
    cases h' : s.loggerMap defaultLogger
    case none   => exact ⟨hs, hl⟩
    case some i => exact ⟨hs.setName (hs.named h'), fun hi => Option.some.inj hi ▸ hs.named h'⟩

theorem Lasts.updateLogger (s : State ν) (n : Bytes) (log : Option Nat) :
    Lasts s (s.updateLogger n log).2 := by
  rw [State.updateLogger]
  cases h : s.loggerMap n
  case some i => exact .refl s
  case none =>
    cases h' : s.loggerMap defaultLogger
    case none   => exact .refl s
    case some i =>
      refine ⟨⟨Nat.le_refl _, fun _ => rfl⟩, fun {m j} hm => ?_⟩
      have hmn : m ≠ n := fun hc => by simp [← hc, hm] at h
      exact (Function.update_of_ne hmn ..).trans hm

section Log

variable (throws : List Delivery → Nat → LogMessage → Bool)

theorem foldl_callAppender (m : Message) (as : List Nat) (s : State ν) :
    ∃ ds, ds.map (·.appender) = as ∧
      (∀ d ∈ ds, d.message = ⟨s.contexts m.context, m.format, m.args⟩) ∧
      as.foldl (callAppender throws m) s = { s with deliveries := s.deliveries ++ ds } := by
  induction as generalizing s
  case nil => exact ⟨[], rfl, by simp, by simp⟩
  case cons a as hi =>
    obtain ⟨ds, ha, hm, he⟩ := hi (s.callAppender throws m a)
    let message : LogMessage := ⟨s.contexts m.context, m.format, m.args⟩
    let d : Delivery := ⟨a, message, throws s.deliveries a message⟩
    refine ⟨d :: ds, congrArg (a :: ·) ha, List.forall_mem_cons.mpr ⟨rfl, hm⟩, ?_⟩
    rw [List.foldl_cons, he]
    simp only [callAppender, List.append_assoc, List.singleton_append, d, message]

-- The appenders of the logger are called in their order, each once.
theorem Sound.log (hs : Sound s) (fuel : Nat) (i : Nat) (m : Message) :
    let context := (s.contexts m.context).appendContext (s.loggers i).name
    ∃ ds, ds.map (·.appender) = (s.loggers i).appenders ∧
      (∀ d ∈ ds, d.message = ⟨context, m.format, m.args⟩) ∧
      s.log throws (fuel + 1) i m = some { s with
        contexts   := Function.update s.contexts m.context context
        deliveries := s.deliveries ++ ds } := by
  intro context
  obtain ⟨ds, ha, hm, he⟩ := foldl_callAppender throws m (s.loggers i).appenders
    { s with contexts := Function.update s.contexts m.context context }
  refine ⟨ds, ha, fun d hd => (hm d hd).trans ?_, ?_⟩
  case refine_1 => simp only [Function.update_self]
  case refine_2 => simp only [State.log, hs.additivity, Bool.false_eq_true, if_false, context, he]

end Log

end State

section Step

variable {B : Builtin} {throws : List Delivery → Nat → LogMessage → Bool} {fuel : Nat}
  {s : State ν}

open State

theorem run_impl_of_some {h : ν} {i : Nat} (hi : s.handles h = some i) :
    (impl h).run s = .ok i s := by
  simp [impl, hi]

theorem run_impl_of_none {h : ν} (hi : s.handles h = none) :
    (impl h).run s = .error .nullLogger s := by
  simp only [impl, EStateM.run_bind, EStateM.run_get, hi]
  rfl

theorem run_isEnabled_of_none {h : ν} {level : LogLevel} (hi : s.handles h = none) :
    (isEnabled h level).run s = .error .nullLogger s := by
  rw [isEnabled, EStateM.run_bind, run_impl_of_none hi]

theorem run_isEnabled {h : ν} {level : LogLevel} {i : Nat} (hi : s.handles h = some i) :
    (isEnabled h level).run s = .ok (decide (level.value ≥ (s.loggers i).level.value)) s := by
  rw [isEnabled, EStateM.run_bind, run_impl_of_some hi]
  rfl

-- What an operation has to show of the state it leaves behind.
def Keeps (s s' : State ν) : Prop :=
  Sound s' ∧ Lasts s s'

theorem keeps_impl {α : Type} {h : ν} {f : Nat → Action ν α} (hs : Sound s)
    (hf : ∀ i, i < s.nextLogger → Keeps s (state <| (f i).run s)) :
    Keeps s (state <| (impl h >>= f).run s) := by
  rw [EStateM.run_bind]
  cases hi : s.handles h
  case none   => rw [run_impl_of_none hi]; exact ⟨hs, .refl s⟩
  case some i => rw [run_impl_of_some hi]; exact hf i (hs.handle hi)

theorem keeps_modify {α : Type} {f : State ν → State ν} {a : α} (h : Keeps s (f s)) :
    Keeps s (state <| (do modify f; return a : Action ν α).run s) :=
  h

theorem keeps_return {α β : Type} {x : Action ν α} {f : α → β}
    (h : Keeps s (state <| x.run s)) :
    Keeps s (state <| (do return f (← x) : Action ν β).run s) := by
  rw [EStateM.run_bind]
  cases hx : x.run s <;> rw [hx] at h <;> exact h

theorem keeps_logTo (hs : Sound s) {i : Nat} {m : Message} :
    Keeps s (state <| (logTo throws fuel i m).run s) := by
  cases fuel
  case zero => exact ⟨hs, .refl s⟩
  case succ fuel =>
    obtain ⟨ds, -, -, he⟩ := hs.log throws fuel i m
    simp only [logTo, EStateM.run_bind, EStateM.run_get, he]
    exact ⟨⟨hs.additivity, hs.parent, hs.named, hs.handle⟩, ⟨Nat.le_refl _, fun _ => rfl⟩, id⟩

variable [DecidableEq ν]

theorem run_log {h : ν} {m : Message} {i : Nat} (hi : s.handles h = some i) {s' : State ν}
    (hl : s.log throws fuel i m = some s') :
    (step B throws fuel (.log h m)).run s = .ok none s' := by
  simp only [step, logTo, EStateM.run_bind, run_impl_of_some hi, EStateM.run_get, hl]
  rfl

-- The macros log what the logger is enabled for.
theorem run_logIfEnabled {h : ν} {level : LogLevel} {m : Message} {i : Nat}
    (hi : s.handles h = some i) :
    (step B throws fuel (.logIfEnabled h level m)).run s =
      if level.value ≥ (s.loggers i).level.value then (step B throws fuel (.log h m)).run s
      else .ok none s := by
  simp only [step]
  rw [EStateM.run_bind, run_isEnabled hi]
  by_cases hl : level.value ≥ (s.loggers i).level.value
  case pos => simp only [hl, decide_true, if_true]
  case neg => simp only [hl, decide_false, Bool.false_eq_true, if_false]; rfl

-- A handle is assigned after something else was done.
theorem keeps_setHandle {s' : State ν} (hk : Keeps s s') (h : ν) {l : Option Nat}
    (hl : ∀ {i}, l = some i → i < s'.nextLogger) :
    Keeps s { s' with handles := Function.update s'.handles h l } := by
  refine ⟨hk.1.setHandles fun {h' i} hi => ?_, hk.2.trans (.setHandles s' _)⟩
  by_cases hh : h' = h
  case pos => rw [hh, Function.update_self] at hi; exact hl hi
  case neg => rw [Function.update_of_ne hh] at hi; exact hk.1.handle hi

variable (B throws fuel) in
theorem keeps_step (hs : Sound s) {op : Op ν} (hc : ∀ cfg, op ≠ .configureLogging cfg) :
    Keeps s (state <| (step B throws fuel op).run s) := by
  have hr : Keeps s s := ⟨hs, .refl s⟩
  cases op
  case create h =>
    have hn := hs.newLogger (l := {}) rfl fun hp => by cases hp
    exact keeps_setHandle ⟨hn, .newLogger s _⟩ h fun hi => Option.some.inj hi ▸ Nat.lt_succ_self _
  case createNull h => exact keeps_setHandle hr h fun hi => by cases hi
  case createNamed h name parent =>
    have hn := hs.newLogger (l := { name, parent := s.handles parent }) rfl hs.handle
    exact keeps_setHandle ⟨hn, .newLogger s _⟩ h fun hi => Option.some.inj hi ▸ Nat.lt_succ_self _
  case copy h l => exact keeps_setHandle hr h hs.handle
  case move h l =>
    exact keeps_setHandle (keeps_setHandle hr l fun hi => by cases hi) h hs.handle
  case moveAssign h l =>
    exact keeps_setHandle (keeps_setHandle hr h hs.handle) l hs.handle
  case get h name =>
    obtain ⟨hn, hi⟩ := hs.loggerAt name
    exact keeps_setHandle ⟨hn, .loggerAt s name⟩ h fun he => Option.some.inj he ▸ hi
  case update h name =>
    obtain ⟨hn, hi⟩ := hs.updateLogger name hs.handle
    exact keeps_setHandle ⟨hn, .updateLogger s name _⟩ h hi
  case setName h name =>
    exact keeps_impl hs fun i _ => keeps_modify ⟨hs.setLogger rfl hs.parent, .setLogger rfl⟩
  case setParent h parent =>
    exact keeps_impl hs fun i _ => keeps_modify ⟨hs.setLogger rfl hs.handle, .setLogger rfl⟩
  case getParent h l => exact keeps_impl hs fun i _ => keeps_setHandle hr h hs.parent
  case setLogLevel h level =>
    exact keeps_impl hs fun i _ => keeps_modify ⟨hs.setLogger rfl hs.parent, .setLogger rfl⟩
  case isEnabled h level => exact keeps_return <| keeps_impl hs fun _ _ => hr
  case log h m           => exact keeps_impl hs fun _ _ => keeps_return <| keeps_logTo hs
  case logIfEnabled h level m =>
    cases hi : s.handles h
    case none   => rw [step, EStateM.run_bind, run_isEnabled_of_none hi]; exact hr
    case some i =>
      rw [run_logIfEnabled hi]
      split
      case isTrue  => exact keeps_impl hs fun _ _ => keeps_return <| keeps_logTo hs
      case isFalse => exact hr
  case registerAppender type f =>
    exact ⟨⟨hs.additivity, hs.parent, hs.named, hs.handle⟩, ⟨Nat.le_refl _, fun _ => rfl⟩, id⟩
  case configureLogging cfg => exact absurd rfl (hc cfg)

theorem state_configureLogging (cfg : LoggingConfig) :
    state ((step B throws fuel (.configureLogging cfg)).run s) = (s.configureLogging B cfg).1 := by
  simp only [step, EStateM.run_bind, EStateM.run_get, EStateM.run_set]
  cases (s.configureLogging B cfg).2 <;> rfl

theorem sound_of_reachable {contexts : Nat → LogContext}
    (h : Reachable (step B throws fuel) (fun _ _ => True) { contexts } s) : Sound s := by
  refine h.invariant (.initial contexts) fun {s op} hs _ => ?_
  by_cases hc : ∃ cfg, op = .configureLogging cfg
  case neg => exact (keeps_step B throws fuel hs fun cfg he => hc ⟨cfg, he⟩).1
  case pos =>
    obtain ⟨cfg, rfl⟩ := hc
    rw [state_configureLogging]
    exact hs.configureLogging B cfg

-- A message that is logged reaches each appender of the logger once, in their order, with the name
-- of the logger in its context, whatever the appenders throw. Nothing else is called: parents, and
-- chains of them that do not end, do not count. The macros leave out what is below the level.
theorem log_delivers {contexts : Nat → LogContext}
    (hs : Reachable (step B throws (fuel + 1)) (fun _ _ => True) { contexts } s) {h : ν} {i : Nat}
    (hi : s.handles h = some i) (m : Message) :
    let context := (s.contexts m.context).appendContext (s.loggers i).name
    ∃ ds, ds.map (·.appender) = (s.loggers i).appenders ∧
      (∀ d ∈ ds, d.message = ⟨context, m.format, m.args⟩) ∧
      let s' := { s with
        contexts   := Function.update s.contexts m.context context
        deliveries := s.deliveries ++ ds }
      (step B throws (fuel + 1) (.log h m)).run s = .ok none s' ∧
      ∀ level : LogLevel, (step B throws (fuel + 1) (.logIfEnabled h level m)).run s =
        .ok none (if level.value ≥ (s.loggers i).level.value then s' else s) := by
  obtain ⟨ds, ha, hm, hl⟩ := (sound_of_reachable hs).log throws fuel i m
  have hr := run_log (B := B) hi hl
  refine ⟨ds, ha, hm, hr, fun level => ?_⟩
  rw [run_logIfEnabled hi, hr]
  split
  case isTrue  => rfl
  case isFalse => rfl

-- A program that gets the default logger and logs with an appender that throws.
theorem log_delivers_default :
    let B : Builtin := ⟨fun _ => .ok (), fun _ => .ok (), fun _ => .ok ()⟩
    let run (ops : List (Op Unit)) : State Unit := after (step B (fun _ _ _ => true) 1) {} ops
    let start := [.configureLogging .defaultConfig, .get () defaultLogger]
    ∃ ds, ds.map (·.appender) = [0] ∧ (run (start ++ [.log () { context := 0 }])).deliveries = ds := by
  intro B run start
  have hs : Reachable (step B (fun _ _ _ => true) 1) (fun _ _ => True) {} (run start) :=
    Reachable.init.after ⟨trivial, trivial, trivial⟩
  obtain ⟨ds, ha, -, hl, -⟩ := log_delivers hs (h := ()) (i := 0) (by decide +kernel) { context := 0 }
  refine ⟨ds, ha.trans (by decide +kernel), ?_⟩
  simp only [run, start, List.cons_append, List.nil_append, after] at hl ⊢
  rw [hl]
  rfl

variable (B throws fuel) in
theorem grows_after (hs : Sound s) (ops : List (Op ν)) :
    Sound (after (step B throws fuel) s ops) ∧ Grows s (after (step B throws fuel) s ops) ∧
      ((∀ op ∈ ops, ∀ cfg, op ≠ .configureLogging cfg) →
        Lasts s (after (step B throws fuel) s ops)) := by
  induction ops generalizing s
  case nil => exact ⟨hs, (Lasts.refl s).toGrows, fun _ => .refl s⟩
  case cons op ops hi =>
    by_cases hc : ∃ cfg, op = .configureLogging cfg
    case neg =>
      obtain ⟨hs', hl⟩ := keeps_step B throws fuel hs fun cfg he => hc ⟨cfg, he⟩
      obtain ⟨hs'', hg, hl'⟩ := hi hs'
      exact ⟨hs'', hl.toGrows.trans hg, fun h => hl.trans (hl' fun op' h' => h op' (.tail _ h'))⟩
    case pos =>
      obtain ⟨cfg, rfl⟩ := hc
      rw [after, state_configureLogging]
      obtain ⟨hs'', hg, -⟩ := hi (hs.configureLogging B cfg)
      refine ⟨hs'', (Grows.configureLogging B cfg s).trans hg, fun h => ?_⟩
      exact absurd rfl (h _ (.head _) cfg)

-- The appenders of a logger that a program holds never change again, whatever is configured, and a
-- name that has a logger stands for it, for `get` and for `update`, up to the next configuration.
theorem after_lasts {contexts : Nat → LogContext}
    (hs : Reachable (step B throws fuel) (fun _ _ => True) { contexts } s) (ops : List (Op ν)) :
    let s' := after (step B throws fuel) s ops
    (∀ {h i}, s.handles h = some i → (s'.loggers i).appenders = (s.loggers i).appenders) ∧
    ((∀ op ∈ ops, ∀ cfg, op ≠ .configureLogging cfg) → ∀ {n i}, s.loggerMap n = some i →
      ∀ op ∈ [Op.get, Op.update], ∀ h, (step B throws fuel (op h n)).run s' =
        .ok none { s' with handles := Function.update s'.handles h (some i) }) := by
  intro s'
  have hs := sound_of_reachable hs
  obtain ⟨-, hg, hl⟩ := grows_after B throws fuel hs ops
  refine ⟨fun hi => hg.appenders (hs.handle hi), fun hc {n i} hn op ho h => ?_⟩
  have hn' : s'.loggerMap n = some i := (hl hc).named hn
  rcases List.mem_pair.mp ho with rfl | rfl
  case inl =>
    simp only [step, EStateM.run_bind, EStateM.run_get, EStateM.run_set, loggerAt_of_some hn']
    rfl
  case inr =>
    simp only [step, EStateM.run_bind, EStateM.run_get, EStateM.run_set, updateLogger, hn']
    rfl

theorem after_lasts_default :
    let B : Builtin := ⟨fun _ => .ok (), fun _ => .ok (), fun _ => .ok ()⟩
    let run (s : State Unit) (ops : List (Op Unit)) : State Unit :=
      after (step B (fun _ _ _ => true) 1) s ops
    let s := run {} [.configureLogging .defaultConfig, .get () defaultLogger]
    ((run s [.configureLogging {}, .setName () (ascii "old")]).loggers 0).appenders = [0] := by
  intro B run s
  have hs : Reachable (step B (fun _ _ _ => true) 1) (fun _ _ => True) {} s :=
    Reachable.init.after ⟨trivial, trivial, trivial⟩
  have ha := (after_lasts hs [.configureLogging {}, .setName () (ascii "old")]).1 (h := ()) (i := 0)
    (by decide +kernel)
  exact ha.trans (by decide +kernel)

end Step

end Log
