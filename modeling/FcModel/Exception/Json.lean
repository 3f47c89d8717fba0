import FcModel.Exception

-- Exceptions that are written as JSON and read again: what is left of them, and of which class they
-- are when they are thrown there.

-- The dates that the date library writes are made of digits and signs.
structure PosixTime.Plain (P : PosixTime) : Prop where
  extended : ∀ {secs}, secs < 2 ^ 32 →
    ∀ b ∈ P.toIsoExtendedString (.ofNat secs), Json.Unchanged b

namespace Log

open Ascii Json Variant MutableVariantObject Typed

variable {L : LexicalCast} {D : Doubles} {P : PosixTime} {format : OutputFormatting}

theorem unchanged_text (hL : L.Exact) (hP : P.Plain) {t : TimePoint} (ht : TimePoint.Whole t) :
    ∀ b ∈ t.text L P, Unchanged b := by
  have hcount := TimePoint.toNat_count ht.nonneg
  have hlt := ht.lt
  have hle : 0 ≤ t.elapsed.count := Int64.le_iff_toInt_le.mpr ht.nonneg
  have hsecs : (t.elapsed.count.toUInt64 / 1000000).toInt64 =
      .ofNat (t.elapsed.count.toUInt64.toNat / 1000000) := by
    have := t.elapsed.count.toUInt64.toNat_lt
    have hmillion : (1000000 : UInt64).toNat = 1000000 := rfl
    have hnat : (t.elapsed.count.toUInt64 / 1000000).toNat =
        t.elapsed.count.toUInt64.toNat / 1000000 := by
      rw [UInt64.toNat_div, hmillion]
    rw [← hnat]
    exact (UInt64.toInt64_ofNat' ..).symm ▸ by rw [UInt64.ofNat_toNat]
  intro b hb
  rw [TimePoint.text] at hb
  dsimp only at hb
  rw [if_pos hle, hsecs, hL.ofUint64] at hb
  rcases List.mem_append.mp hb with hb | hb
  case inl => exact hP.extended (by omega) b hb
  case inr =>
    rcases List.mem_cons.mp hb with rfl | hb
    case inl => decide
    case inr => exact unchanged_ofNat _ b (List.mem_of_mem_tail hb)

-- Strings of printable characters, data without doubles and blobs, and a time that has a text.
structure LogMessage.Plain (m : LogMessage) : Prop where
  file       : PlainText m.context.file
  method     : PlainText m.context.method
  threadName : PlainText m.context.threadName
  hostname   : PlainText m.context.hostname
  context    : PlainText m.context.context
  timestamp  : TimePoint.Whole m.context.timestamp
  format     : PlainText m.format
  args       : Textual (.object m.args)

-- The characters of words.
def Wordy (b : UInt8) : Prop :=
  isalnum b = true ∨ b = 0x5f ∨ b = space

instance (b : UInt8) : Decidable (Wordy b) :=
  inferInstanceAs (Decidable (_ ∨ _))

theorem unchanged_wordy : ∀ b : UInt8, Wordy b → Unchanged b := by
  decide +kernel

theorem plainText_ascii {k : String} (h : ∀ b ∈ ascii k, Wordy b) : PlainText (ascii k) :=
  plainText_of_unchanged fun b hb => unchanged_wordy b (h b hb)

theorem textual_object {es : List Entry} (h : ∀ e ∈ es, PlainText e.1 ∧ Textual e.2) :
    Textual (.object es) :=
  .object (fun e he => (h e he).1) fun e he => (h e he).2

theorem LogLevel.textual (e : LogLevel) : Textual e.toVariant := by
  cases e <;> exact .string (plainText_ascii (by decide +kernel))

theorem LogContext.textual (hL : L.Exact) (hP : P.Plain) {m : LogMessage} (h : m.Plain) :
    Textual (m.context.toVariant L P) := by
  have htime := plainText_of_unchanged (unchanged_text hL hP h.timestamp)
  rw [LogContext.toVariant_eq]
  refine textual_object (List.forall_mem_append.mpr ⟨?_, ?_⟩)
  case refine_1 =>
    simp only [List.forall_mem_cons, List.not_mem_nil, false_imp_iff, implies_true, and_true]
    exact ⟨⟨plainText_ascii (by decide +kernel), m.context.level.textual⟩,
      ⟨plainText_ascii (by decide +kernel), .string h.file⟩,
      ⟨plainText_ascii (by decide +kernel), .uint64 _⟩,
      ⟨plainText_ascii (by decide +kernel), .string h.method⟩,
      ⟨plainText_ascii (by decide +kernel), .string h.hostname⟩,
      ⟨plainText_ascii (by decide +kernel), .string h.threadName⟩,
      ⟨plainText_ascii (by decide +kernel), .string htime⟩⟩
  case refine_2 =>
    split
    case isTrue =>
      exact List.forall_mem_singleton.mpr ⟨plainText_ascii (by decide +kernel), .string h.context⟩
    case isFalse => exact List.forall_mem_nil _

theorem LogMessage.textual (hL : L.Exact) (hP : P.Plain) {m : LogMessage} (h : m.Plain) :
    Textual (m.toVariant L P) := by
  rw [LogMessage.toVariant_eq]
  refine textual_object ?_
  simp only [List.forall_mem_cons, List.not_mem_nil, false_imp_iff, implies_true, and_true]
  exact ⟨⟨plainText_ascii (by decide +kernel), LogContext.textual hL hP h⟩,
    ⟨plainText_ascii (by decide +kernel), .string h.format⟩,
    ⟨plainText_ascii (by decide +kernel), h.args⟩⟩

theorem nesting_string (s : Bytes) : (Variant.string s).nesting = 0 := by
  simp [Variant.nesting]

theorem nesting_uint64 (i : UInt64) : (Variant.uint64 i).nesting = 0 := by
  simp [Variant.nesting]

theorem nesting_int64 (i : Int64) : (Variant.int64 i).nesting = 0 := by
  simp [Variant.nesting]

-- The entries of a context are strings and numbers.
theorem LogContext.nesting_le (c : LogContext) : (c.toVariant L P).nesting ≤ 1 := by
  rw [toVariant_eq, nesting_object_le]
  refine List.forall_mem_append.mpr ⟨?_, ?_⟩
  case refine_1 =>
    simp only [List.forall_mem_cons, List.not_mem_nil, false_imp_iff, implies_true, and_true]
    simp only [LogLevel.toVariant, nesting_string, nesting_uint64, zero_lt_one, and_self]
  case refine_2 =>
    split
    case isTrue   => exact List.forall_mem_singleton.mpr (nesting_string _ ▸ zero_lt_one)
    case isFalse  => exact List.forall_mem_nil _

theorem LogMessage.nesting_le {m : LogMessage} {n : Nat} (h : (Variant.object m.args).nesting ≤ n) :
    (m.toVariant L P).nesting ≤ n + 2 := by
  have hc := m.context.nesting_le (L := L) (P := P)
  rw [toVariant_eq, nesting_object_le]
  simp only [List.forall_mem_cons, List.not_mem_nil, false_imp_iff, implies_true, and_true]
  exact ⟨by omega, by rw [nesting_string]; omega, by omega⟩

end Log

namespace Exception

open Ascii Json Variant MutableVariantObject Typed Log

variable {L : LexicalCast} {D : Doubles} {P : PosixTime} {format : OutputFormatting}

structure Plain (e : Exception) : Prop where
  name   : PlainText e.name
  what   : PlainText e.what
  elog   : ∀ m ∈ e.elog, m.Plain
  length : e.elog.length ≤ Raw.maxNumArrayElements

theorem toVariant_eq {e : Exception} (h : e.Plain) : e.toVariant L P = .ok (.object [
    (ascii "code", .int64 e.code), (ascii "name", .string e.name), (ascii "message", .string e.what),
    (ascii "stack", .array (e.elog.map (LogMessage.toVariant L P)))]) := by
  have hm : messagesToVariant L P e.elog = .ok (.array (e.elog.map (LogMessage.toVariant L P))) :=
    if_neg (not_lt.mpr h.length)
  rw [toVariant, hm, cStr_of_plainText h.name, cStr_of_plainText h.what]
  rfl

-- What is left of a message: the tags of numbers in its data, and the name of its task, are lost.
def reread (format : OutputFormatting) (m : LogMessage) : LogMessage where
  context := { m.context with taskName := [] }
  format  := m.format
  args    := m.args.map fun e => (e.1, Json.reread format e.2)

theorem mapM_fromVariant (hL : L.Exact) (hP : P.Exact) {ms : List LogMessage}
    (h : ∀ m ∈ ms, m.Plain) :
    (ms.map fun m => Json.reread format (m.toVariant L P)).mapM (LogMessage.fromVariant L D P) =
      .ok (ms.map (reread format)) := by
  induction ms
  case nil => rfl
  case cons m ms hi =>
    obtain ⟨hm, hms⟩ := List.forall_mem_cons.mp h
    have := LogMessage.fromVariant_reread D format hL hP m hm.timestamp
    rw [List.map_cons, List.mapM_cons, this, Except.ok_bind, hi hms]
    rfl

-- An exception is read back from what is read of its variant.
theorem fromVariant_reread (hL : L.Exact) (hP : P.Exact) {e : Exception} (h : e.Plain)
    {v : Variant} (hv : e.toVariant L P = .ok v) (ll : Exception) :
    fromVariant L D P ll (Json.reread format v) =
      .ok { e with elog := e.elog.map (reread format) } := by
  cases (toVariant_eq h).symm.trans hv
  have hstack : messagesFromVariant L D P
      (.array (e.elog.map fun m => Json.reread format (m.toVariant L P))) =
        .ok (e.elog.map (reread format)) := by
    have hlen : ¬Raw.maxNumArrayElements <
        (e.elog.map fun m => Json.reread format (m.toVariant L P)).length := by
      rw [List.length_map]
      exact not_lt.mpr h.length
    exact (if_neg hlen).trans (mapM_fromVariant hL hP h.elog)
  have hcode : lift ((Json.reread format (.int64 e.code)).asInt64 L D) = .ok e.code := by
    rw [asInt64_reread hL]
    rfl
  rw [reread_object]
  generalize hes : List.map (fun e : Entry => (e.1, Json.reread format e.2)) _ = es
  have hs : VariantObject.find es (ascii "stack") =
      some (.array (e.elog.map fun m => Json.reread format (m.toVariant L P))) := by
    rw [← hes]
    change some (Json.reread format (.array (e.elog.map (LogMessage.toVariant L P)))) = _
    rw [reread_array, List.map_map]
    rfl
  have hc : VariantObject.find es (ascii "code") = some (Json.reread format (.int64 e.code)) := by
    rw [← hes]
    rfl
  have hn : VariantObject.find es (ascii "name") = some (.string e.name) := by
    rw [← hes]
    rfl
  have hm : VariantObject.find es (ascii "message") = some (.string e.what) := by
    rw [← hes]
    rfl
  have hobject : lift (getObject (.object es)) = .ok es := rfl
  simp only [fromVariant, hobject, Except.ok_bind, hs, hstack, hc, hcode, hn, hm]
  rfl

theorem textual (hL : L.Exact) (hP : P.Plain) {e : Exception} (h : e.Plain) {v : Variant}
    (hv : e.toVariant L P = .ok v) : Textual v := by
  cases (toVariant_eq h).symm.trans hv
  refine textual_object ?_
  simp only [List.forall_mem_cons, List.not_mem_nil, false_imp_iff, implies_true, and_true]
  exact ⟨⟨plainText_ascii (by decide +kernel), .int64 _⟩,
    ⟨plainText_ascii (by decide +kernel), .string h.name⟩,
    ⟨plainText_ascii (by decide +kernel), .string h.what⟩,
    ⟨plainText_ascii (by decide +kernel), .array (List.forall_mem_map.mpr fun m hm =>
      LogMessage.textual hL hP (h.elog m hm))⟩⟩

theorem nesting_le {e : Exception} (h : e.Plain) {n : Nat}
    (hn : ∀ m ∈ e.elog, (Variant.object m.args).nesting ≤ n) {v : Variant}
    (hv : e.toVariant L P = .ok v) :
    v.nesting ≤ n + 4 := by
  cases (toVariant_eq h).symm.trans hv
  have harray : (Variant.array (e.elog.map (LogMessage.toVariant L P))).nesting ≤ n + 3 := by
    rw [nesting_array_le, List.forall_mem_map]
    intro m hm
    have := LogMessage.nesting_le (L := L) (P := P) (hn m hm)
    omega
  rw [nesting_object_le]
  simp only [List.forall_mem_cons, List.not_mem_nil, false_imp_iff, implies_true, and_true]
  exact ⟨by rw [nesting_int64]; omega, by rw [nesting_string]; omega,
    by rw [nesting_string]; omega, by omega⟩

-- The class under which an object is thrown again is that of its code.
theorem dynamicRethrow_eq {ι : Type} {cs : List Derived} (hn : (cs.map Derived.code).Nodup)
    {cls : Class} (hc : ∀ c, cls = .derived c → c ∈ cs) (e : Exception) :
    dynamicRethrow (ι := ι) (factory cs) cls e none = rethrow (factory cs) e := by
  cases cls
  case derived c =>
    rw [dynamicRethrow]
    split
    case isTrue h => rw [rethrow, h, factory_of_mem hn (hc c rfl)]
    case isFalse  => rfl
  all_goals rfl

def Thrown.cls {ι : Type} : Thrown ι → Option Class
  | .fc cls _ _ => some cls
  | .foreign _  => none

theorem plain_firstMinute : PosixTime.Plain TimePoint.firstMinute where
  extended h b hb := by
    obtain ⟨ds, htext, hdigits, _⟩ := TimePoint.firstMinute_text h
    rw [htext] at hb
    rcases List.mem_append.mp hb with hb | hb
    case inl =>
      have hall : ∀ b ∈ ascii "1970-01-01T00:00:", Unchanged b := by decide +kernel
      exact hall b hb
    case inr => exact unchanged_digit (hdigits b hb)

-- A parse error with one message.
def parseError : Exception where
  code := 4
  name := ascii "parse_error_exception"
  what := ascii "Parse Error"
  elog := [{ format := ascii "bad", args := [(ascii "line", .int64 7)] }]

theorem parseError_plain : parseError.Plain where
  name   := plainText_ascii (by decide +kernel)
  what   := plainText_ascii (by decide +kernel)
  length := by decide
  elog   := List.forall_mem_singleton.mpr {
    file       := ⟨[], rfl, List.forall_mem_nil _⟩
    method     := ⟨[], rfl, List.forall_mem_nil _⟩
    threadName := ⟨[], rfl, List.forall_mem_nil _⟩
    hostname   := ⟨[], rfl, List.forall_mem_nil _⟩
    context    := ⟨[], rfl, List.forall_mem_nil _⟩
    timestamp  := ⟨by decide, by decide, by decide⟩
    format     := plainText_ascii (by decide +kernel)
    args       := textual_object (List.forall_mem_singleton.mpr
      ⟨plainText_ascii (by decide +kernel), .int64 7⟩) }

end Exception
