import FcModel.Io.Json.Layout
import FcModel.Io.Json.Length
import FcModel.Lib.Find
import FcModel.Variant.Equality
import FcModel.Variant.Object

-- `format_string`: the templates whose placeholders it substitutes, and what becomes of them.

namespace FormatString

open Ascii Utf8 Json

def dollar : UInt8 := 0x24

def minimizeMaxSize : Nat := 1024

-- The exceptions that are not caught. A run of the loop that exceeds the bound on its rounds ends
-- with `fuel`.
inductive FormatError
  | cast (e : Variant.CastError)
  | fuel
deriving DecidableEq, Repr

-- `string::find` for a character. There is no position if there is none of the character.
def find (str : Bytes) (c : UInt8) (pos : Nat) : Option Nat :=
  ((str.drop pos).findIdx? (· = c)).map (pos + ·)

def substr (str : Bytes) (pos len : Nat) : Bytes :=
  (str.drop pos).take len

-- `escape_string` with no function to call, and no control characters to escape but those that are
-- always.
def escapeStringNull (str : Bytes) : Bytes :=
  match @escapeString Empty (fun _ => return ()) str false with
  | .ok r    => r
  | .error e => e.elim

def cleanAppend (app s : Bytes) : Bytes :=
  app ++ escapeStringNull s

-- `minimize_max_size - size` for a `size_t`.
def remaining (size : Nat) : Nat :=
  (minimizeMaxSize + (2 ^ 64 - size % 2 ^ 64)) % 2 ^ 64

section Format

variable (L : LexicalCast) (args : List (Bytes × Variant)) (minimize : Bool)

-- The `to_string` of the code, with the limit it is called with.
def jsonText (subMaxSize : Nat) (val : Variant) : Except Error Bytes :=
  if minimize then toStringWithin L .stringifyLargeIntsAndDoubles (.ofNat subMaxSize) val
  else toStringUnlimited L .stringifyLargeIntsAndDoubles val

-- The result with the value of the key appended, or `none` if it is not replaced.
def appendValue (subMaxSize : Nat) (result : Bytes) : Variant → Except FormatError (Option Bytes)
  | .string s =>
    if minimize ∧ subMaxSize < s.length then
      let sz := min subMaxSize (remaining result.length)
      return some (cleanAppend result (s.take sz) ++ ascii "...")
    else
      return some (cleanAppend result s)
  | .blob data =>
    if minimize ∧ subMaxSize < data.length then return none
    else return some (cleanAppend result (blobToString data))
  | .object o =>
    if minimize ∧ minimizeMaxSize ≤ result.length then return none
    else return (jsonText L minimize subMaxSize (.object o)).toOption.map (result ++ ·)
  | .array a =>
    if minimize ∧ minimizeMaxSize ≤ result.length then return none
    else return (jsonText L minimize subMaxSize (.array a)).toOption.map (result ++ ·)
  | val =>
    match val.asString L with
    | .ok s    => return some (cleanAppend result s)
    | .error e => throw (.cast e)

-- What a placeholder is replaced by is appended, or the placeholder itself.
def replace (subMaxSize : Nat) (result key : Bytes) : Except FormatError Bytes := do
  let replaced ← match VariantObject.find args key with
    | none     => pure none
    | some val => appendValue L minimize subMaxSize result val
  return replaced.getD (cleanAppend (result ++ [dollar, openBrace]) key ++ [closeBrace])

-- The loop. `next` is `none` for `npos`, and `format[prev]` is a NUL at the end.
def formatLoop (subMaxSize : Nat) (format : Bytes) :
    Nat → (result : Bytes) → (prev : Nat) → (next : Option Nat) → Except FormatError Bytes
  | 0, _, _, _                   => throw .fuel
  | fuel + 1, result, prev, next => do
    if format.length ≤ prev then return result
    else
      match next with
      | none      => return cleanAppend result (format.drop prev)
      | some next =>
        let result := cleanAppend result (substr format prev (next - prev))
        if minimize ∧ minimizeMaxSize < result.length then return result ++ ascii "..."
        else
          let prev := next + 1
          if format[prev]?.getD 0 = openBrace then
            match find format closeBrace prev with
            | some next =>
              let key := substr format (prev + 1) (next - prev - 1)
              let result ← replace L args minimize subMaxSize result key
              formatLoop subMaxSize format fuel result (next + 1) (find format dollar (next + 1))
            | none      => formatLoop subMaxSize format fuel result prev none
          else
            let result := cleanAppend result (substr format prev 1)
            formatLoop subMaxSize format fuel result (prev + 1) (find format dollar (prev + 1))

-- The share of each argument in what is left of the size when the template itself is counted.
def subMaxSize (format : Bytes) : Nat :=
  let argNum := if args.length = 0 then 1 else args.length
  if minimize then (max minimizeMaxSize format.length - format.length) / argNum else minimizeMaxSize

def formatString (frmt : Bytes) : Except FormatError Bytes :=
  let format :=
    if minimize ∧ minimizeMaxSize < frmt.length then frmt.take minimizeMaxSize ++ ascii "..." else frmt
  formatLoop L args minimize (subMaxSize args minimize format) format (format.length + 2) [] 0 (find format dollar 0)

end Format

section Positions

variable {s t before : Bytes} {c : UInt8}

theorem find_append_length (s before : Bytes) (c : UInt8) :
    find (before ++ s) c before.length = (s.findIdx? (· = c)).map (before.length + ·) := by
  rw [find, List.drop_left]

theorem find_append_cons (hs : c ∉ s) :
    find (before ++ (s ++ c :: t)) c before.length = some (before.length + s.length) := by
  rw [find_append_length, List.findIdx?_append_cons hs]
  rfl

theorem find_append_none (hs : c ∉ s) : find (before ++ s) c before.length = none := by
  rw [find_append_length, List.findIdx?_of_not_mem hs]
  rfl

theorem substr_append (before s t : Bytes) :
    substr (before ++ (s ++ t)) before.length s.length = s := by
  rw [substr, List.drop_left, List.take_left]

end Positions

-- What is left of a string that is appended.
def cleaned (s : Bytes) : Bytes :=
  let r := s.flatMap (escapeChar false)
  if isValidUtf8 r then r else pruneInvalidUtf8 r

theorem escapeStringNull_eq (s : Bytes) : escapeStringNull s = cleaned s := by
  have hgo (k i : Nat) (r : Bytes) :
      @escapeString.go Empty (fun _ => return ()) false k i r s = .ok (r ++ s.flatMap (escapeChar false)) := by
    induction s generalizing i r
    case nil => simp [escapeString.go]; rfl
    case cons c s hi =>
      rw [escapeString.go, hi, List.flatMap_cons, List.append_assoc]
      split <;> rfl
  rw [escapeStringNull, escapeString, hgo, cleaned, List.nil_append]
  rfl

theorem cleanAppend_eq (app s : Bytes) : cleanAppend app s = app ++ cleaned s := by
  rw [cleanAppend, escapeStringNull_eq]

theorem prunes_cleaned (s : Bytes) : Prunes (s.flatMap (escapeChar false)) (cleaned s) := by
  rw [cleaned]
  split
  case isFalse => exact prunes_pruneInvalidUtf8 _
  case isTrue hv =>
    have hp := prunes_pruneInvalidUtf8 (s.flatMap (escapeChar false))
    rwa [pruneInvalidUtf8_eq, if_pos (of_decide_eq_true hv)] at hp

@[simp]
theorem cleaned_nil : cleaned [] = [] :=
  rfl

-- Some text and the first `$` behind it, with the placeholder it starts or the character that
-- follows it.
inductive Piece
  | placeholder (chunk key : Bytes) (hchunk : dollar ∉ chunk) (hkey : closeBrace ∉ key)
  | lone (chunk : Bytes) (c : UInt8) (hchunk : dollar ∉ chunk) (hc : c ≠ openBrace)

def Piece.text : Piece → Bytes
  | placeholder chunk key _ _ => chunk ++ dollar :: openBrace :: (key ++ [closeBrace])
  | lone chunk c _ _          => chunk ++ [dollar, c]

-- What is behind the last piece. A `$` at the very end and a placeholder that is not closed are
-- different.
inductive Ending
  | chunk (s : Bytes) (hs : dollar ∉ s)
  | lone (s : Bytes) (hs : dollar ∉ s)
  | unclosed (s key : Bytes) (hs : dollar ∉ s) (hkey : closeBrace ∉ key)

def Ending.text : Ending → Bytes
  | chunk s _          => s
  | lone s _           => s ++ [dollar]
  | unclosed s key _ _ => s ++ dollar :: openBrace :: key

structure Template where
  pieces : List Piece
  ending : Ending

def Template.text (t : Template) : Bytes :=
  t.pieces.flatMap Piece.text ++ t.ending.text

-- Every string is a template.
theorem exists_template (s : Bytes) : ∃ t : Template, t.text = s := by
  induction hn : s.length using Nat.strong_induction_on generalizing s
  case h n hi =>
    by_cases hs : dollar ∈ s
    case neg => exact ⟨⟨[], .chunk s hs⟩, rfl⟩
    case pos =>
      obtain ⟨a, r, rfl, ha⟩ := List.eq_append_cons_of_mem hs
      cases r
      case nil => exact ⟨⟨[], .lone a ha⟩, rfl⟩
      case cons c r =>
        by_cases hc : c = openBrace
        case neg =>
          obtain ⟨t, ht⟩ := hi r.length (by simp at hn; omega) r rfl
          exact ⟨⟨.lone a c ha hc :: t.pieces, t.ending⟩, by simp [Template.text, Piece.text, ← ht]⟩
        case pos =>
          subst hc
          by_cases hr : closeBrace ∈ r
          case neg => exact ⟨⟨[], .unclosed a r ha hr⟩, rfl⟩
          case pos =>
            obtain ⟨key, rest, rfl, hkey⟩ := List.eq_append_cons_of_mem hr
            obtain ⟨t, ht⟩ := hi rest.length (by simp at hn; omega) rest rfl
            exact ⟨⟨.placeholder a key ha hkey :: t.pieces, t.ending⟩, by simp [Template.text, Piece.text, ← ht]⟩

section Expand

variable (L : LexicalCast) (args : List (Bytes × Variant)) (minimize : Bool) (subMaxSize : Nat)

-- The result is cut off behind a text that exceeds the size, if something follows.
def cutOff (result : Bytes) (continued : Bytes → Except FormatError Bytes) :
    Except FormatError Bytes :=
  if minimize ∧ minimizeMaxSize < result.length then .ok (result ++ ascii "...") else continued result

def Ending.expand (result : Bytes) : Ending → Except FormatError Bytes
  | chunk s _          => .ok (result ++ cleaned s)
  | lone s _           => cutOff minimize (result ++ cleaned s) fun result => .ok result
  | unclosed s key _ _ => cutOff minimize (result ++ cleaned s) fun result => .ok (result ++ cleaned (openBrace :: key))

-- Piece by piece, what is appended to the result. A `$` that starts no placeholder is left out.
def expand (e : Ending) : List Piece → (result : Bytes) → Except FormatError Bytes
  | [], result                             => e.expand minimize result
  | .placeholder chunk key _ _ :: ps, result =>
    cutOff minimize (result ++ cleaned chunk) fun result => do
      let result ← replace L args minimize subMaxSize result key
      expand e ps result
  | .lone chunk c _ _ :: ps, result          =>
    cutOff minimize (result ++ cleaned chunk) fun result => expand e ps (result ++ cleaned [c])

end Expand

section Loop

variable {L : LexicalCast} {args : List (Bytes × Variant)} {minimize : Bool} {size : Nat}
    {format : Bytes}

-- One round of the loop, up to the first `$` behind `before`.
theorem formatLoop_dollar {before s rest : Bytes} (hs : dollar ∉ s) (fuel : Nat) (result : Bytes)
    (hf : format = before ++ (s ++ dollar :: rest)) :
    formatLoop L args minimize size format (fuel + 1) result before.length (find format dollar before.length) =
      cutOff minimize (result ++ cleaned s) fun result =>
        if rest.headD 0 = openBrace then
          match find format closeBrace (before ++ (s ++ [dollar])).length with
          | some next => do
            let result ← replace L args minimize size result
              (substr format ((before ++ (s ++ [dollar])).length + 1) (next - (before ++ (s ++ [dollar])).length - 1))
            formatLoop L args minimize size format fuel result (next + 1) (find format dollar (next + 1))
          | none      => formatLoop L args minimize size format fuel result (before ++ (s ++ [dollar])).length none
        else
          formatLoop L args minimize size format fuel (result ++ cleaned (rest.take 1))
            ((before ++ (s ++ [dollar])).length + 1) (find format dollar ((before ++ (s ++ [dollar])).length + 1)) := by
  have hnext : find format dollar before.length = some (before.length + s.length) := by rw [hf, find_append_cons hs]
  have hlen : ¬format.length ≤ before.length := by rw [hf]; simp
  have hsub : substr format before.length (before.length + s.length - before.length) = s := by
    rw [hf, Nat.add_sub_cancel_left, substr_append]
  have hprev : before.length + s.length + 1 = (before ++ (s ++ [dollar])).length := by simp; omega
  have hsplit : format = (before ++ (s ++ [dollar])) ++ rest := by rw [hf]; simp
  have hchar : format[(before ++ (s ++ [dollar])).length]?.getD 0 = rest.headD 0 := by
    rw [hsplit, List.getElem?_append_right (Nat.le_refl _), Nat.sub_self]
    cases rest <;> rfl
  have htake : substr format (before ++ (s ++ [dollar])).length 1 = rest.take 1 := by
    rw [hsplit, substr, List.drop_left]
  rw [hnext, formatLoop, if_neg hlen]
  simp only [hsub, cleanAppend_eq, hprev, hchar, htake]
  rfl

-- The end of the template, where no `$` is left.
theorem formatLoop_last {before s : Bytes} (fuel : Nat) (result : Bytes)
    (hf : format = before ++ s) :
    formatLoop L args minimize size format (fuel + 1) result before.length none = .ok (result ++ cleaned s) := by
  rw [formatLoop]
  split
  case isTrue h =>
    rw [hf, List.length_append] at h
    rw [List.length_eq_zero_iff.mp (by omega : s.length = 0), cleaned_nil, List.append_nil]
    rfl
  case isFalse => rw [cleanAppend_eq, hf, List.drop_left]; rfl

-- The loop is left when it is beyond the end.
theorem formatLoop_beyond {prev : Nat} {next : Option Nat} (fuel : Nat) (result : Bytes)
    (hf : format.length ≤ prev) :
    formatLoop L args minimize size format (fuel + 1) result prev next = .ok result := by
  cases next
  case none => rw [formatLoop, if_pos hf]; rfl
  case some => rw [formatLoop, if_pos hf]; rfl

theorem formatLoop_ending {before : Bytes} (e : Ending) (fuel : Nat) (result : Bytes)
    (hf : format = before ++ e.text) :
    formatLoop L args minimize size format (fuel + 2) result before.length (find format dollar before.length) =
      e.expand minimize result := by
  cases e
  case chunk s hs =>
    have hnone : find format dollar before.length = none := by rw [hf, Ending.text, find_append_none hs]
    rw [hnone, formatLoop_last _ _ hf]
    rfl
  case lone s hs =>
    rw [formatLoop_dollar hs _ _ hf, Ending.expand]
    congr 1
    funext result
    have hbrace : ¬([] : Bytes).headD 0 = openBrace := by decide
    rw [if_neg hbrace, formatLoop_beyond _ _ (by rw [hf, Ending.text]; simp), List.take_nil,
      cleaned_nil, List.append_nil]
  case unclosed s key hs hkey =>
    rw [formatLoop_dollar hs _ _ hf, Ending.expand]
    congr 1
    funext result
    have hsplit : format = (before ++ (s ++ [dollar])) ++ (openBrace :: key) := by rw [hf, Ending.text]; simp
    have hclose : closeBrace ∉ openBrace :: key := List.not_mem_cons_of_ne_of_not_mem (by decide) hkey
    have hnone : find format closeBrace (before ++ (s ++ [dollar])).length = none := by
      rw [hsplit, find_append_none hclose]
    rw [List.headD_cons, if_pos rfl, hnone]
    exact formatLoop_last _ _ hsplit

-- Each piece is a round.
theorem formatLoop_eq {before : Bytes} (ps : List Piece) (e : Ending) (fuel : Nat) (result : Bytes)
    (hf : format = before ++ (ps.flatMap Piece.text ++ e.text)) (hfuel : ps.length + 2 ≤ fuel) :
    formatLoop L args minimize size format fuel result before.length (find format dollar before.length) =
      expand L args minimize size e ps result := by
  induction ps generalizing before fuel result
  case nil =>
    obtain ⟨fuel, rfl⟩ : ∃ k, fuel = k + 2 := ⟨fuel - 2, by simp at hfuel; omega⟩
    exact formatLoop_ending e fuel result hf
  case cons p ps hi =>
    obtain ⟨fuel, rfl⟩ : ∃ k, fuel = k + 1 := ⟨fuel - 1, by omega⟩
    have hrounds : ps.length + 2 ≤ fuel := by simpa using hfuel
    -- The rest of the template, behind the piece.
    have hrest : format = (before ++ p.text) ++ (ps.flatMap Piece.text ++ e.text) := by rw [hf]; simp
    cases p
    case placeholder chunk key hchunk hkey =>
      have hdollar : format = before ++ (chunk ++ dollar :: (openBrace :: (key ++ closeBrace :: (ps.flatMap Piece.text ++ e.text)))) := by
        rw [hf]; simp [Piece.text]
      have hsplit : format = (before ++ (chunk ++ [dollar])) ++ ((openBrace :: key) ++ closeBrace :: (ps.flatMap Piece.text ++ e.text)) := by
        rw [hdollar]; simp
      have hclose : closeBrace ∉ openBrace :: key := List.not_mem_cons_of_ne_of_not_mem (by decide) hkey
      have hfind : find format closeBrace (before ++ (chunk ++ [dollar])).length =
          some ((before ++ (chunk ++ [dollar])).length + (openBrace :: key).length) := by
        rw [hsplit, find_append_cons hclose]
      have hkeySub : substr format ((before ++ (chunk ++ [dollar])).length + 1)
          ((before ++ (chunk ++ [dollar])).length + (openBrace :: key).length - (before ++ (chunk ++ [dollar])).length - 1) = key := by
        have hsplit' : format = (before ++ (chunk ++ [dollar, openBrace])) ++ (key ++ closeBrace :: (ps.flatMap Piece.text ++ e.text)) := by
          rw [hdollar]; simp
        have hpos : (before ++ (chunk ++ [dollar])).length + 1 = (before ++ (chunk ++ [dollar, openBrace])).length := by
          simp [Nat.add_assoc]
        rw [hpos, hsplit', Nat.add_sub_cancel_left, List.length_cons, Nat.add_sub_cancel,
          substr_append]
      have hend : (before ++ (chunk ++ [dollar])).length + (openBrace :: key).length + 1 =
          (before ++ (Piece.placeholder chunk key hchunk hkey).text).length := by
        simp [Piece.text]; omega
      rw [formatLoop_dollar hchunk _ _ hdollar, expand]
      congr 1
      funext result
      rw [List.headD_cons, if_pos rfl, hfind]
      simp only [hkeySub, hend]
      congr 1
      funext result
      exact hi fuel result hrest hrounds
    case lone chunk c hchunk hc =>
      have hdollar : format = before ++ (chunk ++ dollar :: (c :: (ps.flatMap Piece.text ++ e.text))) := by
        rw [hf]; simp [Piece.text]
      have hend : (before ++ (chunk ++ [dollar])).length + 1 = (before ++ (Piece.lone chunk c hchunk hc).text).length := by
        simp [Piece.text, Nat.add_assoc]
      rw [formatLoop_dollar hchunk _ _ hdollar, expand]
      congr 1
      funext result
      rw [List.headD_cons, if_neg hc, hend]
      exact hi fuel _ hrest hrounds

theorem length_le_flatMap_text (ps : List Piece) : ps.length ≤ (ps.flatMap Piece.text).length := by
  induction ps
  case nil => exact Nat.le_refl _
  case cons p ps hi =>
    have hp : 1 ≤ p.text.length := by
      cases p <;> simp only [Piece.text, List.length_append, List.length_cons] <;> omega
    rw [List.flatMap_cons, List.length_append, List.length_cons]
    omega

-- The function goes through the pieces of its template one by one.
theorem formatString_text (t : Template) (ht : minimize = true → t.text.length ≤ minimizeMaxSize) :
    formatString L args minimize t.text =
      expand L args minimize (subMaxSize args minimize t.text) t.ending t.pieces [] := by
  have hformat : ¬(minimize = true ∧ minimizeMaxSize < t.text.length) := fun h => absurd (ht h.1) (Nat.not_le.mpr h.2)
  have hfuel : t.pieces.length + 2 ≤ t.text.length + 2 := by
    have hpieces := length_le_flatMap_text t.pieces
    rw [Template.text, List.length_append]
    omega
  rw [formatString, if_neg hformat]
  exact @formatLoop_eq L args minimize (subMaxSize args minimize t.text) t.text [] t.pieces t.ending _ [] rfl hfuel

end Loop

section Cleaned

theorem cleaned_unique {s t : Bytes} (h : Prunes (s.flatMap (escapeChar false)) t) :
    cleaned s = t :=
  (prunes_cleaned s).unique h

-- The text of a placeholder is cleaned as its key is.
theorem cleaned_placeholder (key : Bytes) :
    cleaned ([dollar, openBrace] ++ key ++ [closeBrace]) = [dollar, openBrace] ++ cleaned key ++ [closeBrace] := by
  obtain ⟨cs, hcs, hno⟩ := @exists_encode_of_lt [dollar, openBrace] (by decide +kernel)
  have hkey := ((prunes_cleaned key).append_ascii (b := closeBrace) (by decide)).encode cs
  rw [flatMap_pruneChar hno, ← hcs] at hkey
  apply cleaned_unique
  rw [List.append_assoc, List.flatMap_append, List.flatMap_append, List.append_assoc]
  exact hkey

end Cleaned

-- A text without `$` and the placeholder behind it.
structure Placeholder where
  chunk       : Bytes
  key         : Bytes
  chunkDollar : dollar ∉ chunk
  keyBrace    : closeBrace ∉ key
  keyNul      : 0 ∉ key

-- A template of such texts and placeholders, which a text may follow.
structure PlainTemplate where
  placeholders : List Placeholder
  last         : Bytes
  lastDollar   : dollar ∉ last

def placeholderText (key : Bytes) : Bytes :=
  [dollar, openBrace] ++ key ++ [closeBrace]

def PlainTemplate.text (t : PlainTemplate) : Bytes :=
  t.placeholders.flatMap (fun p => p.chunk ++ placeholderText p.key) ++ t.last

-- The text of a value: what `as_string` returns, cleaned, or JSON.
def valueText (L : LexicalCast) : Variant → Bytes
  | .array a  => Json.text L .stringifyLargeIntsAndDoubles (.array a)
  | .object o => Json.text L .stringifyLargeIntsAndDoubles (.object o)
  | val       => cleaned ((val.asString L).toOption.getD [])

-- What stands in the place of a placeholder: the text of the first entry with the key, or the
-- placeholder.
def substituted (L : LexicalCast) (args : List (Bytes × Variant)) (key : Bytes) : Bytes :=
  match args.find? (·.1 = key) with
  | some e => valueText L e.2
  | none   => cleaned (placeholderText key)

section Substitution

variable {L : LexicalCast} {args : List (Bytes × Variant)} {size : Nat}

theorem appendValue_unlimited (result : Bytes) (val : Variant) :
    appendValue L false size result val = .ok (some (result ++ valueText L val)) := by
  cases val
  case array =>
    simp only [appendValue, Bool.false_eq_true, false_and, if_false, jsonText, toStringUnlimited_eq,
      valueText]
    rfl
  case object =>
    simp only [appendValue, Bool.false_eq_true, false_and, if_false, jsonText, toStringUnlimited_eq,
      valueText]
    rfl
  all_goals
    simp only [appendValue, Bool.false_eq_true, false_and, if_false, cleanAppend_eq]
    rfl

theorem replace_unlimited {key : Bytes} (hkey : 0 ∉ key) (result : Bytes) :
    replace L args false size result key = .ok (result ++ substituted L args key) := by
  rw [replace, VariantObject.find, MutableVariantObject.cStr_eq_self hkey, substituted]
  cases args.find? fun e => e.1 = key
  case none =>
    rw [placeholderText, cleaned_placeholder]
    simp [cleanAppend_eq]
    rfl
  case some e =>
    simp only [Option.map_some, appendValue_unlimited]
    rfl

def Placeholder.piece (p : Placeholder) : Piece :=
  .placeholder p.chunk p.key p.chunkDollar p.keyBrace

def PlainTemplate.template (t : PlainTemplate) : Template :=
  ⟨t.placeholders.map Placeholder.piece, .chunk t.last t.lastDollar⟩

theorem PlainTemplate.text_template (t : PlainTemplate) : t.template.text = t.text := by
  simp [template, Template.text, text, Ending.text, List.flatMap_map, Placeholder.piece, Piece.text,
    placeholderText]

theorem expand_plain (ps : List Placeholder) (last : Bytes) (h : dollar ∉ last) (result : Bytes) :
    expand L args false size (.chunk last h) (ps.map Placeholder.piece) result =
      .ok (result ++ ps.flatMap (fun p => cleaned p.chunk ++ substituted L args p.key) ++ cleaned last) := by
  induction ps generalizing result
  case nil => simp [expand, Ending.expand]
  case cons p ps hi =>
    rw [List.map_cons, Placeholder.piece, expand]
    simp only [cutOff, Bool.false_eq_true, false_and, if_false, replace_unlimited p.keyNul,
      List.flatMap_cons]
    refine (hi (result ++ cleaned p.chunk ++ substituted L args p.key)).trans ?_
    simp only [List.append_assoc]

theorem formatString_substitutes (L : LexicalCast) (args : List (Bytes × Variant))
    (t : PlainTemplate) :
    formatString L args false t.text =
      .ok (t.placeholders.flatMap (fun p => cleaned p.chunk ++ substituted L args p.key) ++ cleaned t.last) := by
  rw [← PlainTemplate.text_template, formatString_text _ (by simp)]
  simpa [PlainTemplate.template] using expand_plain t.placeholders t.last t.lastDollar []

end Substitution

end FormatString
