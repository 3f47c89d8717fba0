import FcModel.Variant.FormatString

-- The size of what `format_string` returns when it minimizes.

namespace FormatString

open Ascii Json

def dots : Bytes :=
  ascii "..."

section Sizes

variable (L : LexicalCast) (args : List (Bytes × Variant)) (share bound : Nat)

-- What a value is replaced by where the result has `size` bytes, or `none` if it is not replaced.
def limitedValue (size : Nat) : Variant → Option Bytes
  | .string s  =>
    if share < s.length then cleaned (s.take (min share (minimizeMaxSize - size))) ++ dots else cleaned s
  | .blob data => if share < data.length then none else cleaned (blobToString data)
  | .object o  => if minimizeMaxSize ≤ size then none else (jsonText L true share (.object o)).toOption
  | .array a   => if minimizeMaxSize ≤ size then none else (jsonText L true share (.array a)).toOption
  | val        => cleaned ((val.asString L).toOption.getD [])

def replacement (size : Nat) (key : Bytes) : Bytes :=
  ((VariantObject.find args key).bind (limitedValue L share size)).getD
    ([dollar, openBrace] ++ cleaned key ++ [closeBrace])

-- A size over 1024 at a `$` is the last one but for three dots.
def cutWithin (size : Nat) (continued : Prop) : Prop :=
  if minimizeMaxSize < size then size + dots.length < bound else continued

def Ending.Within (size : Nat) : Ending → Prop
  | chunk s _          => size + (cleaned s).length < bound
  | lone s _           => cutWithin bound (size + (cleaned s).length) (size + (cleaned s).length < bound)
  | unclosed s key _ _ =>
    cutWithin bound (size + (cleaned s).length)
      (size + (cleaned s).length + (cleaned (openBrace :: key)).length < bound)

-- The sizes of the texts and of what replaces the placeholders add up to less than the bound.
def Within (e : Ending) : List Piece → (size : Nat) → Prop
  | [], size                             => e.Within bound size
  | .placeholder chunk key _ _ :: ps, size =>
    let size := size + (cleaned chunk).length
    cutWithin bound size (Within e ps (size + (replacement L args share size key).length))
  | .lone chunk c _ _ :: ps, size          =>
    let size := size + (cleaned chunk).length
    cutWithin bound size (Within e ps (size + (cleaned [c]).length))

end Sizes

section Limit

variable {L : LexicalCast} {args : List (Bytes × Variant)} {share bound : Nat}

def Bounded (bound : Nat) (r : Except FormatError Bytes) : Prop :=
  ∃ result, r = .ok result ∧ result.length < bound

theorem bounded_ok_iff {result : Bytes} : Bounded bound (.ok result) ↔ result.length < bound := by
  constructor
  case mp =>
    rintro ⟨r, hr, hlen⟩
    cases hr
    exact hlen
  case mpr => exact fun h => ⟨result, rfl, h⟩

theorem bounded_cutOff_iff {result : Bytes} {continued : Bytes → Except FormatError Bytes}
    {p : Prop}
    (h : result.length ≤ minimizeMaxSize → (Bounded bound (continued result) ↔ p)) :
    Bounded bound (cutOff true result continued) ↔ cutWithin bound result.length p := by
  rw [cutOff, cutWithin]
  by_cases hlen : minimizeMaxSize < result.length
  case pos => rw [if_pos ⟨rfl, hlen⟩, if_pos hlen, bounded_ok_iff, List.length_append]; rfl
  case neg => rw [if_neg fun h => hlen h.2, if_neg hlen, h (Nat.not_lt.mp hlen)]

theorem remaining_eq {size : Nat} (h : size ≤ minimizeMaxSize) :
    remaining size = minimizeMaxSize - size := by
  rw [remaining]
  simp only [minimizeMaxSize] at h ⊢
  omega

-- The size never wraps: what exceeds 1024 has been cut off before.
theorem appendValue_limited {result : Bytes} (h : result.length ≤ minimizeMaxSize) (val : Variant) :
    appendValue L true share result val = .ok ((limitedValue L share result.length val).map (result ++ ·)) := by
  cases val
  case string s =>
    by_cases hs : share < s.length
    case neg => simp only [appendValue, limitedValue, hs, and_false, if_false, cleanAppend_eq]; rfl
    case pos =>
      simp only [appendValue, limitedValue, hs, and_self, if_true, remaining_eq h, cleanAppend_eq,
        List.append_assoc]
      rfl
  case blob data =>
    by_cases hdata : share < data.length
    case neg => simp only [appendValue, limitedValue, hdata, and_false, if_false, cleanAppend_eq]; rfl
    case pos => simp only [appendValue, limitedValue, hdata, and_self, if_true]; rfl
  case object o =>
    by_cases hsize : minimizeMaxSize ≤ result.length
    case neg => simp only [appendValue, limitedValue, hsize, and_false, if_false]; rfl
    case pos => simp only [appendValue, limitedValue, hsize, and_self, if_true]; rfl
  case array a =>
    by_cases hsize : minimizeMaxSize ≤ result.length
    case neg => simp only [appendValue, limitedValue, hsize, and_false, if_false]; rfl
    case pos => simp only [appendValue, limitedValue, hsize, and_self, if_true]; rfl
  all_goals
    simp only [appendValue, cleanAppend_eq]
    rfl

theorem replace_limited {result : Bytes} (h : result.length ≤ minimizeMaxSize) (key : Bytes) :
    replace L args true share result key = .ok (result ++ replacement L args share result.length key) := by
  rw [replace, replacement]
  cases VariantObject.find args key
  case none => simp [cleanAppend_eq]; rfl
  case some val =>
    simp only [appendValue_limited h, Option.bind_some]
    cases limitedValue L share result.length val
    case none => simp [cleanAppend_eq]
    case some => rfl

theorem Ending.bounded_expand_iff (e : Ending) (result : Bytes) :
    Bounded bound (e.expand true result) ↔ e.Within bound result.length := by
  cases e
  case chunk => rw [Ending.expand, Ending.Within, bounded_ok_iff, List.length_append]
  case lone s hs =>
    rw [Ending.expand, Ending.Within, ← List.length_append]
    exact bounded_cutOff_iff fun _ => bounded_ok_iff
  case unclosed s key hs hkey =>
    rw [Ending.expand, Ending.Within, ← List.length_append, ← List.length_append]
    exact bounded_cutOff_iff fun _ => bounded_ok_iff

theorem bounded_expand_iff (e : Ending) (ps : List Piece) (result : Bytes) :
    Bounded bound (expand L args true share e ps result) ↔
    Within L args share bound e ps result.length := by
  induction ps generalizing result
  case nil => exact e.bounded_expand_iff result
  case cons p ps hi =>
    cases p
    case lone chunk c hchunk hc =>
      rw [expand, Within, ← List.length_append]
      refine bounded_cutOff_iff fun _ => ?_
      rw [hi, List.length_append]
    case placeholder chunk key hchunk hkey =>
      rw [expand, Within, ← List.length_append]
      refine bounded_cutOff_iff fun hle => ?_
      rw [replace_limited hle, ← List.length_append]
      exact hi _

section Modest

-- The texts of a piece are not longer when they are cleaned.
def Piece.Stays : Piece → Prop
  | placeholder chunk key _ _ => (cleaned chunk).length ≤ chunk.length ∧
  (cleaned key).length ≤ key.length
  | lone chunk c _ _          => (cleaned chunk).length ≤ chunk.length ∧ (cleaned [c]).length ≤ 2

def Ending.Stays : Ending → Prop
  | chunk s _          => (cleaned s).length ≤ s.length
  | lone s _           => (cleaned s).length ≤ s.length
  | unclosed s key _ _ => (cleaned s).length ≤ s.length ∧ (cleaned (openBrace :: key)).length ≤ key.length + 2

-- The keys that are looked up.
def keys : List Piece → List Bytes
  | []                           => []
  | .placeholder _ key _ _ :: ps => MutableVariantObject.cStr key :: keys ps
  | .lone _ _ _ _ :: ps          => keys ps

-- What the shares are meant for: the texts stay as long as they are, each argument is used once,
-- and a value is as long as its share. Only strings are cut to it.
structure Modest (L : LexicalCast) (args : List (Bytes × Variant)) (share : Nat) (t : Template) :
    Prop where
  pieces : ∀ p ∈ t.pieces, p.Stays
  ending : t.ending.Stays
  once   : (keys t.pieces).Nodup
  values : ∀ e ∈ args, ∀ size, ∀ s ∈ limitedValue L share size e.2, s.length ≤ share + dots.length

local instance : LawfulBEq Bytes :=
  inferInstance

-- The arguments among the keys.
def used (args : List (Bytes × Variant)) (ps : List Piece) : Nat :=
  ((keys ps).filter (· ∈ args.map Prod.fst)).length

theorem used_le {ps : List Piece} (h : (keys ps).Nodup) : used args ps ≤ args.length := by
  have hsub : (keys ps).filter (· ∈ args.map Prod.fst) ⊆ args.map Prod.fst := by
    intro k hk
    simpa using (List.mem_filter.mp hk).2
  have hle := ((h.filter _).subperm hsub).length_le
  rwa [List.length_map] at hle

theorem mem_keys_of_find {key : Bytes} {val : Variant}
    (h : VariantObject.find args key = some val) :
    ∃ e ∈ args, e.1 = MutableVariantObject.cStr key ∧ e.2 = val := by
  obtain ⟨e, he, hval⟩ := Option.map_eq_some_iff.mp h
  exact ⟨e, List.mem_of_find?_eq_some he, by simpa using List.find?_some he, hval⟩

-- What replaces a placeholder is no longer than it, or takes the place of one share.
theorem replacement_le
    (hvalues : ∀ e ∈ args, ∀ size, ∀ s ∈ limitedValue L share size e.2, s.length ≤ share + dots.length)
    {key : Bytes} (hkey : (cleaned key).length ≤ key.length) (size : Nat) (chunk : Bytes)
    (ps : List Piece)
    (hchunk : dollar ∉ chunk) (hbrace : closeBrace ∉ key) :
    (replacement L args share size key).length + used args ps * share ≤
      key.length + 3 + used args (.placeholder chunk key hchunk hbrace :: ps) * share := by
  have hmono : used args ps ≤ used args (.placeholder chunk key hchunk hbrace :: ps) := by
    rw [used, used, keys, List.filter_cons]
    split
    case isTrue  => exact Nat.le_succ _
    case isFalse => exact Nat.le_refl _
  have hshare := Nat.mul_le_mul_right share hmono
  rw [replacement]
  cases hval : (VariantObject.find args key).bind (limitedValue L share size)
  case none =>
    simp only [Option.getD_none, List.length_append, List.length_cons, List.length_nil]
    omega
  case some s =>
    obtain ⟨val, hfind, hs⟩ := Option.bind_eq_some_iff.mp hval
    obtain ⟨e, he, hkeyEq, rfl⟩ := mem_keys_of_find hfind
    have hlen := hvalues e he size s hs
    have hused : used args (.placeholder chunk key hchunk hbrace :: ps) = used args ps + 1 := by
      have hmem : MutableVariantObject.cStr key ∈ args.map Prod.fst := hkeyEq ▸ List.mem_map_of_mem he
      rw [used, used, keys, List.filter_cons, if_pos (by simpa using hmem), List.length_cons]
    have hdots : dots.length = 3 := rfl
    rw [hused, Nat.succ_mul, Option.getD_some]
    omega

theorem cutWithin_of_le {size : Nat} {p : Prop} (h : size ≤ minimizeMaxSize) (hp : p) :
    cutWithin bound size p := by
  rw [cutWithin, if_neg (Nat.not_lt.mpr h)]
  exact hp

theorem Ending.within_of_budget {e : Ending} (he : e.Stays) (hbound : minimizeMaxSize < bound)
    {size : Nat}
    (h : size + e.text.length ≤ minimizeMaxSize) : e.Within bound size := by
  cases e
  case chunk s hs =>
    simp only [Stays, text] at he h
    rw [Within]
    omega
  case lone s hs =>
    simp only [Stays, text, List.length_append] at he h
    exact cutWithin_of_le (by omega) (by omega)
  case unclosed s key hs hkey =>
    simp only [Stays, text, List.length_append, List.length_cons] at he h
    exact cutWithin_of_le (by omega) (by omega)

-- The size, the rest of the template and the shares that are still to be used do not exceed 1024.
theorem within_of_budget {e : Ending} (he : e.Stays) {ps : List Piece} (hps : ∀ p ∈ ps, p.Stays)
    (hvalues : ∀ e ∈ args, ∀ size, ∀ s ∈ limitedValue L share size e.2, s.length ≤ share + dots.length)
    (hbound : minimizeMaxSize < bound) {size : Nat}
    (h : size + ((ps.flatMap Piece.text).length + e.text.length) + used args ps * share ≤ minimizeMaxSize) :
    Within L args share bound e ps size := by
  induction ps generalizing size
  case nil =>
    simp only [List.flatMap_nil, List.length_nil, Nat.zero_add] at h
    exact e.within_of_budget he hbound (by omega)
  case cons p ps hi =>
    obtain ⟨hp, hrest⟩ := List.forall_mem_cons.mp hps
    rw [List.flatMap_cons, List.length_append] at h
    cases p
    case placeholder chunk key hchunk hkey =>
      have hreplace := replacement_le hvalues hp.2 (size + (cleaned chunk).length) chunk ps hchunk hkey
      have hchunkLen := hp.1
      simp only [Piece.text, List.length_append, List.length_cons, List.length_nil] at h
      exact cutWithin_of_le (by omega) (hi hrest (by omega))
    case lone chunk c hchunk hc =>
      have hused : used args (.lone chunk c hchunk hc :: ps) = used args ps := rfl
      have hchunkLen := hp.1
      have hcLen := hp.2
      simp only [Piece.text, List.length_append, List.length_cons, List.length_nil] at h
      rw [hused] at h
      exact cutWithin_of_le (by omega) (hi hrest (by omega))

theorem within_of_modest {t : Template} (h : Modest L args share t)
    (hbound : minimizeMaxSize < bound)
    (hshare : args.length * share + t.text.length ≤ minimizeMaxSize) :
    Within L args share bound t.ending t.pieces 0 := by
  have hle : used args t.pieces ≤ args.length := used_le h.once
  have hused := Nat.mul_le_mul_right share hle
  rw [Template.text, List.length_append] at hshare
  exact within_of_budget h.ending h.pieces h.values hbound (by omega)

end Modest

-- The limit that space is reserved for.
def maxSize (args : List (Bytes × Variant)) : Nat :=
  minimizeMaxSize + 3 * args.length

def shareOf (args : List (Bytes × Variant)) (t : Template) : Nat :=
  (minimizeMaxSize - t.text.length) / args.length

theorem subMaxSize_eq {t : Template} (ht : t.text.length ≤ minimizeMaxSize) (ha : args ≠ []) :
    subMaxSize args true t.text = shareOf args t := by
  have hlen : args.length ≠ 0 := fun h => ha (List.length_eq_zero_iff.mp h)
  rw [subMaxSize, if_pos rfl, if_neg hlen, Nat.max_eq_left ht]
  rfl

-- A key that is used once, and the same key used twice.
def once : Template where
  pieces := [.placeholder [] (ascii "a") (by decide) (by decide)]
  ending := .chunk [] (by decide)

def twice : Template where
  pieces := [.placeholder [] (ascii "a") (by decide) (by decide), .placeholder [] (ascii "a") (by decide) (by decide)]
  ending := .chunk [] (by decide)

def argA (n : Nat) : List (Bytes × Variant) :=
  [(ascii "a", .string (.replicate n 0x78))]

end Limit

end FormatString
