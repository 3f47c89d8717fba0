import FcModel.Io.Json.Values
import FcModel.Io.Json.Meaning

-- What the grammar derives is read by the parsers.

namespace Json

open Ascii

theorem Elements.choose {α β : Type} {P : Bytes → α → β → Prop} {s : Bytes} {as : List α}
    (h : Elements (fun s a => ∃ b, P s a b) s as) :
    ∃ bs, Elements (fun s b => ∃ a, P s a b) s bs ∧
    List.Forall₂ (fun b a => ∃ s, P s a b) bs as := by
  induction h
  case nil hw => exact ⟨[], .nil hw, .nil⟩
  case one s _ a hw h hw' =>
    have ⟨b, hb⟩ := h
    exact ⟨[b], .one hw ⟨a, hb⟩ hw', .cons ⟨s, hb⟩ .nil⟩
  case cons s _ _ a _ _ hw h hw' _ hi =>
    have ⟨b, hb⟩ := h
    have ⟨bs, ht, hbs⟩ := hi
    cases hbs
    case cons hb' hbs => exact ⟨_, .cons hw ⟨a, hb⟩ hw' ht, .cons ⟨s, hb⟩ (.cons hb' hbs)⟩

section Completeness

variable {parse switch : (fuel stack : Nat) → UInt32 → Parser Variant}
    {admits : UInt32 → Nat → Prop}
  {d : Dialect} {C : Bytes → List Char → Prop} {N : Variant → Number → Prop}

theorem Switches.array_represents (hp : Switches parse admits switch) {s : Bytes} {xs : List Value}
    (h : Elements (fun s x => ∃ v, ReadsAs parse admits s v ∧ Represents C N v x) s xs) :
    ∃ v, ReadsAs parse admits ([openBracket] ++ s ++ [closeBracket]) v ∧
    Represents C N v (.array xs) := by
  have ⟨vs, hs, hvs⟩ := h.choose
  exact ⟨_, hp.readsAs_array (hs.imp fun _ _ ⟨_, h⟩ => h.1), .array (hvs.imp fun _ _ ⟨_, h⟩ => h.2)⟩

theorem Switches.object_represents (hp : Switches parse admits switch)
    {K : Bytes → List Char → Prop}
    (hC : ∀ s cs, K s cs → ∃ k, Named s k ∧ C k cs) {s : Bytes} {ms : List (List Char × Value)}
    (h : Elements (Member K fun s x => ∃ v, ReadsAs parse admits s v ∧ Represents C N v x) s ms) :
    ∃ v, ReadsAs parse admits ([openBrace] ++ s ++ [closeBrace]) v ∧
    Represents C N v (.object ms) := by
  have hmember (s : Bytes) (m : List Char × Value)
      (h : Member K (fun s x => ∃ v, ReadsAs parse admits s v ∧ Represents C N v x) s m) :
      ∃ e, Member Named (ReadsAs parse admits) s e ∧ Entries C (Represents C N) e m := by
    have .intro hk hw hw' ⟨v, hv, hr⟩ := h
    have ⟨k, hk, hc⟩ := hC _ _ hk
    exact ⟨(k, v), .intro hk hw hw' hv, .intro hc hr⟩
  have ⟨es, hs, hes⟩ := (h.imp hmember).choose
  exact ⟨_, hp.readsAs_object (hs.imp fun _ _ ⟨_, h⟩ => h.1),
    .object (hes.imp fun _ _ ⟨_, h⟩ => h.2)⟩

-- Whatever the grammar derives is read if its strings and numbers are.
theorem Spells.reads (hp : Switches parse admits switch)
    (hC : ∀ s cs, Quoted d.char s cs → ∃ k, Named s k ∧ C k cs)
    (hN : ∀ n, d.number n → ∃ v, ReadsAs parse admits n.text v ∧ N v n) {s : Bytes} {x : Value}
    (h : Spells d s x) :
    ∃ v, ReadsAs parse admits s v ∧ Represents C N v x := by
  induction h using Spells.induct
  case null   => exact ⟨_, hp.readsAs_null, .null⟩
  case bool b => exact ⟨_, hp.readsAs_bool b, .bool b⟩
  case number n h =>
    have ⟨v, hv, hn⟩ := hN n h
    exact ⟨v, hv, .number hn⟩
  case string s cs h =>
    have ⟨k, hk, hc⟩ := hC s cs h
    exact ⟨_, hp.readsAs_string hk, .string hc⟩
  case array hi   => exact hp.array_represents (hi.imp fun _ _ h => h.2)
  case object hi  => exact hp.object_represents hC (hi.imp fun _ _ h => h.imp fun _ _ h => h.2)

end Completeness

theorem Quoted.named {s : Bytes} {cs : List Char} (h : Quoted PlainChar s cs) :
    ∃ k, Named s k ∧ k = Utf8.encode cs := by
  have .intro h := h
  exact ⟨_, ⟨_, rfl, h.body⟩, rfl⟩

theorem Number.integerOf_legacy {n : Number} (h : n.Plain) : IntegerOf n.legacy n := by
  have hlower := h.lower
  have hupper := h.upper
  have hvalue := n.value_eq_intValue h.isInteger
  rw [Number.legacy]
  split
  case isTrue hneg =>
    have hle : n.intValue ≤ 0 := by simp only [Number.intValue, hneg, if_true]; omega
    exact .int64 (by rw [hvalue, Int64.toInt_ofInt_of_le hlower (by omega)])
  case isFalse hneg =>
    have hint : n.intValue = Decimal.value n.int := by simp [Number.intValue, hneg]
    have hnat : (UInt64.ofNat (Decimal.value n.int)).toNat = Decimal.value n.int :=
      UInt64.toNat_ofNat_of_lt' (by simp only [UInt64.size]; omega)
    exact .uint64 (by rw [hvalue, hint, hnat]; rfl)

theorem Number.integerOf_ofPlain {n : Number} (h : n.Plain) : IntegerOf (Relaxed.ofPlain n) n := by
  rw [Relaxed.ofPlain]
  split
  case isTrue hz =>
    have hzero : n.intValue = 0 := by rw [Number.intValue, hz]; simp [Decimal.value]
    exact .uint64 (by rw [n.value_eq_intValue h.isInteger, hzero]; rfl)
  case isFalse => exact Number.integerOf_legacy h

theorem IntegerOf.nesting_eq {v : Variant} {n : Number} (h : IntegerOf v n) : v.nesting = 0 := by
  cases h <;> rfl

section Agreement

variable {L : LexicalCast} {s : Bytes} {x : Value}

theorem reads_plain (hL : L.Exact) (stringDoubles : Bool) (h : Spells plain s x) :
    ∃ v, ReadsAs (variantFromStream L stringDoubles) Admits s v ∧ Denotes v x :=
  h.reads switches_variantSwitch (fun _ _ h => h.named) fun n hn =>
    ⟨_, readsAs_number hL hn, n.integerOf_legacy hn⟩

theorem Relaxed.reads_plain (strict : Bool) (h : Spells plain s x) :
    ∃ v, Relaxed.Reads L strict s v ∧ Denotes v x :=
  h.reads Relaxed.switches_variantSwitch (fun _ _ h => h.named) fun n hn =>
    ⟨_, Relaxed.readsAs_number (Relaxed.ofNumber_plain hn) fun _ => Relaxed.isNumber_ofPlain n,
      n.integerOf_ofPlain hn⟩

-- White space around a value is no obstacle, and the bounds on a run are large enough.
theorem ReadsAs.fromString_eq {parse : (fuel stack : Nat) → UInt32 → Parser Variant}
    {admits : UInt32 → Nat → Prop}
    {w w' : Bytes} {v : Variant} {d : UInt32} {ptype : ParseType} (h : ReadsAs parse admits s v)
    (hp : ∀ fuel stack, parser L fuel stack ptype d = parse fuel stack d) (hw : Ws w) (hw' : Ws w')
    (hd : admits d v.nesting) (hs : v.nesting ≤ s.length) :
    ∃ st, fromString L (w ++ s ++ w') ptype d = .ok v st := by
  rw [fromString, hp]
  refine h.run hw hw' hd (Nat.lt_succ_self _) ?_
  simp only [stackFor, List.length_append]
  omega

-- The parsers agree on plain JSON, with any white space and with members of the same name.
theorem fromString_plain (hL : L.Exact) (h : IsText plain s x) {maxDepth : UInt32}
    (heven : maxDepth.toNat % 2 = 0)
    (hd : x.nesting < maxDepth.toNat / 2) :
    ∃ u, ∀ ptype, ∃ v st, fromString L s ptype maxDepth = .ok v st ∧ v.unsigned = u ∧
    Denotes v x := by
  have ⟨w, t, w', hs, hw, ht, hw'⟩ := h
  have hnesting {v : Variant} (hv : Denotes v x) : v.nesting = x.nesting :=
    hv.nesting_eq fun _ _ h => h.nesting_eq
  have hread (ptype : ParseType) :
      ∃ v st, fromString L s ptype maxDepth = .ok v st ∧ Denotes v x := by
    have hlegacy (stringDoubles : Bool) (hp : ∀ fuel stack, parser L fuel stack ptype maxDepth =
        variantFromStream L stringDoubles fuel stack maxDepth) :
        ∃ v st, fromString L s ptype maxDepth = .ok v st ∧ Denotes v x := by
      have ⟨v, hv, hx⟩ := reads_plain hL stringDoubles ht
      have hd : Admits maxDepth v.nesting := .inr (by rw [hnesting hx]; omega)
      have ⟨st, hrun⟩ := hv.fromString_eq hp hw hw' hd (by rw [hnesting hx]; exact ht.nesting_le)
      exact ⟨v, st, hs ▸ hrun, hx⟩
    have hrelaxed (strict : Bool) (hp : ∀ fuel stack, parser L fuel stack ptype maxDepth =
        Relaxed.variantFromStream (Relaxed.reader L strict fuel) fuel stack maxDepth) :
        ∃ v st, fromString L s ptype maxDepth = .ok v st ∧ Denotes v x := by
      have ⟨v, hv, hx⟩ := @Relaxed.reads_plain L t x strict ht
      have ⟨st, hrun⟩ := hv.fromString_eq hp hw hw' trivial
        (by rw [hnesting hx]; exact ht.nesting_le)
      exact ⟨v, st, hs ▸ hrun, hx⟩
    cases ptype
    case legacyParser                   => exact hlegacy false fun _ _ => rfl
    case legacyParserWithStringDoubles  => exact hlegacy true fun _ _ => rfl
    case strictParser                   => exact hrelaxed true fun _ _ => rfl
    case relaxedParser                  => exact hrelaxed false fun _ _ => rfl
  have ⟨u, _, _, hu⟩ := hread .legacyParser
  refine ⟨u.unsigned, fun ptype => ?_⟩
  have ⟨v, st, hrun, hv⟩ := hread ptype
  exact ⟨v, st, hrun, hv.unsigned_eq hu, hv⟩

theorem fromString_plain_array : ∃ u, ∀ ptype, ∃ v st,
    fromString .decimal (ascii " [7 ,-1]") ptype 4 = .ok v st ∧
    v.unsigned = u ∧ Denotes v (.array [.number (.ofInt 7), .number (.ofInt (-1))]) := by
  have hnumber (i : Int) (h : -2 ^ 63 ≤ i ∧ i < 2 ^ 64) :
    Spells plain (Decimal.ofInt i) (.number (.ofInt i)) :=
    Number.text_ofInt i ▸ .number
      ⟨Number.isInteger_ofInt i, by rw [Number.intValue_ofInt]; exact h.1,
      by rw [Number.intValue_ofInt]; exact h.2⟩
  have h7 : ascii "7" = Decimal.ofInt 7 := by simp [Decimal.ofInt, Decimal.ofNat, ascii]; rfl
  have h1 : ascii "-1" = Decimal.ofInt (-1) := by simp [Decimal.ofInt, Decimal.ofNat, ascii]; decide
  have hws : Ws [space] := List.forall_mem_singleton.mpr rfl
  have hnil : Ws [] := List.forall_mem_nil _
  have helements : Elements (Spells plain)
    (ascii "7 ,-1") [.number (.ofInt 7), .number (.ofInt (-1))] :=
    @Elements.cons _ _ [] (ascii "7") [space] ([] ++ ascii "-1" ++ []) _ _ _ hnil
      (h7 ▸ hnumber 7 (by decide)) hws
      (.one hnil (h1 ▸ hnumber (-1) (by decide)) hnil)
  exact fromString_plain LexicalCast.decimal_exact ⟨[space], _, [], rfl, hws, .array helements,
    hnil⟩ rfl (by decide)

end Agreement

end Json
