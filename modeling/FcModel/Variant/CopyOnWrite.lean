import FcModel.Lib.Run
import FcModel.Variant.Contents

-- Objects that share vectors behave as independent values do, as long as no vector that is shared
-- is overwritten.

namespace Shared

open MutableVariantObject

variable {ν : Type} [DecidableEq ν]

abbrev Env (ν : Type) := Var ν → Variant

-- The same operations on independent values. The value of a null pointer is null.
namespace Env

variable (env : Env ν)

abbrev assign (x : Var ν) (v : Variant) : Env ν :=
  Function.update env x v

def keyValue : ObjectRef ν → Except Error Variant
  | .object x  => return env (.object x)
  | .variant v =>
    match env (.variant v) with
    | .object es => return .object es
    | _          => throw .badCast

def follow (e : Error) : Variant → Except Error (List Entry)
  | .object es => return es
  | _          => throw e

def lookup : VariantRef ν → Except Error Variant
  | .variant v   => return env (.variant v)
  | .entry o key => do
    let es ← follow .assertion (← env.keyValue o)
    match VariantObject.find es key with
    | some v => return v
    | none   => throw .keyNotFound

def argument : Argument ν → Except Error (Variant × Env ν)
  | .copy r => return (← env.lookup r, env)
  | .move v => return (env (.variant v), env.assign (.variant v) .null)

def edit (m : ν) (f : List Entry → List Entry) : Except Error (Env ν) := do
  let es ← follow .access (env (.mutable m))
  return env.assign (.mutable m) (.object (f es))

def update : Operation ν → Except Error (Env ν)
  | .variantNew x v               => return env.assign (.variant x) v.toVariant
  | .variantOfObject x o          => return env.assign (.variant x) (.object (← follow .assertion (← env.keyValue o)))
  | .variantOfObjectMove x y      => do
    let es ← follow .assertion (env (.object y))
    return (env.assign (.object y) (.object [])).assign (.variant x) (.object es)
  | .variantOfMutable x m         => return env.assign (.variant x) (.object (← follow .access (env (.mutable m))))
  | .variantOfMutableMove x m     => do
    let es ← follow .assertion (env (.mutable m))
    return (env.assign (.mutable m) .null).assign (.variant x) (.object es)
  | .variantOfVariants x ys       => return env.assign (.variant x) (.array (ys.map fun y => env (.variant y)))
  | .variantCopy x r              => return env.assign (.variant x) (← env.lookup r)
  | .variantMove x y              => return (env.assign (.variant y) .null).assign (.variant x) (env (.variant y))
  | .objectNew x                  => return env.assign (.object x) (.object [])
  | .objectOf x key val           => do
    let (v, env) ← env.argument val
    return env.assign (.object x) (.object [(key, v)])
  | .objectCopy x o               => return env.assign (.object x) (.object (← follow .assertion (← env.keyValue o)))
  | .objectMove x y               => do
    let es ← follow .assertion (env (.object y))
    return (env.assign (.object y) (.object [])).assign (.object x) (.object es)
  | .objectOfMutable x m          => return env.assign (.object x) (.object (← follow .access (env (.mutable m))))
  | .objectOfMutableMove x m      => do
    let es ← follow .assertion (env (.mutable m))
    return (env.assign (.mutable m) .null).assign (.object x) (.object es)
  | .objectAssign x o             => return env.assign (.object x) (← env.keyValue o)
  | .objectAssignMove x y         => do
    if x = y then return env
    else
      let _ ← follow .assertion (env (.object y))
      return (env.assign (.object x) (env (.object y))).assign (.object y) (env (.object x))
  | .objectAssignMutable x m      => do
    let es ← follow .access (env (.mutable m))
    let _ ← follow .access (env (.object x))
    return env.assign (.object x) (.object es)
  | .objectAssignMutableMove x m  =>
    return ((env.assign (.mutable m) .null).assign (.object x) (env (.mutable m))).assign (.mutable m) (.object [])
  | .mutableNew m                 => return env.assign (.mutable m) (.object [])
  | .mutableOf m key val          => do
    let (v, env) ← env.argument val
    return env.assign (.mutable m) (.object [(key, v)])
  | .mutableOfObject m o          => return env.assign (.mutable m) (.object (← follow .access (← env.keyValue o)))
  | .mutableCopy m n              => return env.assign (.mutable m) (.object (← follow .access (env (.mutable n))))
  | .mutableMove m n              => return (env.assign (.mutable n) .null).assign (.mutable m) (env (.mutable n))
  | .mutableAssignObject m o      => do
    let es ← follow .access (← env.keyValue o)
    env.edit m fun _ => es
  | .mutableAssign m n            => do
    if m = n then return env
    else
      let es ← follow .access (env (.mutable n))
      env.edit m fun _ => es
  | .set m key var                => do
    let (v, env) ← env.argument var
    env.edit m fun es => MutableVariantObject.set es key v
  | .append m key var             => do
    let (v, env) ← env.argument var
    env.edit m fun es => es ++ [(key, v)]
  | .assignAt m key var           => do
    let (v, env) ← env.argument var
    env.edit m fun es => MutableVariantObject.assignAt es key v
  | .merge m o                    => do
    let fs ← follow .assertion (← env.keyValue o)
    if fs = [] then return env else env.edit m fun es => MutableVariantObject.merge es fs
  | .mergeMutable m n             => do
    if m = n then return env
    else
      let fs ← follow .access (env (.mutable n))
      if fs = [] then return env else env.edit m fun es => MutableVariantObject.merge es fs
  | .erase m key                  => env.edit m fun es => MutableVariantObject.erase es key

def left : Operation ν → Env ν
  | .variantOfObjectMove _ y | .objectMove _ y => env.assign (.object y) (.object [])
  | .objectAssignMove x y                      =>
    (env.assign (.object x) (env (.object y))).assign (.object y) (env (.object x))
  | _                                          => env

end Env

def specStep (op : Operation ν) : EStateM Error (Env ν) Unit := fun env =>
  match env.update op with
  | .ok env' => .ok () env'
  | .error e => .error e (env.left op)

-- The cell contains the value and can be shared.
def Fits (s : Store ν) (c : Cell) (v : Variant) : Prop :=
  Holds s.heap c v ∧ Shareable s c

variable {s : Store ν} {env : Env ν} {x y : Var ν} {c : Cell} {v : Variant} {l : Nat} {m : ν}
  {es : List (Bytes × Cell)} {fs : List Entry}

omit [DecidableEq ν] in
theorem fits_entries (h : List.Forall₂ (EntryRel (Fits s)) es fs) :
    (∀ e ∈ es, Shareable s e.2) ∧ List.Forall₂ (EntryRel (Holds s.heap)) es fs := by
  induction h
  case nil => exact ⟨List.forall_mem_nil _, .nil⟩
  case cons he _ hi =>
    have .intro he := he
    exact ⟨List.forall_mem_cons.mpr ⟨he.2, hi.1⟩, .cons (.intro he.1) hi.2⟩

namespace Models

omit [DecidableEq ν] in
theorem fits_vector (h : Models s env) (hl : List.Forall₂ (EntryRel (Holds s.heap)) (s.heap l) fs) :
    List.Forall₂ (EntryRel (Fits s)) (s.heap l) fs := by
  have hall : ∀ e ∈ s.heap l, Shareable s e.2 := fun e he => h.shareable_entry he
  refine ((List.forall₂_and_left _ _).mpr ⟨hall, hl⟩).imp fun e f ⟨he, h⟩ => ?_
  have .intro h := h
  exact .intro ⟨h, he⟩

omit [DecidableEq ν] in
theorem fits_var (h : Models s env) (hx : ∀ m, x ≠ .mutable m) : Fits s (s.cell x) (env x) :=
  ⟨h.holds x, h.shareable_var hx⟩

theorem assign_fits (h : Models s env) {c : x.Content} (hx : ∀ m, x ≠ .mutable m)
    (hc : Fits s (x.cell c) v) :
    Models (s.assign x c) (env.assign x v) :=
  h.assign_shareable hx hc.1 hc.2

theorem assignNew_fits (h : Models s env) (x : Var ν)
    (hes : List.Forall₂ (EntryRel (Fits s)) es fs) :
    Models (s.assignNew x es) (env.assign x (.object fs)) :=
  h.assignNew x (fits_entries hes).1 (fits_entries hes).2

end Models

-- What fits does so after an assignment to another variable.
theorem Fits.assign (h : Fits s c v) {d : x.Content} (hx : ∀ m, x ≠ .mutable m) :
    Fits (s.assign x d) c v := by
  refine ⟨h.1, fun l hl => ⟨(h.2 l hl).1, fun m => ?_⟩⟩
  rw [Store.cell_assign_of_ne _ (Ne.symm (hx m))]
  exact (h.2 l hl).2 m

theorem Fits.assign_null (h : Fits s c v) : Fits (s.assign (.mutable m) none) c v := by
  refine ⟨h.1, fun l hl => ⟨(h.2 l hl).1, fun n => ?_⟩⟩
  by_cases hn : n = m
  case pos =>
    rw [hn, Store.cell_assign_self]
    nofun
  case neg =>
    rw [Store.cell_assign_of_ne _ fun he => hn (Var.mutable.inj he)]
    exact (h.2 l hl).2 n

theorem Fits.assignNew (h : Fits s c v) (hs : Models s env) (hx : ∀ m, x ≠ .mutable m) :
    Fits (s.assignNew x es) c v := by
  refine ⟨h.1.frame fun l hl => Store.heap_alloc_of_lt (hs.lt_of_reaches (fun l hl => (h.2 l hl).1) hl), fun l hl => ?_⟩
  refine ⟨Nat.lt_succ_of_lt (h.2 l hl).1, fun m => ?_⟩
  rw [Store.assignNew, Store.cell_assign_of_ne _ (Ne.symm (hx m))]
  exact (h.2 l hl).2 m

-- The vector of a `mutable_variant_object` that gives it up.
theorem Models.fits_released (h : Models s env) (hm : s.cell (.mutable m) = .object l) :
    Fits (s.assign (.mutable m) none) (.object l) (env (.mutable m)) := by
  refine ⟨hm ▸ h.holds (.mutable m), fun l' hl' => ?_⟩
  have .object _ := hl'
  have hmention : s.mentions (.var (.mutable m)) l := by
    rw [Store.mentions, hm]
    exact .object l
  refine ⟨h.bounded hmention, fun n hn => ?_⟩
  by_cases hnm : n = m
  case pos =>
    rw [hnm, Store.cell_assign_self] at hn
    cases hn
  case neg =>
    rw [Store.cell_assign_of_ne _ fun he => hnm (Var.mutable.inj he)] at hn
    cases h.exclusive hn hmention
    exact hnm rfl

def pointed (p : Option Nat) : Cell :=
  p.elim (.scalar .null) .object

omit [DecidableEq ν] in
theorem follow_agree {heap : Nat → List (Bytes × Cell)} {p : Option Nat} (e : Error)
    (h : Holds heap (pointed p) v) :
    Agree (fun l es => p = some l ∧ v = .object es ∧ List.Forall₂ (EntryRel (Holds heap)) (heap l) es)
      (Store.follow e p) (Env.follow e v) := by
  cases p
  case none   => cases h; exact .throw e
  case some l =>
    cases h
    case object es h => exact .pure ⟨rfl, rfl, h⟩

omit [DecidableEq ν] in
theorem keyValue_agree (h : Models s env) (o : ObjectRef ν) :
    Agree (fun p v => Fits s (pointed p) v) (s.keyValue o) (env.keyValue o) := by
  cases o
  case object x  => exact .pure (h.fits_var (x := .object x) nofun)
  case variant x =>
    have hx := h.fits_var (x := .variant x) nofun
    simp only [Store.keyValue, Env.keyValue]
    generalize env (.variant x) = v at hx
    rw [Store.cell, Var.cell] at hx
    generalize s.vars (.variant x) = c at hx
    obtain ⟨hv, hs⟩ := hx
    cases hv
    case scalar w  => cases w <;> exact .throw _
    case array     => exact .throw _
    case object hv => exact .pure ⟨.object hv, hs⟩

omit [DecidableEq ν] in
theorem lookup_agree (h : Models s env) (r : VariantRef ν) :
    Agree (Fits s) (s.lookup r) (env.lookup r) := by
  cases r
  case variant x   => exact .pure (h.fits_var (x := .variant x) nofun)
  case entry o key =>
    refine (keyValue_agree h o).bind fun p v hp => (follow_agree _ hp.1).bind fun l fs ⟨_, _, hl⟩ => ?_
    have hfind := @forall₂_find _ _ _ _ _ key (h.fits_vector hl)
    generalize VariantObject.find (s.heap l) key = c at hfind ⊢
    generalize VariantObject.find fs key = v at hfind ⊢
    cases hfind
    case none     => exact .throw _
    case some hcv => exact .pure hcv

theorem argument_agree (h : Models s env) (a : Argument ν) :
    Agree (fun c v => Models c.2 v.2 ∧ Fits c.2 c.1 v.1) (s.argument a) (env.argument a) := by
  cases a
  case copy r => exact (lookup_agree h r).bind fun c v hcv => .pure ⟨h, hcv⟩
  case move x =>
    have hx := h.fits_var (x := .variant x) nofun
    refine .pure ⟨h.assign_fits (x := .variant x) nofun ⟨.scalar .null, shareable_scalar _⟩, ?_⟩
    exact hx.assign (x := .variant x) nofun

-- The vector of the object is its own, so nothing else sees the change.
theorem edit_agree (h : Models s env) {f : List (Bytes × Cell) → List (Bytes × Cell)}
    {g : List Entry → List Entry}
    (hfg : ∀ es fs, List.Forall₂ (EntryRel (Fits s)) es fs → List.Forall₂ (EntryRel (Fits s)) (f es) (g fs)) :
    Agree Models (s.edit m f) (env.edit m g) := by
  refine (follow_agree _ (h.holds (.mutable m))).bind fun l fs ⟨hp, _, hl⟩ => .pure ?_
  have hm : s.cell (.mutable m) = .object l := by
    rw [Store.cell, hp]
    rfl
  have hes := fits_entries (hfg _ _ (h.fits_vector hl))
  refine h.write hm (fun y hy => h.not_reaches hm fun hmention => hy ?_) hes.1 (fun e he => ?_) hes.2
  case refine_1 => exact Place.var.inj (h.exclusive (p := .var y) hm hmention)
  case refine_2 => exact h.not_reaches hm fun hmention => (hes.1 e he l hmention).2 m hm

-- A vector that other variables see is not overwritten. It is only in the assignment of a
-- `mutable_variant_object` to a `variant_object` that this can happen.
def Unshared (s : Store ν) : Operation ν → Prop
  | .objectAssignMutable x _ => ∀ l, s.vars (.object x) = some l → ∀ y, y ≠ .object x →
  ¬Reaches s.heap (s.cell y) l
  | _                        => True

theorem swap_models (h : Models s env) {x y : ν} :
    Models (s.swap x y) ((env.assign (.object x) (env (.object y))).assign (.object y) (env (.object x))) := by
  have hx := h.fits_var (x := .object x) nofun
  have hy := h.fits_var (x := .object y) nofun
  exact (h.assign_fits (x := .object x) nofun hy).assign_fits (x := .object y) nofun (hx.assign nofun)

-- A source that is moved from gets a new vector.
theorem take_models (h : Models s env) (y : ν) :
    Models (s.assignNew (.object y) []) (env.assign (.object y) (.object [])) :=
  h.assignNew_fits _ .nil

-- A vector that is given up by one `mutable_variant_object` can be the one of another.
theorem move_models (h : Models s env) {m n : ν} :
    Models ((s.assign (.mutable n) none).assign (.mutable m) (s.vars (.mutable n)))
      ((env.assign (.mutable n) .null).assign (.mutable m) (env (.mutable n))) := by
  have hnull := h.assign_null n
  cases hp : s.vars (.mutable n)
  case none =>
    have hn := h.holds (.mutable n)
    rw [Store.cell, hp] at hn
    have hv : env (.mutable n) = .null := hn.unique (.scalar .null)
    rw [hv]
    exact hnull.assign_null m
  case some l =>
    have hn : s.cell (.mutable n) = .object l := by rw [Store.cell, hp]; rfl
    have hfits := h.fits_released hn
    have hnot {p : Place ν} : ¬(s.assign (.mutable n) none).mentions p l := by
      intro hp
      by_cases hpn : p = .var (.mutable n)
      case pos =>
        rw [hpn, Store.mentions, Store.cell_assign_self] at hp
        cases hp
      case neg => exact hpn (h.exclusive hn (mentions_of_assign hpn hp))
    refine hnull.assign (x := .mutable m) hfits.1 (fun l hl => (hfits.2 l hl).1) (fun k l' hk _ hl' => ?_) fun k l' _ he p hp' => ?_
    case refine_1 => exact (hfits.2 l' hl').2 k hk
    case refine_2 =>
      cases he
      exact absurd hp' hnot

omit [DecidableEq ν] in
theorem nil_iff {R : Cell → Variant → Prop} (h : List.Forall₂ (EntryRel R) es fs) : es = [] ↔
    fs = [] := by
  cases h <;> simp

theorem update_agree (h : Models s env) {op : Operation ν} (hop : Unshared s op) :
    Agree Models (s.update op) (env.update op) := by
  have hcell {p : Option Nat} {l : Nat} (hp : p = some l) : pointed p = .object l := by rw [hp]; rfl
  cases op
  case variantNew x v => exact .pure (h.assign_fits (x := .variant x) nofun ⟨.scalar v, shareable_scalar v⟩)
  case variantOfObject x o =>
    refine (keyValue_agree h o).bind fun p v hp => (follow_agree _ hp.1).bind fun l fs ⟨hl, hv, _⟩ => .pure ?_
    rw [hcell hl, hv] at hp
    exact h.assign_fits (x := .variant x) nofun hp
  case variantOfObjectMove x y =>
    have hy := h.fits_var (x := .object y) nofun
    refine (follow_agree _ (h.holds (.object y))).bind fun l fs ⟨hl, hv, _⟩ => .pure ?_
    rw [Store.cell, Var.cell, hl, hv] at hy
    exact (take_models h y).assign_fits (x := .variant x) nofun (hy.assignNew h nofun)
  case variantOfMutable x m =>
    refine (follow_agree _ (h.holds (.mutable m))).bind fun l fs ⟨hl, hv, hes⟩ => .pure ?_
    exact h.assignNew_fits _ (h.fits_vector hes)
  case variantOfMutableMove x m =>
    refine (follow_agree _ (h.holds (.mutable m))).bind fun l fs ⟨hl, hv, _⟩ => .pure ?_
    have hm := h.fits_released (m := m) (by rw [Store.cell, Var.cell, hl]; rfl)
    rw [hv] at hm
    exact (h.assign_null m).assign_fits (x := .variant x) nofun hm
  case variantOfVariants x ys =>
    refine .pure (h.assign_fits (x := .variant x) nofun ⟨.array ?_, .array ?_⟩)
    case refine_1 =>
      rw [List.forall₂_map_left_iff, List.forall₂_map_right_iff, List.forall₂_same]
      exact fun y _ => h.holds (.variant y)
    case refine_2 =>
      rw [List.forall_mem_map]
      exact fun y _ => h.shareable_var (x := .variant y) nofun
  case variantCopy x r => exact (lookup_agree h r).bind fun c v hcv => .pure (h.assign_fits (x := .variant x) nofun hcv)
  case variantMove x y =>
    have hy := h.fits_var (x := .variant y) nofun
    have hnull := h.assign_fits (x := .variant y) nofun ⟨.scalar .null, shareable_scalar _⟩
    exact .pure (hnull.assign_fits (x := .variant x) nofun (hy.assign nofun))
  case objectNew x => exact .pure (take_models h x)
  case objectOf x key val =>
    exact (argument_agree h val).bind fun c v ⟨h, hcv⟩ => .pure (h.assignNew_fits _ (.cons (.intro hcv) .nil))
  case objectCopy x o =>
    refine (keyValue_agree h o).bind fun p v hp => (follow_agree _ hp.1).bind fun l fs ⟨hl, hv, _⟩ => .pure ?_
    rw [hcell hl, hv] at hp
    exact h.assign_fits (x := .object x) nofun hp
  case objectMove x y =>
    have hy := h.fits_var (x := .object y) nofun
    refine (follow_agree _ (h.holds (.object y))).bind fun l fs ⟨hl, hv, _⟩ => .pure ?_
    rw [Store.cell, Var.cell, hl, hv] at hy
    exact (take_models h y).assign_fits (x := .object x) nofun (hy.assignNew h nofun)
  case objectOfMutable x m =>
    refine (follow_agree _ (h.holds (.mutable m))).bind fun l fs ⟨_, _, hes⟩ => .pure ?_
    exact h.assignNew_fits _ (h.fits_vector hes)
  case objectOfMutableMove x m =>
    refine (follow_agree _ (h.holds (.mutable m))).bind fun l fs ⟨hl, hv, _⟩ => .pure ?_
    have hm := h.fits_released (m := m) (by rw [Store.cell, Var.cell, hl]; rfl)
    rw [hv] at hm
    exact (h.assign_null m).assign_fits (x := .object x) nofun hm
  case objectAssign x o =>
    exact (keyValue_agree h o).bind fun p v hp => .pure (h.assign_fits (x := .object x) nofun hp)
  case objectAssignMove x y =>
    refine .ite Iff.rfl ?_ fun _ => .pure h
    exact (follow_agree _ (h.holds (.object y))).bind fun _ _ _ => .pure (swap_models h)
  case objectAssignMutable x m =>
    refine (follow_agree _ (h.holds (.mutable m))).bind fun l fs ⟨hl, _, hes⟩ =>
      (follow_agree _ (h.holds (.object x))).bind fun l' _ ⟨hl', _, _⟩ => .pure ?_
    have hother := hop l' hl'
    have hes := fits_entries (h.fits_vector hes)
    refine h.write (x := .object x) (by rw [Store.cell, Var.cell, hl']; rfl) hother hes.1 (fun e he hr => ?_) hes.2
    refine hother (.mutable m) nofun ?_
    rw [Store.cell, Var.cell, hl]
    exact .entry he hr
  case objectAssignMutableMove x m =>
    have hnull := h.assign_null m
    have hfits : Fits (s.assign (.mutable m) none) (pointed (s.vars (.mutable m))) (env (.mutable m)) := by
      cases hp : s.vars (.mutable m)
      case none =>
        have hm := h.holds (.mutable m)
        rw [Store.cell, hp] at hm
        exact ⟨hm, shareable_scalar _⟩
      case some l => exact h.fits_released (by rw [Store.cell, hp]; rfl)
    exact .pure ((hnull.assign_fits (x := .object x) nofun hfits).assignNew_fits _ .nil)
  case mutableNew m => exact .pure (h.assignNew_fits _ .nil)
  case mutableOf m key val =>
    exact (argument_agree h val).bind fun c v ⟨h, hcv⟩ => .pure (h.assignNew_fits _ (.cons (.intro hcv) .nil))
  case mutableOfObject m o =>
    refine (keyValue_agree h o).bind fun p v hp => (follow_agree _ hp.1).bind fun l fs ⟨_, _, hes⟩ => .pure ?_
    exact h.assignNew_fits _ (h.fits_vector hes)
  case mutableCopy m n =>
    refine (follow_agree _ (h.holds (.mutable n))).bind fun l fs ⟨_, _, hes⟩ => .pure ?_
    exact h.assignNew_fits _ (h.fits_vector hes)
  case mutableMove m n => exact .pure (move_models h)
  case mutableAssignObject m o =>
    exact (keyValue_agree h o).bind fun p v hp => (follow_agree _ hp.1).bind fun l fs ⟨_, _, hes⟩ =>
      edit_agree h fun _ _ _ => h.fits_vector hes
  case mutableAssign m n =>
    refine .ite Iff.rfl ?_ fun _ => .pure h
    exact (follow_agree _ (h.holds (.mutable n))).bind fun l fs ⟨_, _, hes⟩ =>
      edit_agree h fun _ _ _ => h.fits_vector hes
  case set m key var =>
    exact (argument_agree h var).bind fun c v ⟨h, hcv⟩ => edit_agree h fun _ _ hes => forall₂_set hes hcv
  case append m key var =>
    exact (argument_agree h var).bind fun c v ⟨h, hcv⟩ => edit_agree h fun _ _ hes =>
      List.rel_append hes (.cons (.intro hcv) .nil)
  case assignAt m key var =>
    exact (argument_agree h var).bind fun c v ⟨h, hcv⟩ => edit_agree h fun _ _ hes => forall₂_set hes hcv
  case merge m o =>
    refine (keyValue_agree h o).bind fun p v hp => (follow_agree _ hp.1).bind fun l fs ⟨_, _, hes⟩ => ?_
    refine .ite (nil_iff hes) ?_ fun _ => .pure h
    exact edit_agree h fun _ _ hes' => forall₂_merge hes' (h.fits_vector hes)
  case mergeMutable m n =>
    refine .ite Iff.rfl ?_ fun _ => .pure h
    refine (follow_agree _ (h.holds (.mutable n))).bind fun l fs ⟨_, _, hes⟩ => ?_
    refine .ite (nil_iff hes) ?_ fun _ => .pure h
    exact edit_agree h fun _ _ hes' => forall₂_merge hes' (h.fits_vector hes)
  case erase m key => exact edit_agree h fun _ _ hes => forall₂_erase hes

-- An operation that throws leaves the same.
theorem left_models (h : Models s env) (op : Operation ν) : Models (s.left op) (env.left op) := by
  cases op
  case variantOfObjectMove x y => exact take_models h y
  case objectMove x y          => exact take_models h y
  case objectAssignMove x y    => exact swap_models h
  all_goals exact h

theorem step_models (h : Models s env) {op : Operation ν} (hop : Unshared s op) :
    Models (Machine.state ((step op).run s)) (Machine.state ((specStep op).run env)) := by
  have hagree := update_agree h hop
  simp only [step, specStep, EStateM.run]
  match hs : s.update op, he : env.update op with
  | .ok s', .ok env'   => rw [hs, he] at hagree; exact hagree
  | .error _, .error _ => exact left_models h op
  | .ok _, .error _    => rw [hs, he] at hagree; cases hagree
  | .error _, .ok _    => rw [hs, he] at hagree; cases hagree

section Untouched

theorem argument_untouched (a : Argument ν) :
    Gives (fun r => ∀ x, x ∉ Operation.touched.moved a → r.2 x = env x) (env.argument a) := by
  cases a
  case copy r => exact .seq fun _ => .pure fun _ _ => rfl
  case move v => exact .pure fun x hx => Function.update_of_ne (List.ne_of_not_mem_cons hx) ..

theorem edit_untouched {g : List Entry → List Entry} (hx : x ≠ .mutable m) :
    Gives (fun env' => env' x = env x) (env.edit m g) :=
  .seq fun _ => .pure (Function.update_of_ne hx ..)

-- Independent values are only changed by operations that name them.
theorem update_untouched (env : Env ν) {op : Operation ν} (hx : x ∉ op.touched) :
    Gives (fun env' => env' x = env x) (env.update op) := by
  have hone {a : Var ν} {v : Variant} (h : x ∉ [a]) : env.assign a v x = env x :=
    Function.update_of_ne (List.ne_of_not_mem_cons h) ..
  have htwo {a b : Var ν} {v w : Variant} (h : x ∉ [a, b]) : (env.assign b w).assign a v x = env x := by
    have ⟨ha, hb⟩ := List.ne_and_not_mem_of_not_mem_cons h
    rw [Env.assign, Function.update_of_ne ha, hone hb]
  have hswap {a b : Var ν} (h : x ∉ [a, b]) : x ∉ [b, a] := by
    rw [List.mem_pair] at h ⊢
    exact fun he => h he.symm
  have hargument {m : ν} {a : Argument ν} (h : x ∉ .mutable m :: Operation.touched.moved a) {g : Variant → List Entry → List Entry} :
      Gives (fun env' => env' x = env x) (do let (v, env) ← env.argument a; env.edit m (g v)) := by
    have ⟨hm, ha⟩ := List.ne_and_not_mem_of_not_mem_cons h
    refine (argument_untouched a).bind fun r hr => ?_
    rw [← hr x ha]
    exact edit_untouched hm
  have hnew {a : Var ν} {b : Argument ν} (h : x ∉ a :: Operation.touched.moved b) {g : Variant → Variant} :
      Gives (fun env' => env' x = env x) (do let (v, env) ← env.argument b; return env.assign a (g v)) := by
    have ⟨ha, hb⟩ := List.ne_and_not_mem_of_not_mem_cons h
    refine (argument_untouched b).bind fun r hr => .pure ?_
    rw [Env.assign, Function.update_of_ne ha, hr x hb]
  cases op
  case variantNew             => exact .pure (hone hx)
  case variantOfObject        => exact .seq fun _ => .seq fun _ => .pure (hone hx)
  case variantOfObjectMove    => exact .seq fun _ => .pure (htwo hx)
  case variantOfMutable       => exact .seq fun _ => .pure (hone hx)
  case variantOfMutableMove   => exact .seq fun _ => .pure (htwo hx)
  case variantOfVariants      => exact .pure (hone hx)
  case variantCopy            => exact .seq fun _ => .pure (hone hx)
  case variantMove            => exact .pure (htwo hx)
  case objectNew              => exact .pure (hone hx)
  case objectOf _ key _       => exact hnew hx (g := fun v => .object [(key, v)])
  case objectCopy             => exact .seq fun _ => .seq fun _ => .pure (hone hx)
  case objectMove             => exact .seq fun _ => .pure (htwo hx)
  case objectOfMutable        => exact .seq fun _ => .pure (hone hx)
  case objectOfMutableMove    => exact .seq fun _ => .pure (htwo hx)
  case objectAssign           => exact .seq fun _ => .pure (hone hx)
  case objectAssignMove       => exact .ite (.pure rfl) (.seq fun _ => .pure (htwo (hswap hx)))
  case objectAssignMutable    => exact .seq fun _ => .seq fun _ => .pure (hone hx)
  case objectAssignMutableMove x' m' =>
    refine .pure ?_
    rw [Env.assign, Function.update_of_ne (List.ne_of_not_mem_cons (hswap hx)), htwo hx]
  case mutableNew             => exact .pure (hone hx)
  case mutableOf _ key _      => exact hnew hx (g := fun v => .object [(key, v)])
  case mutableOfObject        => exact .seq fun _ => .seq fun _ => .pure (hone hx)
  case mutableCopy            => exact .seq fun _ => .pure (hone hx)
  case mutableMove            => exact .pure (htwo hx)
  case mutableAssignObject    => exact .seq fun _ => .seq fun _ => edit_untouched (List.ne_of_not_mem_cons hx)
  case mutableAssign          => exact .ite (.pure rfl) (.seq fun _ => edit_untouched (List.ne_of_not_mem_cons hx))
  case set _ key _            => exact hargument hx (g := fun v es => MutableVariantObject.set es key v)
  case append _ key _         => exact hargument hx (g := fun v es => es ++ [(key, v)])
  case assignAt _ key _       => exact hargument hx (g := fun v es => MutableVariantObject.assignAt es key v)
  case merge                  =>
    exact .seq fun _ => .seq fun _ => .ite (.pure rfl) (edit_untouched (List.ne_of_not_mem_cons hx))
  case mergeMutable           =>
    exact .ite (.pure rfl) (.seq fun _ => .ite (.pure rfl) (edit_untouched (List.ne_of_not_mem_cons hx)))
  case erase                  => exact edit_untouched (List.ne_of_not_mem_cons hx)

theorem left_untouched {op : Operation ν} (hx : x ∉ op.touched) : env.left op x = env x := by
  have hsecond {a b : Var ν} {v : Variant} (h : x ∉ [a, b]) : env.assign b v x = env x :=
    Function.update_of_ne (List.ne_of_not_mem_cons (List.not_mem_of_not_mem_cons h)) ..
  cases op
  case variantOfObjectMove => exact hsecond hx
  case objectMove          => exact hsecond hx
  case objectAssignMove    =>
    rw [Env.left, Env.assign,
      Function.update_of_ne (List.ne_of_not_mem_cons (List.not_mem_of_not_mem_cons hx))]
    exact Function.update_of_ne (List.ne_of_not_mem_cons hx) ..
  all_goals rfl

theorem specStep_untouched {op : Operation ν} (hx : x ∉ op.touched) :
    Machine.state ((specStep op).run env) x = env x := by
  have hupdate := update_untouched env hx
  simp only [specStep, EStateM.run]
  cases he : env.update op
  case ok env' => rw [he] at hupdate; exact hupdate
  case error   => exact left_untouched hx

end Untouched

-- What a variable contains.
def Contains (s : Store ν) (x : Var ν) (v : Variant) : Prop :=
  Holds s.heap (s.cell x) v

omit [DecidableEq ν] in
theorem models_init : Models (init ν) fun _ => .null where
  holds x := by cases x <;> exact .scalar .null
  bounded := by
    intro p l hp
    cases p
    case vector => have ⟨e, he, _⟩ := hp; cases he
    case var x  => cases x <;> cases hp
  exclusive := by
    intro m l p hm
    cases hm

omit [DecidableEq ν] in
theorem Models.contains_iff (h : Models s env) : Contains s x v ↔ v = env x :=
  ⟨fun hv => hv.unique (h.holds x), fun hv => hv ▸ h.holds x⟩

def keyA : Bytes := [0x61]

-- A copy is made of an object with one entry.
def copies : List (Operation Nat) := [
  .variantNew 0 (.uint64 1),
  .objectOf 0 keyA (.copy (.variant 0)),
  .objectCopy 1 (.object 0),
  .mutableNew 0
]

theorem admissible_copies : Machine.Admissible step Unshared (init Nat) copies :=
  ⟨trivial, trivial, trivial, trivial, trivial⟩

end Shared
