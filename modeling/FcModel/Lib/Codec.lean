import FcModel.Lib.Decoder
import FcModel.Lib.Encoder

-- How a decoder and an encoder fit together. The relations compose along the structure of the two
-- programs, so that the bytes themselves need not be looked at. A decoder whose loops need fuel is
-- a family of decoders, and is only ever run with more fuel than there are symbols to read.

variable {β ε α γ κ : Type} {short : ε} {exc : ε → Prop}

namespace Decoder

-- `x` reads back what `y` writes, whatever follows it, and returns `a`.
def Reads (short : ε) (x : Nat → Decoder β ε α) (y : Encoder β ε) (a : α) : Prop :=
  ∀ b, y.bytes = .ok b → ∀ t g, (b ++ t).length < g → (x g).parse short (b ++ t) = .ok (a, t)

-- `x` cannot succeed on what `y` writes without consuming all of it: if it succeeds on an input
-- that agrees with it as far as both go, then it has consumed exactly what `y` writes.
def Exhausts (short : ε) (x : Decoder β ε α) (y : Encoder β ε) (P : α → Prop) : Prop :=
  ∀ b, y.bytes = .ok b → ∀ s a r, x.parse short s = .ok (a, r) → s <+: b ∨ b <+: s → s = b ++ r ∧ P a

-- On fewer than `n` symbols, and with more fuel than there are symbols, `x` fails with exceptions
-- only: it does not run out of fuel.
def Fuelled (short : ε) (exc : ε → Prop) (n : Nat) (x : Nat → Decoder β ε α) : Prop :=
  ∀ q : List β, q.length < n → ∀ g, q.length < g → ∀ e, (x g).parse short q = .error e → exc e

namespace Reads

variable {x : Nat → Decoder β ε α} {y y' : Encoder β ε} {f : Nat → α → Decoder β ε γ} {a : α}
    {c : γ}

theorem pure : Reads short (fun _ => Pure.pure a) (.done : Encoder β ε) a := by
  intro b hb t g _
  cases hb
  rfl

theorem bind (hx : Reads short x y a) (hf : Reads short (fun g => f g a) y' c) :
    Reads short (fun g => x g >>= f g) (y ++ y') c := by
  intro b hb t g hg
  have ⟨s, t', hs, ht', hb⟩ := Encoder.bytes_append_eq_ok.mp hb
  rw [hb, List.append_assoc] at hg ⊢
  rw [parse_bind_ok (hx s hs _ g hg)]
  exact hf t' ht' t g (by rw [List.length_append] at hg; omega)

-- No two values are written so that one text is the beginning of the other.
theorem prefix_free {x : Nat → Decoder β ε α} {y y' : Encoder β ε} {a a' : α} {b b' : List β}
    (hx : Reads short x y a) (hx' : Reads short x y' a') (hb : y.bytes = .ok b)
    (hb' : y'.bytes = .ok b') (hp : b <+: b') : a = a' ∧ b = b' := by
  obtain ⟨t, rfl⟩ := hp
  have h := hx b hb t _ (Nat.lt_succ_self _)
  have h' := hx' (b ++ t) hb' [] (b ++ t).length.succ (by rw [List.append_nil]; exact Nat.lt_succ_self _)
  rw [List.append_nil, h] at h'
  cases h'
  exact ⟨rfl, (List.append_nil b).symm⟩

-- What is read back determines what was written.
theorem inj {x : Nat → Decoder β ε α} {y y' : Encoder β ε} {a a' : α} {b : List β}
    (hx : Reads short x y a) (hx' : Reads short x y' a') (hb : y.bytes = .ok b)
    (hb' : y'.bytes = .ok b) : a = a' :=
  (hx.prefix_free hx' hb hb' List.prefix_rfl).left

-- The decoder goes on to compute something without reading.
theorem map (hx : Reads short x y a) (hf : Reads short (fun g => f g a) .done c) :
    Reads short (fun g => x g >>= f g) y c := by
  intro b hb t g hg
  rw [parse_bind_ok (hx b hb t g hg)]
  exact hf [] rfl t g (by rw [List.length_append] at hg ⊢; simp; omega)

theorem guard {p : Prop} [Decidable p] {e : ε} (hx : p → Reads short x y a) :
    Reads short x (.guard p e ++ y) a := by
  intro b hb
  have ⟨s, t, hs, ht, hb⟩ := Encoder.bytes_append_eq_ok.mp hb
  have ⟨hp, hs⟩ := Encoder.bytes_guard_eq_ok.mp hs
  rw [hb, hs]
  exact hx hp t ht

theorem check_bind {p : Prop} [Decidable p] {e : ε} {f : Nat → Unit → Decoder β ε γ} (hp : p)
    (hx : Reads short (fun g => f g ()) y c) : Reads short (fun g => check p e >>= f g) y c := by
  simpa only [Decoder.check_bind, if_pos hp] using hx

theorem read {old bs : List β} {k : Nat → List β → Decoder β ε α} (hl : old.length = bs.length)
    (hk : Reads short (fun g => k g bs) y a) :
    Reads short (fun g => .read old (k g)) (.write bs y) a := by
  intro b hb t g hg
  have ⟨s, hs, hb⟩ := Encoder.bytes_write_eq_ok.mp hb
  have hle : old.length ≤ (bs ++ (s ++ t)).length := by simp [hl]
  rw [hb, List.append_assoc] at hg ⊢
  rw [parse, if_pos hle, List.take_left' hl.symm, List.drop_left' hl.symm]
  exact hk s hs t g (by rw [List.length_append] at hg; omega)

theorem get {b : β} {k : Nat → β → Decoder β ε α} (hk : Reads short (fun g => k g b) y a) :
    Reads short (fun g => .get (k g)) (.write [b] y) a := by
  intro b hb t g hg
  have ⟨s, hs, hb⟩ := Encoder.bytes_write_eq_ok.mp hb
  rw [hb] at hg ⊢
  exact hk s hs t g (by simp at hg ⊢; omega)

-- A round of a loop that reads something pays for the fuel it uses.
theorem read_succ {old bs : List β} {k : Nat → List β → Decoder β ε α} (hl : old.length = bs.length)
    (hne : bs ≠ []) (hx : ∀ g, x (g + 1) = .read old (k g))
    (hk : Reads short (fun g => k g bs) y a) :
    Reads short x (.write bs y) a := by
  intro b hb t g hg
  have hpos := List.length_pos_iff.mpr hne
  have ⟨s, hs, hb⟩ := Encoder.bytes_write_eq_ok.mp hb
  have hle : old.length ≤ (bs ++ (s ++ t)).length := by simp [hl]
  rw [hb, List.append_assoc] at hg ⊢
  cases g
  case zero => omega
  case succ g =>
    rw [hx, parse, if_pos hle, List.take_left' hl.symm, List.drop_left' hl.symm]
    exact hk s hs t g (by rw [List.length_append] at hg; omega)

theorem get_succ {b : β} {k : Nat → β → Decoder β ε α} (hx : ∀ g, x (g + 1) = .get (k g))
    (hk : Reads short (fun g => k g b) y a) : Reads short x (.write [b] y) a := by
  intro b hb t g hg
  have ⟨s, hs, hb⟩ := Encoder.bytes_write_eq_ok.mp hb
  rw [hb] at hg ⊢
  cases g
  case zero => omega
  case succ g =>
    rw [hx]
    exact hk s hs t g (by simp at hg ⊢; omega)

theorem reserve {m : Memory} {n : Nat} (hx : Reads short x y a) :
    Reads short (fun g => .reserve m n (x g)) y a :=
  hx

theorem each {f : Nat → γ → Decoder β ε γ} {w : α → Encoder β ε} {m : γ → α → γ} {ds : List γ}
    {as : List α} (hl : ds.length = as.length)
    (h : ∀ p ∈ ds.zip as, Reads short (fun g => f g p.1) (w p.2) (m p.1 p.2)) :
    Reads short (fun g => Decoder.each (f g) ds) (Encoder.each w as) (ds.zipWith m as) := by
  induction ds generalizing as
  case nil =>
    cases as
    case nil  => exact pure
    case cons => cases hl
  case cons d ds hi =>
    cases as
    case nil => cases hl
    case cons a as =>
      have hi := hi (Nat.succ.inj hl) fun p hp => h p (List.mem_cons_of_mem _ hp)
      exact (h (d, a) (List.mem_cons_self ..)).bind (hi.map pure)

theorem fold {x : Nat → Decoder β ε γ} {w : α → Encoder β ε} {m : α → γ} {add : κ → γ → κ} {c : κ}
    {as : List α} (h : ∀ a ∈ as, Reads short x (w a) (m a)) :
    Reads short (fun g => Decoder.fold (x g) add as.length c) (Encoder.each w as)
      ((as.map m).foldl add c) := by
  induction as generalizing c
  case nil => exact pure
  case cons a as hi =>
    exact (h a (List.mem_cons_self ..)).bind (hi fun b hb => h b (List.mem_cons_of_mem _ hb))

theorem pi {n : Nat} {δ : Fin n → Type} {x : Nat → ∀ i, Decoder β ε (δ i)} {y : Fin n → Encoder β ε}
    {d : ∀ i, δ i} (h : ∀ i, Reads short (fun g => x g i) (y i) (d i)) :
    Reads short (fun g => Decoder.pi (x g)) (Encoder.pi y) d := by
  induction n
  case zero =>
    have : d = fun i => i.elim0 := funext fun i => i.elim0
    rw [this]
    exact pure
  case succ n hi =>
    have hi := hi (δ := fun i => δ i.succ) fun i => h i.succ
    have hd : d = Fin.cons (d 0) fun i => d i.succ := (Fin.cons_self_tail d).symm
    rw [hd]
    exact (h 0).bind (f := fun g d₀ => Decoder.pi (fun i => x g i.succ) >>= fun ds =>
      Pure.pure (Fin.cons d₀ ds)) (hi.map pure)

end Reads

theorem comparable_of_append {s b t : List β} (h : s <+: b ++ t ∨ b ++ t <+: s) : s <+: b ∨
    b <+: s := by
  cases h
  case inl h => exact List.prefix_or_prefix_of_prefix h (List.prefix_append ..)
  case inr h => exact .inr ((List.prefix_append ..).trans h)

theorem comparable_cancel {s b t : List β} (h : b ++ s <+: b ++ t ∨ b ++ t <+: b ++ s) :
    s <+: t ∨ t <+: s := by
  rwa [List.prefix_append_right_inj, List.prefix_append_right_inj] at h

namespace Exhausts

variable {x : Decoder β ε α} {y y' : Encoder β ε} {f : α → Decoder β ε γ} {a : α} {c : γ}
variable {P : α → Prop} {Q : γ → Prop}

-- A decoder that needs no fuel and reads everything back cannot stop early.
theorem of_reads (h : Reads short (fun _ => x) y a) : Exhausts short x y (· = a) := by
  intro b hb s a' r hs hc
  have h := fun t => h b hb t _ (Nat.lt_succ_self _)
  cases hc
  case inl hc =>
    have ⟨t, hc⟩ := hc
    have ⟨p, hp, hx⟩ := parse_consumes hs
    -- On `b` the decoder does what it does on its prefix `s`, so nothing of `b` can be left over.
    have he := hx (r ++ t)
    rw [← List.append_assoc, ← hp, hc, ← List.append_nil b, h] at he
    simp only [Except.ok.injEq, Prod.mk.injEq] at he
    have ⟨hr, ht⟩ := List.append_eq_nil_iff.mp he.2.symm
    rw [← hc, ht, hr, List.append_nil, List.append_nil]
    exact ⟨rfl, he.1.symm⟩
  case inr hc =>
    have ⟨t, hc⟩ := hc
    rw [← hc, h] at hs
    simp only [Except.ok.injEq, Prod.mk.injEq] at hs
    exact ⟨by rw [← hc, hs.2], hs.1.symm⟩

theorem pure (h : P a) : Exhausts short (Pure.pure a) (.done : Encoder β ε) P := by
  intro b hb s a' r hs _
  cases hb
  simp only [parse_pure, Except.ok.injEq, Prod.mk.injEq] at hs
  exact ⟨hs.2, hs.1 ▸ h⟩

theorem throw {e : ε} : Exhausts short (.throw e) y P := by
  intro b _ s a r hs
  cases hs

theorem bind (hx : Exhausts short x y P) (hf : ∀ a, P a → Exhausts short (f a) y' Q) :
    Exhausts short (x >>= f) (y ++ y') Q := by
  intro b hb s c r hs hc
  have ⟨u, v, hu, hv, hb⟩ := Encoder.bytes_append_eq_ok.mp hb
  have ⟨a, t, hxs, hft⟩ := parse_bind_eq_ok hs
  rw [hb] at hc
  have ⟨hst, ha⟩ := hx u hu s a t hxs (comparable_of_append hc)
  rw [hst] at hc
  have ⟨htr, hq⟩ := hf a ha v hv t c r hft (comparable_cancel hc)
  exact ⟨by rw [hst, htr, hb, List.append_assoc], hq⟩

theorem map (hx : Exhausts short x y P) (hf : ∀ a, P a → Exhausts short (f a) .done Q) :
    Exhausts short (x >>= f) y Q := by
  intro b hb s c r hs hc
  have ⟨a, t, hxs, hft⟩ := parse_bind_eq_ok hs
  have ⟨hst, ha⟩ := hx b hb s a t hxs hc
  have ⟨htr, hq⟩ := hf a ha [] rfl t c r hft (.inr (List.nil_prefix))
  exact ⟨by rw [hst, htr, List.nil_append], hq⟩

theorem mono {P' : α → Prop} (hx : Exhausts short x y P) (h : ∀ a, P a → P' a) :
    Exhausts short x y P' := by
  intro b hb s a r hs hc
  have ⟨hst, ha⟩ := hx b hb s a r hs hc
  exact ⟨hst, h a ha⟩

theorem guard {p : Prop} [Decidable p] {e : ε} (hx : p → Exhausts short x y P) :
    Exhausts short x (.guard p e ++ y) P := by
  intro b hb
  have ⟨s, t, hs, ht, hb⟩ := Encoder.bytes_append_eq_ok.mp hb
  have ⟨hp, hs⟩ := Encoder.bytes_guard_eq_ok.mp hs
  rw [hb, hs]
  exact hx hp t ht

theorem check_bind {p : Prop} [Decidable p] {e : ε} {f : Unit → Decoder β ε γ}
    (hx : p → Exhausts short (f ()) y Q) : Exhausts short (check p e >>= f) y Q := by
  rw [Decoder.check_bind]
  split
  case isTrue hp => exact hx hp
  case isFalse   => exact throw

theorem get {b : β} {k : β → Decoder β ε α} (hk : Exhausts short (k b) y P) :
    Exhausts short (.get k) (.write [b] y) P := by
  intro bs hbs s a r hs hc
  have ⟨t, ht, hbs⟩ := Encoder.bytes_write_eq_ok.mp hbs
  rw [hbs] at hc ⊢
  cases s
  case nil => cases hs
  case cons b' s =>
    have hb : b' = b := by cases hc <;> simp_all [List.cons_prefix_cons]
    rw [hb] at hs hc ⊢
    have ⟨he, hp⟩ := hk t ht s a r hs (by simpa [List.cons_prefix_cons] using hc)
    exact ⟨by rw [he]; rfl, hp⟩

theorem reserve {m : Memory} {n : Nat} (hx : Exhausts short x y P) :
    Exhausts short (.reserve m n x) y P :=
  hx

theorem each {f : γ → Decoder β ε γ} {g : α → Encoder β ε} {ds : List γ} {as : List α}
    (hl : ds.length = as.length)
    (h : ∀ d, ∀ a ∈ as, Exhausts short (f d) (g a) fun _ => True) :
    Exhausts short (Decoder.each f ds) (Encoder.each g as) fun _ => True := by
  induction ds generalizing as
  case nil =>
    cases as
    case nil  => exact pure trivial
    case cons => cases hl
  case cons d ds hi =>
    cases as
    case nil => cases hl
    case cons a as =>
      have hi := hi (Nat.succ.inj hl) fun d b hb => h d b (List.mem_cons_of_mem _ hb)
      exact (h d a (List.mem_cons_self ..)).bind fun _ _ => hi.map fun _ _ => pure trivial

theorem fold {x : Decoder β ε γ} {g : α → Encoder β ε} {add : κ → γ → κ} {c : κ} {as : List α}
    (h : ∀ a ∈ as, Exhausts short x (g a) fun _ => True) :
    Exhausts short (Decoder.fold x add as.length c) (Encoder.each g as) fun _ => True := by
  induction as generalizing c
  case nil => exact pure trivial
  case cons a as hi =>
    exact (h a (List.mem_cons_self ..)).bind fun _ _ => hi fun b hb => h b (List.mem_cons_of_mem _ hb)

theorem pi {n : Nat} {δ : Fin n → Type} {x : ∀ i, Decoder β ε (δ i)} {y : Fin n → Encoder β ε}
    (h : ∀ i, Exhausts short (x i) (y i) fun _ => True) :
    Exhausts short (Decoder.pi x) (Encoder.pi y) fun _ => True := by
  induction n
  case zero => exact pure trivial
  case succ n hi =>
    have hi := hi (δ := fun i => δ i.succ) fun i => h i.succ
    exact (h 0).bind fun _ _ => hi.map fun _ _ => pure trivial

-- No strict prefix of what is written is enough.
theorem truncated {b p : List β} (h : Exhausts short x y P) (hb : y.bytes = .ok b) (hp : p <+: b)
    (hne : p ≠ b) : ∃ e, x.parse short p = .error e := by
  cases hx : x.parse short p
  case error e => exact ⟨e, rfl⟩
  case ok ar =>
    have ⟨he, _⟩ := h b hb p ar.1 ar.2 hx (.inl hp)
    have hl := hp.length_le
    rw [he, List.length_append] at hl
    have hr : ar.2 = [] := List.length_eq_zero_iff.mp (by omega)
    rw [hr, List.append_nil] at he
    exact absurd he hne

end Exhausts

namespace Fuelled

variable {n : Nat} {x : Nat → Decoder β ε α} {f : Nat → α → Decoder β ε γ}

theorem zero : Fuelled short exc 0 x :=
  fun _ h => absurd h (Nat.not_lt_zero _)

theorem pure {a : α} : Fuelled short exc n fun _ => (Pure.pure a : Decoder β ε α) :=
  fun _ _ _ _ _ => nofun

theorem throw {e : ε} (h : exc e) : Fuelled short exc n fun _ => (.throw e : Decoder β ε α) :=
  fun _ _ _ _ _ he => Except.error.inj he ▸ h

theorem bind (hx : Fuelled short exc n x) (hf : ∀ a, Fuelled short exc n fun g => f g a) :
    Fuelled short exc n fun g => x g >>= f g := by
  intro q hq g hg
  cases hp : (x g).parse short q
  case error e =>
    rw [parse_bind_error hp]
    exact fun _ he => Except.error.inj he ▸ hx q hq g hg e hp
  case ok ar =>
    have hl := parse_length_le hp
    rw [parse_bind_ok hp]
    exact hf ar.1 ar.2 (by omega) g (by omega)

theorem check_bind {p : Prop} [Decidable p] {e : ε} {f : Nat → Unit → Decoder β ε γ} (h : exc e)
    (hx : Fuelled short exc n fun g => f g ()) :
    Fuelled short exc n fun g => check p e >>= f g := by
  by_cases hp : p
  case pos => simpa only [Decoder.check_bind, if_pos hp] using hx
  case neg => simpa only [Decoder.check_bind, if_neg hp] using throw h

theorem read (hs : exc short) {old : List β} {k : Nat → List β → Decoder β ε α}
    (hk : ∀ bs, Fuelled short exc n fun g => k g bs) :
    Fuelled short exc n fun g => .read old (k g) := by
  intro q hq g hg
  simp only [parse]
  split
  case isTrue   => exact hk _ _ (by simp; omega) g (by simp; omega)
  case isFalse  => exact fun _ he => Except.error.inj he ▸ hs

theorem get (hs : exc short) {k : Nat → β → Decoder β ε α}
    (hk : ∀ b, Fuelled short exc n fun g => k g b) : Fuelled short exc n fun g => .get (k g) := by
  intro q hq g hg
  cases q
  case nil => exact fun _ he => Except.error.inj he ▸ hs
  case cons b q =>
    simp only [List.length_cons] at hq hg
    exact hk b q (by omega) g (by omega)

theorem reserve {m : Memory} {k : Nat} (hx : Fuelled short exc n x) :
    Fuelled short exc n fun g => .reserve m k (x g) :=
  hx

theorem read_succ (hs : exc short) {old : List β} (ho : old ≠ []) {k : Nat → List β → Decoder β ε α}
    (hx : ∀ g, x (g + 1) = .read old (k g)) (hk : ∀ bs, Fuelled short exc n fun g => k g bs) :
    Fuelled short exc (n + 1) x := by
  intro q hq g hg
  have ho := List.length_pos_iff.mpr ho
  cases g
  case zero => omega
  case succ g =>
    simp only [hx, parse]
    split
    case isTrue   => exact hk _ _ (by simp; omega) g (by simp; omega)
    case isFalse  => exact fun _ he => Except.error.inj he ▸ hs

theorem get_succ (hs : exc short) {k : Nat → β → Decoder β ε α}
    (hx : ∀ g, x (g + 1) = .get (k g)) (hk : ∀ b, Fuelled short exc n fun g => k g b) :
    Fuelled short exc (n + 1) x := by
  intro q hq g hg
  cases g
  case zero => omega
  case succ g =>
    simp only [hx]
    cases q
    case nil => exact fun _ he => Except.error.inj he ▸ hs
    case cons b q =>
      simp only [List.length_cons] at hq hg
      exact hk b q (by omega) g (by omega)

theorem each {f : Nat → γ → Decoder β ε γ} (h : ∀ d, Fuelled short exc n fun g => f g d)
    (ds : List γ) : Fuelled short exc n fun g => Decoder.each (f g) ds := by
  induction ds
  case nil          => exact pure
  case cons d ds hi => exact (h d).bind fun _ => hi.bind fun _ => pure

theorem fold {add : κ → α → κ} (h : Fuelled short exc n x) (m : Nat) (c : κ) :
    Fuelled short exc n fun g => Decoder.fold (x g) add m c := by
  induction m generalizing c
  case zero       => exact pure
  case succ m hi  => exact h.bind fun a => hi (add c a)

theorem pi {m : Nat} {δ : Fin m → Type} {x : Nat → ∀ i, Decoder β ε (δ i)}
    (h : ∀ i, Fuelled short exc n fun g => x g i) :
    Fuelled short exc n fun g => Decoder.pi (x g) := by
  induction m
  case zero => exact pure
  case succ m hi =>
    have hi := hi (x := fun g i => x g i.succ) fun i => h i.succ
    exact (h 0).bind fun _ => hi.bind fun _ => pure

end Fuelled

-- `x` and `y` return the same and consume the same, or fail in the same way.
def Same (short : ε) (x y : Decoder β ε α) : Prop :=
  ∀ q, x.parse short q = y.parse short q

namespace Same

variable {x y : Decoder β ε α} {f f' : α → Decoder β ε γ}

theorem refl : Same short x x :=
  fun _ => rfl

theorem bind (hx : Same short x y) (hf : ∀ a, Same short (f a) (f' a)) :
    Same short (x >>= f) (y >>= f') := by
  intro q
  rw [parse_bind, parse_bind, hx q]
  cases y.parse short q
  case error  => rfl
  case ok ar  => exact hf ar.1 ar.2

theorem read {old old' : List β} {k k' : List β → Decoder β ε α} (hl : old.length = old'.length)
    (hk : ∀ bs, Same short (k bs) (k' bs)) : Same short (.read old k) (.read old' k') := by
  intro q
  simp only [parse, hl]
  split
  case isTrue   => exact hk _ _
  case isFalse  => rfl

theorem reserve {m : Memory} {n : Nat} (hx : Same short x y) :
    Same short (.reserve m n x) (.reserve m n y) :=
  hx

theorem each {f : α → Decoder β ε α} (h : ∀ d d', Same short (f d) (f d')) {ds ds' : List α}
    (hl : ds.length = ds'.length) : Same short (Decoder.each f ds) (Decoder.each f ds') := by
  induction ds generalizing ds'
  case nil =>
    cases ds'
    case nil  => exact refl
    case cons => cases hl
  case cons d ds hi =>
    cases ds'
    case nil => cases hl
    case cons d' ds' =>
      exact (h d d').bind fun _ => (hi (Nat.succ.inj hl)).bind fun _ => refl

theorem pi {n : Nat} {δ : Fin n → Type} {x y : ∀ i, Decoder β ε (δ i)}
    (h : ∀ i, Same short (x i) (y i)) : Same short (Decoder.pi x) (Decoder.pi y) := by
  induction n
  case zero => exact refl
  case succ n hi =>
    have hi := hi (δ := fun i => δ i.succ) fun i => h i.succ
    exact (h 0).bind fun _ => hi.bind fun _ => refl

end Same

-- Whatever `x` returns satisfies `P`.
def Yields (short : ε) (x : Decoder β ε α) (P : α → Prop) : Prop :=
  ∀ q a r, x.parse short q = .ok (a, r) → P a

namespace Yields

variable {x : Decoder β ε α} {f : α → Decoder β ε γ} {P : α → Prop} {Q : γ → Prop}

theorem pure {a : α} (h : P a) : Yields short (Pure.pure a : Decoder β ε α) P := by
  intro q a' r hq
  cases hq
  exact h

theorem throw {e : ε} : Yields short (.throw e : Decoder β ε α) P := by
  intro q a r hq
  cases hq

theorem bind (hx : Yields short x P) (hf : ∀ a, P a → Yields short (f a) Q) :
    Yields short (x >>= f) Q := by
  intro q c r hq
  have ⟨a, t, hxq, hft⟩ := parse_bind_eq_ok hq
  exact hf a (hx q a t hxq) t c r hft

theorem trivial : Yields short x fun _ => True :=
  fun _ _ _ _ => True.intro

theorem reserve {m : Memory} {n : Nat} (hx : Yields short x P) : Yields short (.reserve m n x) P :=
  hx

theorem each {f : α → Decoder β ε α} {as : List α} (h : ∀ a ∈ as, Yields short (f a) P) :
    Yields short (Decoder.each f as) fun as' => ∀ a ∈ as', P a := by
  induction as
  case nil => exact pure nofun
  case cons a as hi =>
    refine (h a (List.mem_cons_self ..)).bind fun a' ha' => ?_
    refine (hi fun b hb => h b (List.mem_cons_of_mem _ hb)).bind fun as' has' => ?_
    exact pure (List.forall_mem_cons.mpr ⟨ha', has'⟩)

-- An invariant of the accumulator, which may depend on the number of rounds.
theorem fold {add : γ → α → γ} {I : Nat → γ → Prop} (hx : Yields short x P)
    (hadd : ∀ n c a, I n c → P a → I (n + 1) (add c a)) {n m : Nat} {c : γ} (hc : I n c) :
    Yields short (Decoder.fold x add m c) (I (n + m)) := by
  induction m generalizing n c
  case zero => exact pure hc
  case succ m hi =>
    refine hx.bind fun a ha => ?_
    have := hi (hadd n c a hc ha)
    rwa [Nat.add_assoc, Nat.add_comm 1] at this

end Yields

end Decoder
