import FcModel.Io.Json.Parse
import FcModel.Lib.Run

-- A parser with larger bounds, or with readers that can do more, takes the place of the parser.

namespace Json

variable {bad : Error → Prop} {fuel fuel' : Nat} {α : Type}

-- The errors that make no difference include those for a bound, and are kept by the handlers.
structure Ignores (bad : Error → Prop) : Prop where
  fuel  : bad .fuel
  stack : bad .stack
  eof   : ∀ m, bad (.eof m) → bad (.parseError "Unexpected EOF")

theorem approx_skipWhiteSpace_go (hb : Ignores bad) (hf : fuel ≤ fuel') {skipped : Bool} :
    Approx bad (skipWhiteSpace.go fuel skipped) (skipWhiteSpace.go fuel' skipped) := by
  induction fuel generalizing fuel' skipped
  case zero => exact .throw hb.fuel _
  case succ fuel hi =>
    cases fuel'
    case zero => cases hf
    case succ fuel' =>
      have hf := Nat.le_of_succ_le_succ hf
      refine .bind (.refl _) fun c => ?_
      cases c
      case none   => exact .refl _
      case some c => exact .ite (fun _ => .bind (.refl _) fun _ => hi hf) fun _ => .refl _

theorem approx_skipWhiteSpace (hb : Ignores bad) (hf : fuel ≤ fuel') :
    Approx bad (skipWhiteSpace fuel) (skipWhiteSpace fuel') :=
  approx_skipWhiteSpace_go hb hf

theorem approx_stringFromToken_go (hb : Ignores bad) (hf : fuel ≤ fuel') {token : Bytes} :
    Approx bad (stringFromToken.go fuel token) (stringFromToken.go fuel' token) := by
  induction fuel generalizing fuel' token
  case zero => exact .throw hb.fuel _
  case succ fuel hi =>
    cases fuel'
    case zero => cases hf
    case succ fuel' =>
      have hf := Nat.le_of_succ_le_succ hf
      have hi {token : Bytes} := @hi fuel' hf token
      exact .bind (.refl _) fun _ => .ite (fun _ => .refl _) fun _ => .bind (.refl _) fun _ =>
        .ite (fun _ => .bind (.refl _) fun _ => hi) fun _ => .ite (fun _ => .refl _) fun _ =>
        .ite (fun _ => .refl _) fun _ => .ite (fun _ => .bind (.refl _) fun _ => hi) fun _ => .refl _

theorem approx_stringFromToken (hb : Ignores bad) (hf : fuel ≤ fuel') :
    Approx bad (stringFromToken fuel) (stringFromToken fuel') :=
  .bind (.refl _) fun _ => approx_stringFromToken_go hb hf

theorem approx_containerLoop (hb : Ignores bad) (hf : fuel ≤ fuel') {γ : Type} {close : UInt8}
    {item item' : Nat → γ → Parser γ}
    (hi : ∀ fuel fuel' acc, fuel ≤ fuel' → Approx bad (item fuel acc) (item' fuel' acc)) {acc : γ} :
    Approx bad (containerLoop close item fuel acc) (containerLoop close item' fuel' acc) := by
  induction fuel generalizing fuel' acc
  case zero => exact .throw hb.fuel _
  case succ fuel ih =>
    cases fuel'
    case zero => cases hf
    case succ fuel' =>
      have hf := Nat.le_of_succ_le_succ hf
      have hloop {acc : γ} := @ih fuel' hf acc
      exact .bind (.refl _) fun _ => .ite (fun _ => .refl _) fun _ =>
        .ite (fun _ => .bind (.refl _) fun _ => hloop) fun _ => .bind (approx_skipWhiteSpace hb hf) fun _ =>
        .ite (fun _ => hloop) fun _ => .bind (hi _ _ _ hf) fun _ => hloop

theorem approx_elementFromStream (hb : Ignores bad) {v v' : Parser Variant} (hv : Approx bad v v')
    (fuel fuel' : Nat)
    (ar : List Variant) (hf : fuel ≤ fuel') :
    Approx bad (elementFromStream v fuel ar) (elementFromStream v' fuel' ar) :=
  .bind hv fun _ => .bind (approx_skipWhiteSpace hb hf) fun _ => .refl _

theorem approx_arrayFromStream (hb : Ignores bad) (hf : fuel ≤ fuel')
    {v v' : UInt32 → Parser Variant}
    {d d' : UInt32} (hv : Approx bad (v (d - 1)) (v' (d' - 1))) :
    Approx bad (arrayFromStream v fuel d) (arrayFromStream v' fuel' d') :=
  .bind (.refl _) fun _ => .ite (fun _ => .refl _) fun _ => .bind (.refl _) fun _ =>
    .bind (approx_skipWhiteSpace hb hf) fun _ => approx_containerLoop hb hf (approx_elementFromStream hb hv)

theorem approx_catchEof (hb : Ignores bad) {x y : Parser α} (h : Approx bad x y) :
    Approx bad (catchEof x) (catchEof y) := by
  intro s
  have hs := h s
  simp only [catchEof, EStateM.run] at hs ⊢
  rcases hs with ⟨e, s', hx, he⟩ | hxy
  case inr => exact .inr (by rw [hxy])
  case inl =>
    rw [hx]
    cases e
    case eof m => exact .inl ⟨_, s', rfl, hb.eof m he⟩
    all_goals exact .inl ⟨_, s', rfl, he⟩

section Legacy

variable {L : LexicalCast} {stringDoubles : Bool} {v v' : UInt32 → Parser Variant} {d d' : UInt32}

theorem approx_stringFromStream_go (hb : Ignores bad) (hf : fuel ≤ fuel') {token : Bytes} :
    Approx bad (stringFromStream.go fuel token) (stringFromStream.go fuel' token) := by
  induction fuel generalizing fuel' token
  case zero => exact .throw hb.fuel _
  case succ fuel hi =>
    cases fuel'
    case zero => cases hf
    case succ fuel' =>
      have hf := Nat.le_of_succ_le_succ hf
      have hi {token : Bytes} := @hi fuel' hf token
      exact .bind (.refl _) fun _ => .ite (fun _ => .refl _) fun _ => .bind (.refl _) fun _ =>
        .ite (fun _ => .bind (.refl _) fun _ => hi) fun _ => .ite (fun _ => .refl _) fun _ =>
        .ite (fun _ => .refl _) fun _ => .bind (.refl _) fun _ => hi

theorem approx_entryFromStream (hb : Ignores bad) {v v' : Parser Variant} (hv : Approx bad v v')
    (fuel fuel' : Nat)
    (obj : List (Bytes × Variant)) (hf : fuel ≤ fuel') :
    Approx bad (entryFromStream v fuel obj) (entryFromStream v' fuel' obj) := by
  have hstring : Approx bad (stringFromStream fuel) (stringFromStream fuel') :=
    .bind (.refl _) fun _ => .ite (fun _ => .refl _) fun _ => .bind (.refl _) fun _ => approx_stringFromStream_go hb hf
  exact .bind hstring fun _ => .bind (approx_skipWhiteSpace hb hf) fun _ => .bind (.refl _) fun _ =>
    .ite (fun _ => .refl _) fun _ => .bind (.refl _) fun _ => .bind hv fun _ => .refl _

theorem approx_objectFromStream (hb : Ignores bad) (hv : Approx bad (v (d - 1)) (v' (d' - 1))) :
    Approx bad (objectFromStream v fuel d) (objectFromStream v' fuel d') :=
  approx_catchEof hb (.bind (.refl _) fun _ => .ite (fun _ => .refl _) fun _ => .bind (.refl _) fun _ =>
    approx_containerLoop hb (Nat.le_refl _) (approx_entryFromStream hb hv))

-- The parsers differ in the calls for the elements of containers only.
theorem approx_variantSwitch (hb : Ignores bad)
    (hv : Approx bad (v (d - 1 - 1)) (v' (d' - 1 - 1))) :
    Approx bad (variantSwitch L stringDoubles v d fuel) (variantSwitch L stringDoubles v' d' fuel) := by
  induction fuel
  case zero => exact .refl _
  case succ fuel hi =>
    exact .bind (.refl _) fun _ => .ite (fun _ => .bind (.refl _) fun _ => hi) fun _ => .ite (fun _ => .refl _) fun _ =>
      .ite (fun _ => .bind (approx_objectFromStream hb hv) fun _ => .refl _) fun _ =>
      .ite (fun _ => .bind (approx_arrayFromStream hb (Nat.le_refl _) hv) fun _ => .refl _) fun _ => .refl _

end Legacy

namespace Relaxed

variable {strict : Bool} {L : LexicalCast}

theorem approx_tokenFromStream_go (hb : Ignores bad) (hf : fuel ≤ fuel') {token : Bytes} :
    Approx bad (tokenFromStream.go fuel token) (tokenFromStream.go fuel' token) := by
  induction fuel generalizing fuel' token
  case zero => exact .throw hb.fuel _
  case succ fuel hi =>
    cases fuel'
    case zero => cases hf
    case succ fuel' =>
      have hf := Nat.le_of_succ_le_succ hf
      have hi {token : Bytes} := @hi fuel' hf token
      exact .bind (.refl _) fun _ => .ite (fun _ => .bind (.refl _) fun _ => hi) fun _ => .ite (fun _ => .refl _) fun _ =>
        .ite (fun _ => .bind (.refl _) fun _ => hi) fun _ => .refl _

theorem approx_tokenFromStream (hb : Ignores bad) (hf : fuel ≤ fuel') :
    Approx bad (tokenFromStream fuel) (tokenFromStream fuel') :=
  .bind (.refl _) fun _ => approx_tokenFromStream_go hb hf

theorem approx_tripleQuoteLoop (hb : Ignores bad) (hf : fuel ≤ fuel') {allowEscape : Bool}
    {q : UInt8} {token : Bytes} :
    Approx bad (tripleQuoteLoop allowEscape q fuel token) (tripleQuoteLoop allowEscape q fuel' token) := by
  induction fuel generalizing fuel' token
  case zero => exact .throw hb.fuel _
  case succ fuel hi =>
    cases fuel'
    case zero => cases hf
    case succ fuel' =>
      have hf := Nat.le_of_succ_le_succ hf
      have hi {token : Bytes} := @hi fuel' hf token
      exact .bind (.refl _) fun _ => .ite (fun _ => .bind (.refl _) fun _ => .bind (.refl _) fun _ =>
        .ite (fun _ => .bind (.refl _) fun _ => .bind (.refl _) fun _ => .ite (fun _ => .refl _) fun _ => hi) fun _ => hi)
        fun _ => .ite (fun _ => .refl _) fun _ => .ite (fun _ => .bind (.refl _) fun _ => hi) fun _ =>
        .bind (.refl _) fun _ => hi

theorem approx_quoteLoop (hb : Ignores bad) (hf : fuel ≤ fuel') {allowEscape : Bool} {q : UInt8}
    {token : Bytes} :
    Approx bad (quoteLoop allowEscape q fuel token) (quoteLoop allowEscape q fuel' token) := by
  induction fuel generalizing fuel' token
  case zero => exact .throw hb.fuel _
  case succ fuel hi =>
    cases fuel'
    case zero => cases hf
    case succ fuel' =>
      have hf := Nat.le_of_succ_le_succ hf
      have hi {token : Bytes} := @hi fuel' hf token
      exact .bind (.refl _) fun _ => .ite (fun _ => .refl _) fun _ => .ite (fun _ => .refl _) fun _ =>
        .ite (fun _ => .refl _) fun _ => .ite (fun _ => .bind (.refl _) fun _ => hi) fun _ =>
        .ite (fun _ => .refl _) fun _ => .bind (.refl _) fun _ => hi

theorem approx_quoteStringFromStream (hb : Ignores bad) (hf : fuel ≤ fuel') {allowEscape : Bool} :
    Approx bad (quoteStringFromStream strict allowEscape fuel) (quoteStringFromStream strict allowEscape fuel') :=
  .bind (.refl _) fun _ => .ite (fun _ => .refl _) fun _ => .ite (fun _ => .refl _) fun _ => .bind (.refl _) fun _ =>
    .ite (fun _ => .bind (.refl _) fun _ => .bind (.refl _) fun _ => .ite (fun _ => .refl _) fun _ =>
    .ite (fun _ => .refl _) fun _ => .bind (.refl _) fun _ => approx_tripleQuoteLoop hb hf) fun _ =>
    approx_quoteLoop hb hf

theorem approx_stringFromStream (hb : Ignores bad) (hf : fuel ≤ fuel') :
    Approx bad (stringFromStream strict fuel) (stringFromStream strict fuel') := by
  have hquote {allowEscape : Bool} := @approx_quoteStringFromStream bad fuel fuel' strict hb hf allowEscape
  have htoken := approx_tokenFromStream hb hf
  exact .bind (.refl _) fun _ => .ite (fun _ => .refl _) fun _ => .ite (fun _ => hquote) fun _ =>
    .ite (fun _ => .refl _) fun _ => .ite (fun _ => .bind (.refl _) fun _ => .bind (.refl _) fun _ =>
    .ite (fun _ => .ite (fun _ => .refl _) fun _ => hquote) fun _ => .ite (fun _ => .refl _) fun _ =>
    .bind htoken fun _ => .refl _) fun _ => .ite (fun _ => .ite (fun _ => .refl _) fun _ => htoken) fun _ => .refl _

-- Each of the functions takes the place of the one of the other reader.
structure Reader.Below (bad : Error → Prop) (r r' : Reader) : Prop where
  string : Approx bad r.string r'.string
  number : Approx bad r.number r'.number
  word   : Approx bad r.word r'.word

theorem approx_entryFromStream (hb : Ignores bad) {str str' : Parser Bytes}
    (hstr : Approx bad str str')
    {v v' : Parser Variant} (hv : Approx bad v v') (fuel fuel' : Nat) (obj : List (Bytes × Variant))
    (hf : fuel ≤ fuel') :
    Approx bad (entryFromStream str v fuel obj) (entryFromStream str' v' fuel' obj) := by
  have hskip := approx_skipWhiteSpace hb hf
  exact .bind hstr fun _ => .bind hskip fun _ => .bind (.refl _) fun _ => .ite (fun _ => .refl _) fun _ =>
    .bind (.refl _) fun _ => .bind hv fun _ => .bind hskip fun _ => .refl _

theorem approx_variantSwitch (hb : Ignores bad) (hf : fuel ≤ fuel') {r r' : Reader}
    (hr : r.Below bad r')
    {v v' : UInt32 → Parser Variant} (hv : ∀ d, Approx bad (v d) (v' d)) {d : UInt32} :
    Approx bad (variantSwitch r v d fuel) (variantSwitch r' v' d fuel') := by
  induction fuel generalizing fuel'
  case zero => exact .throw hb.fuel _
  case succ fuel hi =>
    cases fuel'
    case zero => cases hf
    case succ fuel' =>
      have hf := Nat.le_of_succ_le_succ hf
      have hobject : Approx bad (objectFromStream r.string v fuel (d - 1))
          (objectFromStream r'.string v' fuel' (d - 1)) :=
        approx_catchEof hb (.bind (.refl _) fun _ => .ite (fun _ => .refl _) fun _ => .bind (.refl _) fun _ =>
          .bind (approx_skipWhiteSpace hb hf) fun _ =>
          approx_containerLoop hb hf (approx_entryFromStream hb hr.string (hv _)))
      exact .bind (.refl _) fun _ => .ite (fun _ => .refl _) fun _ => .ite (fun _ => .bind (.refl _) fun _ => hi hf) fun _ =>
        .ite (fun _ => .bind hr.string fun _ => .refl _) fun _ => .ite (fun _ => .bind hobject fun _ => .refl _) fun _ =>
        .ite (fun _ => .bind (approx_arrayFromStream hb hf (hv _)) fun _ => .refl _) fun _ => .ite (fun _ => hr.number) fun _ =>
        .ite (fun _ => hr.word) fun _ => .ite (fun _ => .refl _) fun _ =>
        .bind (approx_stringFromToken hb hf) fun _ => .refl _

theorem approx_variantFromStream (hb : Ignores bad) (hf : fuel ≤ fuel') {r r' : Reader}
    (hr : r.Below bad r')
    {stack stack' : Nat} (hs : stack ≤ stack') {d : UInt32} :
    Approx bad (variantFromStream r fuel stack d) (variantFromStream r' fuel' stack' d) := by
  induction stack generalizing stack' d
  case zero => exact .throw hb.stack _
  case succ stack hi =>
    cases stack'
    case zero => cases hs
    case succ stack' =>
      have hs := Nat.le_of_succ_le_succ hs
      exact .bind (approx_skipWhiteSpace hb hf) fun _ => approx_variantSwitch hb hf hr fun _ => hi hs

end Relaxed

end Json
