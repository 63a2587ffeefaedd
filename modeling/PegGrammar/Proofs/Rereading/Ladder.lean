import PegGrammar.Proofs.Rereading.Choices

namespace PegGrammar

open Reader PegGrammar.Expr

variable {t F : Text} {e b : Expr Unit} {es : List (Expr Unit)} {o : Option (Expr Unit)}

section Ladder

def PrimaryReads (e : Expr Unit) : Prop :=
  ∀ ⦃F : Text⦄, Ends F → PrimaryOutcome (e.textAt .primary ++ F) F e.reread

def PrefixedReads (e : Expr Unit) : Prop :=
  ∀ ⦃F : Text⦄, Follow F → (e.dangles = true → Refuses (suffixed expression) (skipTrivia F)) →
    PrefixedOutcome (e.textAt .labeled ++ F) F e.reread

def ActionReads (e : Expr Unit) : Prop :=
  ∀ ⦃F : Text⦄, Shut F → Next (· ≠ '{') (skipTrivia F) →
    Outcome (action expression) (e.textAt .action) F e.reread

def ExpressionReads (e : Expr Unit) : Prop :=
  ∀ ⦃F : Text⦄, Shut F → Next (fun c => c ≠ '{' ∧ c ≠ '/') (skipTrivia F) →
    Outcome (choice expression) e.text F e.reread

/-- The elements of a sequence; any other expression is a row of its own. -/
def Expr.row : Expr Unit → List (Expr Unit)
  | .sequence es _ => es
  | e => [e]

theorem rowText_row {N : String → Prop} (h : e.Shaped N) : rowText e.row = e.textAt .sequence := by
  cases e with
  | named => exact h.elim
  | sequence es k =>
      have htext : (Expr.sequence es k).textAt .sequence = (Expr.sequence es k).text := by
        match es, h.1 with
        | [], _ => rfl
        | [x], hpick =>
            have hx := hpick x rfl
            cases x with
            | labeled => rfl
            | _ => cases hx
        | _ :: _ :: _, _ => rfl
      rw [htext, Expr.text, texts_eq_map]
      rfl
  | _ => exact List.append_nil _

theorem reread_row (hpick : e.isPick = false) :
    (rereadElements e.row).map collapse = e.reread := by
  have single (hrow : e.row = [e]) : (rereadElements e.row).map collapse = e.reread := by
    rw [hrow, rereadElements]
    cases he : e.reread with
    | none => rfl
    | some e' => simp [collapse, isPick_reread hpick he]
  cases e with
  | sequence es k => rfl
  | _ => exact single rfl

theorem outcome_row (h : e.Shaped Name.Readable) (hpick : e.isPick = false)
    (hrow : ∀ x ∈ e.row, ElementReads x) (hF : Shut F) :
    Outcome (sequence expression) (e.textAt .sequence) F e.reread := by
  have hend : ElementsOutcome F F (if true then some [] else none) := .stop hF.labeled
  have hrow := elementsOutcome_spaced hF.toFollow hF.suffixed hend e.row hrow
  have houtcome := outcome_sequence (o := rereadElements e.row) hrow
  rwa [rowText_row h, reread_row hpick] at houtcome

theorem actionReads_of_row (h : e.Shaped Name.Readable) (hpick : e.isPick = false)
    (hrow : ∀ x ∈ e.row, ElementReads x) (htext : e.textAt .action = e.textAt .sequence) :
    ActionReads e := by
  intro F hF hnext
  rw [htext]
  exact outcome_action_plain (outcome_row h hpick hrow hF) hnext

theorem expressionReads_of_action (h : ActionReads e) (htext : e.text = e.textAt .action) :
    ExpressionReads e := by
  intro F hF hnext
  rw [htext]
  exact outcome_choice_single (h hF (hnext.imp fun _ hc => hc.1)) (hnext.imp fun _ hc => hc.2)

theorem primaryOutcome_parens (h : Outcome (choice expression) t (')' :: F) o) :
    PrimaryOutcome ('(' :: (t ++ ')' :: F)) F (o.map regroup) := by
  rw [← expression_eq_choice] at h
  cases o with
  | some e =>
      obtain ⟨m, hfinds, hm⟩ := h.afterTrivia .refl
      have hclose : skipTrivia m = ')' :: F := hm.skipTrivia.trans (skipTrivia_solid (by decide) F)
      exact finds_primary_group (finds_group hfinds hclose)
  | none =>
      obtain ⟨e, r, hfinds, hr⟩ := h.afterTrivia .refl
      refine ⟨refuses_primary_group (refuses_group_of_unclosed hfinds ?_), _, rfl⟩
      exact hr.next fun _ hc => hc.ne (by decide)

theorem primaryReads_group (hb : ExpressionReads b) : PrimaryReads (.group b ()) := by
  intro F _
  have htext : textAt (.group b ()) .primary ++ F = '(' :: (b.text ++ ')' :: F) :=
    congrArg ('(' :: ·) (List.append_assoc b.text [')'] F)
  rw [htext]
  exact primaryOutcome_parens (hb (shut_close F) (next_skipTrivia (by decide) (by decide)))

theorem primaryReads_parens (hlabels : e.hasLabels = false) (h : ExpressionReads e)
    (htext : e.textAt .primary = '(' :: (e.text ++ [')'])) : PrimaryReads e := by
  intro F _
  have hgroup : (e.reread).map regroup = e.reread := by
    cases he : e.reread with
    | none => rfl
    | some e' => simp [regroup, hasLabels_reread hlabels he]
  have houtcome := primaryOutcome_parens
    (h (shut_close F) (next_skipTrivia (by decide) (by decide)))
  rw [hgroup] at houtcome
  rw [htext]
  simpa using houtcome

theorem operandReads_of_primary (hshape : e.Shaped Name.Readable) (hlabels : e.hasLabels = false)
    (hop : ∀ op b k, e ≠ .suffixed op b k) (href : e.isReference = false) (h : PrimaryReads e) :
    OperandReads e := by
  intro F hF hnext
  rw [operand_eq href, textAt_primary hlabels hshape hop]
  exact operandOutcome_of_primary (h hF) hnext

theorem prefixedReads_of_operand (hshape : e.Shaped Name.Readable) (hlabels : e.hasLabels = false)
    (hop : ∀ op b k, e ≠ .prefixed op b k) (href : e.isReference = false) (h : OperandReads e) :
    PrefixedReads e := by
  intro F hF _
  have houtcome := h hF.toEnds hF.noSuffix
  rw [operand_eq href] at houtcome
  rw [textAt_suffixed hlabels hshape hop]
  exact prefixedOutcome_of_operand ((plain_suffixed hshape hlabels href).append F) houtcome

theorem elementReads_of_prefixed (hshape : e.Shaped Name.Readable) (hlabels : e.hasLabels = false)
    (hprefixed : PrefixedReads e) (hoperand : (∀ op b k, e ≠ .prefixed op b k) → OperandReads e)
    (hbody : ∀ op b k, e = .prefixed op b k → OperandReads b) : ElementReads e :=
  ⟨hshape, isSequence_eq_false_of_hasLabels hlabels,
    fun _ hF hdangles => elementOutcome_unlabeled hshape hlabels hF (hprefixed hF hdangles),
    fun _ => hoperand, hbody⟩

theorem elementReads_labeled {l : Option String} {p : Bool}
    (hshape : (Expr.labeled l () p b ()).Shaped Name.Readable) (h : PrefixedReads b) :
    ElementReads (.labeled l () p b ()) := by
  have hdangles (hb : b.dangles = true) : (Expr.labeled l () p b ()).dangles = true := by
    have hlabels := hshape.2.2.1
    cases b with
    | ruleRef => exact hb
    | labeled => cases hlabels
    | _ => cases hb
  refine ⟨hshape, rfl, fun F hF hsuffixed => ?_, by rintro ⟨⟩, by rintro _ _ _ ⟨⟩⟩
  exact elementOutcome_labeled hshape hF (h hF fun hb => hsuffixed (hdangles hb))

end Ladder

section Nodes

theorem operandReads_reference (hshape : e.Shaped Name.Readable) (href : e.isReference = true) :
    OperandReads e := by
  intro F hF hnext
  obtain ⟨n, wrap, T, hr⟩ := exists_referenceTo href hF hnext
  rw [operand, if_pos href, hr.text, hr.eq]
  exact hr.reference (hr.name hshape)

theorem operandReads_suffixed (op : SuffixOp) (hb : PrimaryReads b)
    (href : ∀ n k, b ≠ .ruleRef n k) : OperandReads (.suffixed op b ()) := by
  intro F hF _
  have htext : textAt (.suffixed op b ()) .suffixed ++ F = b.textAt .primary ++ op.symbol :: F := by
    rw [← List.singleton_append, ← List.append_assoc]
    rfl
  have houtcome := operandOutcome_suffixed op (hb (ends_suffix op F))
  rw [htext]
  cases b with
  | ruleRef n k => exact (href n k rfl).elim
  | _ => exact houtcome

theorem skipTrivia_suffixed (hshape : b.Shaped Name.Readable) (hlabels : b.hasLabels = false)
    (hF : Follow F) : skipTrivia (b.textAt .suffixed ++ F) = b.textAt .suffixed ++ F := by
  rcases suffixed_cases hshape hlabels hF with ⟨n, wrap, T, hr⟩ | hplain
  · rw [hr.text]
    exact skipTrivia_nameText (hr.name hshape) T
  · exact hplain.skipTrivia

theorem prefixedReads_prefixed (op : PrefixOp) (hshape : b.Shaped Name.Readable)
    (hlabels : b.hasLabels = false) (hb : OperandReads b) : PrefixedReads (.prefixed op b ()) :=
  fun _ hF _ => prefixedOutcome_op op (skipTrivia_suffixed hshape hlabels hF)
    (hb hF.toEnds hF.noSuffix)

theorem outcome_action {code : String} (hcode : Balanced code.toList)
    (hshape : b.Shaped Name.Readable) (hpick : b.isPick = false)
    (hrow : ∀ x ∈ b.row, ElementReads x) (F : Text) :
    Outcome (action expression) (textAt (.action b code () ()) .action) F
      (reread (.action b code () ())) :=
  outcome_action_code hcode (outcome_row hshape hpick hrow (shut_block code F))

theorem outcome_alternative (he : ActionReads e) (x : Expr Unit) (es : List (Expr Unit)) (F : Text) :
    Outcome (action expression) (e.textAt .action) (slashed (x :: es) ++ F) e.reread := by
  rw [slashed_cons]
  apply he (shut_slash _)
  rw [skipTrivia_space, skipTrivia_slash]
  exact next_cons (by decide)

theorem alternativesRead_of_forall {keep : Bool} (hes : ∀ e ∈ es, ActionReads e) (hne : es ≠ [])
    (hlast : ∀ e, es.getLast? = some e →
      Outcome (action expression) (e.textAt .action) F (if keep then e.reread else none)) :
    AlternativesRead F es (if keep then rereadList es else none) := by
  induction es with
  | nil => exact (hne rfl).elim
  | cons e es ih =>
      cases es with
      | nil =>
          have h := AlternativesRead.cons (hlast e rfl) .nil
          cases keep with
          | true => exact h
          | false => exact h
      | cons x es =>
          have hslash := outcome_alternative (hes e List.mem_cons_self) x es F
          have hrest := ih (fun y hy => hes y (List.mem_cons_of_mem e hy)) (by simp)
            fun y hy => hlast y (by rwa [List.getLast?_cons_cons])
          have h := AlternativesRead.cons hslash hrest
          cases keep with
          | true => exact h
          | false =>
              cases hr : e.reread with
              | _ => rwa [hr] at h

theorem text_choice (e : Expr Unit) (es : List (Expr Unit)) (k : Unit) :
    (Expr.choice (e :: es) k).text = e.textAt .action ++ slashed es := by
  rw [Expr.text, texts_eq_map]
  induction es generalizing e with
  | nil => simp [slashed]
  | cons x es ih =>
      have hrow : List.intercalate [' ', '/', ' '] ((e :: x :: es).map (·.textAt .action)) =
          e.textAt .action ++ ([' ', '/', ' '] ++
            List.intercalate [' ', '/', ' '] ((x :: es).map (·.textAt .action))) := rfl
      rw [hrow, ih]
      rfl

theorem outcome_choice_of_last {keep : Bool} (hlength : 2 ≤ es.length)
    (hes : ∀ e ∈ es, ActionReads e) (hnext : Next (· ≠ '/') (skipTrivia F))
    (hlast : ∀ e, es.getLast? = some e →
      Outcome (action expression) (e.textAt .action) F (if keep then e.reread else none)) :
    Outcome (choice expression) (Expr.choice es ()).text F
      (if keep then reread (.choice es ()) else none) := by
  match es, hlength with
  | e :: x :: es, _ =>
      rw [text_choice]
      have hfirst := outcome_alternative (hes e List.mem_cons_self) x es F
      have hrest : AlternativesRead F (x :: es) _ :=
        alternativesRead_of_forall (fun y hy => hes y (List.mem_cons_of_mem e hy)) (by simp)
          fun y hy => hlast y (by rwa [List.getLast?_cons_cons])
      have h := outcome_choice hnext hfirst hrest
      cases keep with
      | true => exact h
      | false =>
          cases hr : e.reread with
          | _ => rwa [hr] at h

theorem expressionReads_choice (hlength : 2 ≤ es.length) (hes : ∀ e ∈ es, ActionReads e) :
    ExpressionReads (.choice es ()) := by
  intro F hF hnext
  have hlast (e : Expr Unit) (he : es.getLast? = some e) :
      Outcome (action expression) (e.textAt .action) F (if true then e.reread else none) :=
    hes e (List.mem_of_getLast? he) hF (hnext.imp fun _ hc => hc.1)
  exact outcome_choice_of_last hlength hes (hnext.imp fun _ hc => hc.2) hlast

end Nodes

end PegGrammar
