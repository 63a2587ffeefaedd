import PegGrammar.Proofs.Rereading.Ladder

namespace PegGrammar

open Reader PegGrammar.Expr

variable {e b : Expr Unit} {es : List (Expr Unit)}

/-- A tree is read as `Expr.reread` says, wherever it is printed. -/
structure Rereads (e : Expr Unit) : Prop where
  primary : e.hasLabels = false → (∀ n k, e ≠ .ruleRef n k) → PrimaryReads e
  operand : e.hasLabels = false → OperandReads e
  prefixed : e.hasLabels = false → PrefixedReads e
  row : ∀ x ∈ e.row, ElementReads x
  action : e.isPick = false → ActionReads e
  expression : e.isPick = false → ExpressionReads e

theorem row_of_hasLabels (hlabels : e.hasLabels = false) : e.row = [e] := by
  cases e with
  | sequence => cases hlabels
  | _ => rfl

theorem forall_row (hlabels : e.hasLabels = false) (h : ElementReads e) :
    ∀ x ∈ e.row, ElementReads x := by
  rw [row_of_hasLabels hlabels]
  simpa using h

theorem expressionReads_of_row (hshape : e.Shaped Name.Readable) (hpick : e.isPick = false)
    (hrow : ∀ x ∈ e.row, ElementReads x) (htext : e.textAt .action = e.textAt .sequence)
    (htext' : e.text = e.textAt .action) : ActionReads e ∧ ExpressionReads e := by
  have haction := actionReads_of_row hshape hpick hrow htext
  exact ⟨haction, expressionReads_of_action haction htext'⟩

/-- From the strongest level up to the expressions, the last step being the caller's. -/
theorem rereads_of_primary (hshape : e.Shaped Name.Readable) (hlabels : e.hasLabels = false)
    (hprefixed : ∀ op b k, e ≠ .prefixed op b k) (hsuffixed : ∀ op b k, e ≠ .suffixed op b k)
    (href : e.isReference = false) (hprimary : PrimaryReads e)
    (hexpression : ElementReads e → ActionReads e ∧ ExpressionReads e) : Rereads e := by
  have hoperand := operandReads_of_primary hshape hlabels hsuffixed href hprimary
  have hprefix := prefixedReads_of_operand hshape hlabels hprefixed href hoperand
  have helement := elementReads_of_prefixed hshape hlabels hprefix (fun _ => hoperand)
    fun op b k he => (hprefixed op b k he).elim
  obtain ⟨haction, hexpression⟩ := hexpression helement
  exact ⟨fun _ _ => hprimary, fun _ => hoperand, fun _ => hprefix, forall_row hlabels helement,
    fun _ => haction, fun _ => hexpression⟩

theorem rereads_atom (hshape : e.Shaped Name.Readable) (hlabels : e.hasLabels = false)
    (hprefixed : ∀ op b k, e ≠ .prefixed op b k) (hsuffixed : ∀ op b k, e ≠ .suffixed op b k)
    (href : e.isReference = false) (htext : e.textAt .action = e.textAt .sequence)
    (htext' : e.text = e.textAt .action) (hprimary : PrimaryReads e) : Rereads e :=
  rereads_of_primary hshape hlabels hprefixed hsuffixed href hprimary fun helement =>
    expressionReads_of_row hshape (isPick_eq_false_of_hasLabels hlabels)
      (forall_row hlabels helement) htext htext'

theorem rereads_ruleRef {n : String} (hn : Name.Readable n) : Rereads (.ruleRef n ()) := by
  have hshape : (Expr.ruleRef n ()).Shaped Name.Readable := hn
  have hoperand := operandReads_reference hshape rfl
  have hprefixed : PrefixedReads (.ruleRef n ()) :=
    fun _ hF hdangles => prefixedOutcome_reference hshape rfl hF hdangles
  have helement := elementReads_of_prefixed hshape rfl hprefixed (fun _ => hoperand)
    (by rintro _ _ _ ⟨⟩)
  obtain ⟨haction, hexpression⟩ := expressionReads_of_row hshape rfl (forall_row rfl helement) rfl rfl
  exact ⟨fun _ href => (href n () rfl).elim, fun _ => hoperand, fun _ => hprefixed,
    forall_row rfl helement, fun _ => haction, fun _ => hexpression⟩

theorem rereads_suffixed (op : SuffixOp) (hshape : (Expr.suffixed op b ()).Shaped Name.Readable)
    (hb : Rereads b) : Rereads (.suffixed op b ()) := by
  have hreads : OperandReads (.suffixed op b ()) ∧ PrefixedReads (.suffixed op b ()) := by
    by_cases href : (Expr.suffixed op b ()).isReference = true
    · exact ⟨operandReads_reference hshape href,
        fun _ hF hdangles => prefixedOutcome_reference hshape href hF hdangles⟩
    · rw [Bool.not_eq_true] at href
      have hne (n : String) (k : Unit) : b ≠ .ruleRef n k := by
        rintro rfl
        cases href
      have hoperand := operandReads_suffixed op (hb.primary hshape.1 hne) hne
      exact ⟨hoperand, prefixedReads_of_operand hshape rfl (by rintro _ _ _ ⟨⟩) href hoperand⟩
  obtain ⟨hoperand, hprefixed⟩ := hreads
  have helement := elementReads_of_prefixed hshape rfl hprefixed (fun _ => hoperand)
    (by rintro _ _ _ ⟨⟩)
  obtain ⟨haction, hexpression⟩ := expressionReads_of_row hshape rfl (forall_row rfl helement) rfl rfl
  exact ⟨fun _ _ => primaryReads_parens rfl hexpression rfl, fun _ => hoperand, fun _ => hprefixed,
    forall_row rfl helement, fun _ => haction, fun _ => hexpression⟩

theorem rereads_prefixed (op : PrefixOp) (hshape : (Expr.prefixed op b ()).Shaped Name.Readable)
    (hb : Rereads b) : Rereads (.prefixed op b ()) := by
  have hbody := hb.operand hshape.1
  have hprefixed := prefixedReads_prefixed op hshape.2 hshape.1 hbody
  have helement := elementReads_of_prefixed hshape rfl hprefixed
    (fun hop => (hop op b () rfl).elim) (by rintro _ _ _ ⟨⟩; exact hbody)
  obtain ⟨haction, hexpression⟩ := expressionReads_of_row hshape rfl (forall_row rfl helement) rfl rfl
  have hprimary := primaryReads_parens rfl hexpression rfl
  exact ⟨fun _ _ => hprimary,
    fun _ => operandReads_of_primary hshape rfl (by rintro _ _ _ ⟨⟩) rfl hprimary,
    fun _ => hprefixed, forall_row rfl helement, fun _ => haction, fun _ => hexpression⟩

theorem rereads_labeled {l : Option String} {p : Bool}
    (hshape : (Expr.labeled l () p b ()).Shaped Name.Readable) (hb : Rereads b) :
    Rereads (.labeled l () p b ()) := by
  have helement := elementReads_labeled hshape (hb.prefixed hshape.2.2.1)
  have hrow : ∀ x ∈ (Expr.labeled l () p b ()).row, ElementReads x := by
    simpa [row] using helement
  have h (hpick : (Expr.labeled l () p b ()).isPick = false) :=
    expressionReads_of_row hshape hpick hrow rfl rfl
  exact ⟨by rintro ⟨⟩, by rintro ⟨⟩, by rintro ⟨⟩, hrow, fun hpick => (h hpick).1,
    fun hpick => (h hpick).2⟩

theorem textAt_sequence {N : String → Prop} {k : Unit} (h : (Expr.sequence es k).Shaped N) :
    textAt (.sequence es k) .action = textAt (.sequence es k) .sequence ∧
      (Expr.sequence es k).text = textAt (.sequence es k) .action := by
  match es, h.1 with
  | [], _ => exact ⟨rfl, rfl⟩
  | [x], hpick =>
      have hx := hpick x rfl
      cases x with
      | labeled => exact ⟨rfl, rfl⟩
      | _ => cases hx
  | _ :: _ :: _, _ => exact ⟨rfl, rfl⟩

theorem rereads_sequence (hshape : (Expr.sequence es ()).Shaped Name.Readable)
    (hes : ∀ e ∈ es, Rereads e) : Rereads (.sequence es ()) := by
  have hrow : ∀ x ∈ (Expr.sequence es ()).row, ElementReads x := by
    intro x hx
    have hreads := (hes x hx).row
    have hrow : x.row = [x] := by
      have hseq := hshape.2.1 x hx
      cases x with
      | sequence => cases hseq
      | _ => rfl
    rw [hrow] at hreads
    exact hreads x List.mem_cons_self
  obtain ⟨htext, htext'⟩ := textAt_sequence hshape
  obtain ⟨haction, hexpression⟩ := expressionReads_of_row hshape rfl hrow htext htext'
  exact ⟨by rintro ⟨⟩, by rintro ⟨⟩, by rintro ⟨⟩, hrow, fun _ => haction, fun _ => hexpression⟩

theorem rereads_choice (hshape : (Expr.choice es ()).Shaped Name.Readable)
    (hes : ∀ e ∈ es, Rereads e) : Rereads (.choice es ()) := by
  have hexpression := expressionReads_choice hshape.1
    fun e he => (hes e he).action (hshape.2.1 e he)
  exact rereads_of_primary hshape rfl (by rintro _ _ _ ⟨⟩) (by rintro _ _ _ ⟨⟩) rfl
    (primaryReads_parens rfl hexpression rfl) fun helement =>
      ⟨actionReads_of_row hshape rfl (forall_row rfl helement) rfl, hexpression⟩

theorem rereads_action {code : String} (hshape : (Expr.action b code () ()).Shaped Name.Readable)
    (hb : Rereads b) : Rereads (.action b code () ()) := by
  obtain ⟨hpick, hbody, hcode⟩ := hshape
  have haction : ActionReads (.action b code () ()) :=
    fun F _ _ => outcome_action hcode hbody hpick hb.row F
  have hexpression := expressionReads_of_action haction rfl
  exact rereads_of_primary ⟨hpick, hbody, hcode⟩ rfl (by rintro _ _ _ ⟨⟩) (by rintro _ _ _ ⟨⟩) rfl
    (primaryReads_parens rfl hexpression rfl) fun _ => ⟨haction, hexpression⟩

theorem rereads_group (hshape : (Expr.group b ()).Shaped Name.Readable) (hb : Rereads b) :
    Rereads (.group b ()) :=
  rereads_atom hshape rfl (by rintro _ _ _ ⟨⟩) (by rintro _ _ _ ⟨⟩) rfl rfl rfl
    (primaryReads_group (hb.expression hshape.2.1))

theorem next_ne_i {F : Text} (hF : Ends F) : Next (· ≠ 'i') F := by
  intro c hc
  have hpart := (hF.name c hc).1
  rintro rfl
  exact absurd hpart (by decide +kernel)

theorem rereads_literal (v : String) (i : Bool) : Rereads (.literal v i ()) := by
  refine rereads_atom trivial rfl (by rintro _ _ _ ⟨⟩) (by rintro _ _ _ ⟨⟩) rfl rfl rfl ?_
  intro F hF
  have hfinds : Finds (primary expression) _ _ _ := finds_primary_literal v i fun _ => next_ne_i hF
  rw [← List.append_assoc] at hfinds
  exact hfinds

theorem rereads_charClass {ps : List ClassPart} (hps : ∀ p ∈ ps, p.isOrdered = true)
    (inverted i : Bool) : Rereads (.charClass ps inverted i ()) := by
  refine rereads_atom hps rfl (by rintro _ _ _ ⟨⟩) (by rintro _ _ _ ⟨⟩) rfl rfl rfl ?_
  intro F hF
  have hfinds : Finds (primary expression) _ _ _ :=
    finds_primary_charClass hps inverted i fun _ => next_ne_i hF
  rw [← List.append_assoc] at hfinds
  exact hfinds

theorem rereads_predicate (p : Polarity) {code : String} (hcode : Balanced code.toList) :
    Rereads (.predicate p code () ()) :=
  rereads_atom hcode rfl (by rintro _ _ _ ⟨⟩) (by rintro _ _ _ ⟨⟩) rfl rfl rfl
    fun _ _ => finds_primary_predicate p hcode

theorem rereads_any : Rereads (.any ()) :=
  rereads_atom trivial rfl (by rintro _ _ _ ⟨⟩) (by rintro _ _ _ ⟨⟩) rfl rfl rfl
    fun _ _ => finds_primary_any

mutual

theorem rereads : (e : Expr Unit) → e.Shaped Name.Readable → Rereads e
  | .named .., h => h.elim
  | .choice es _, h => rereads_choice h (rereadsList es h.2.2)
  | .action b _ _ _, h => rereads_action h (rereads b h.2.1)
  | .sequence es _, h => rereads_sequence h (rereadsList es h.2.2)
  | .labeled _ _ _ b _, h => rereads_labeled h (rereads b h.2.2.2)
  | .prefixed op b _, h => rereads_prefixed op h (rereads b h.2)
  | .suffixed op b _, h => rereads_suffixed op h (rereads b h.2)
  | .group b _, h => rereads_group h (rereads b h.2.2)
  | .predicate p _ _ _, h => rereads_predicate p h
  | .ruleRef _ _, h => rereads_ruleRef h
  | .literal v i _, _ => rereads_literal v i
  | .charClass _ v i _, h => rereads_charClass h v i
  | .any _, _ => rereads_any

theorem rereadsList : (es : List (Expr Unit)) → ShapedList Name.Readable es → ∀ e ∈ es, Rereads e
  | [], _, _, he => (List.not_mem_nil he).elim
  | x :: es, h, e, he => by
      have hx := rereads x h.1
      have hes := rereadsList es h.2
      rcases List.mem_cons.1 he with rfl | he
      · exact hx
      · exact hes e he

end

end PegGrammar
