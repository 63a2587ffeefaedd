import PegGrammar.Proofs.Productions.Expression

namespace PegGrammar

theorem State.Passes.remaining_eq {st st' : State} {t : Text} (h : st.Passes t st') :
    st.remaining = t.length + st'.remaining := by
  rw [st.remaining_eq, st'.remaining_eq, h.1, List.length_append]

namespace Reader

variable {α β : Type} {Q R : State → Prop}

def Onward (Q : State → Prop) : Prop := ∀ {st t st'}, Q st → st.Passes t st' → Q st'

/-- Two readers do the same in `Q`, and only move forward. -/
def AgreeOn (Q : State → Prop) (p q : Reader α) : Prop :=
  ∀ st, Q st → p st = q st ∧ ∀ a st', p st = .matched a st' → ∃ t, st.Passes t st'

namespace AgreeOn

theorem of_passes {p : Reader α} (h : ∀ st a st', p st = .matched a st' → ∃ t, st.Passes t st') :
    AgreeOn Q p p :=
  fun st _ => ⟨rfl, h st⟩

protected theorem pure (a : α) : AgreeOn Q (pure a : Reader α) (pure a) :=
  of_passes fun st b st' h => by
    obtain ⟨-, rfl⟩ := pure_eq_matched.1 h
    exact ⟨[], .refl st⟩

protected theorem here : AgreeOn Q here here :=
  of_passes fun st a st' h => by
    cases h
    exact ⟨[], .refl st⟩

theorem bind_of_matched {p q : Reader α} {f g : α → Reader β} (hp : AgreeOn Q p q)
    (hR : ∀ st a st', Q st → p st = .matched a st' → R st') (hf : ∀ a, AgreeOn R (f a) (g a)) :
    AgreeOn Q (p >>= f) (q >>= g) := by
  intro st hst
  obtain ⟨heq, hpass⟩ := hp st hst
  change Reader.bind p f st = Reader.bind q g st ∧
    ∀ b st', Reader.bind p f st = .matched b st' → _
  simp only [Reader.bind, ← heq]
  cases hcase : p st with
  | matched a st₁ =>
      obtain ⟨t, ht⟩ := hpass a st₁ hcase
      obtain ⟨heq₁, hpass₁⟩ := hf a st₁ (hR st a st₁ hst hcase)
      refine ⟨heq₁, fun b st' hb => ?_⟩
      obtain ⟨u, hu⟩ := hpass₁ b st' hb
      exact ⟨t ++ u, ht.trans hu⟩
  | unmatched | disordered => exact ⟨rfl, by rintro _ _ ⟨⟩⟩

section

variable (hQ : Onward Q)

include hQ

protected theorem bind {p q : Reader α} {f g : α → Reader β} (hp : AgreeOn Q p q)
    (hf : ∀ a, AgreeOn Q (f a) (g a)) : AgreeOn Q (p >>= f) (q >>= g) :=
  bind_of_matched hp (fun st a st' hst hmatch => by
    obtain ⟨t, ht⟩ := (hp st hst).2 a st' hmatch
    exact hQ hst ht) hf

protected theorem orElse {p q p' q' : Reader α} (hp : AgreeOn Q p q)
    (hp' : AgreeOn Q p' q') : AgreeOn Q (p <|> p') (q <|> q') := by
  intro st hst
  obtain ⟨heq, hpass⟩ := hp st hst
  change Reader.orElse p (fun _ => p') st = Reader.orElse q (fun _ => q') st ∧
    ∀ b st', Reader.orElse p (fun _ => p') st = .matched b st' → _
  simp only [Reader.orElse, ← heq]
  cases hcase : p st with
  | matched a st₁ =>
      refine ⟨rfl, fun b st' hb => ?_⟩
      cases hb
      exact hpass a st₁ hcase
  | unmatched f =>
      obtain ⟨heq', hpass'⟩ := hp' { st with failures := f } (hQ hst (.of_failures st f))
      refine ⟨heq', fun b st' hb => ?_⟩
      obtain ⟨t, ht⟩ := hpass' b st' hb
      exact ⟨t, (State.Passes.of_failures st f).trans ht⟩
  | disordered => exact ⟨rfl, by rintro _ _ ⟨⟩⟩

protected theorem optional {p q : Reader α} (hp : AgreeOn Q p q) :
    AgreeOn Q (optional p) (optional q) :=
  .orElse hQ (.bind hQ hp fun _ => .pure _) (.pure _)

protected theorem located {p q : Reader (ByteRange → α)} (hp : AgreeOn Q p q) :
    AgreeOn Q (located p) (located q) :=
  .bind hQ .here fun _ => .bind hQ hp fun _ => .bind hQ .here fun _ => .pure _

protected theorem many {p q : Reader α} (hp : AgreeOn Q p q) : AgreeOn Q (many p) (many q) := by
  intro st hst
  obtain ⟨heq, hpass⟩ := hp st hst
  rw [many.eq_def p, many.eq_def q, ← heq]
  cases hcase : p st with
  | matched a st₁ =>
      obtain ⟨t, ht⟩ := hpass a st₁ hcase
      by_cases hlt : st₁.remaining < st.remaining
      · obtain ⟨heq₁, hpass₁⟩ := AgreeOn.many hp st₁ (hQ hst ht)
        simp only [if_pos hlt, ← heq₁]
        cases hmany : many p st₁ with
        | matched as st₂ =>
            refine ⟨trivial, fun b st' hb => ?_⟩
            cases hb
            obtain ⟨u, hu⟩ := hpass₁ as st₂ hmany
            exact ⟨t ++ u, ht.trans hu⟩
        | unmatched | disordered => exact ⟨trivial, by rintro _ _ ⟨⟩⟩
      · simp only [if_neg hlt]
        refine ⟨trivial, fun b st' hb => ?_⟩
        cases hb
        exact ⟨t, ht⟩
  | unmatched f =>
      refine ⟨rfl, fun b st' hb => ?_⟩
      cases hb
      exact ⟨[], .of_failures st f⟩
  | disordered => exact ⟨rfl, by rintro _ _ ⟨⟩⟩
termination_by st => st.remaining

end

protected theorem trivia : AgreeOn Q trivia trivia :=
  of_passes fun _ _ _ h => let ⟨t, _, hp⟩ := trivia_eq_matched h; ⟨t, hp⟩

protected theorem symbol (c : Char) : AgreeOn Q (symbol c) (symbol c) :=
  of_passes fun _ _ _ h => ⟨[c], symbol_eq_matched h⟩

protected theorem operator (symbolOf : α → Char) (as : List α) :
    AgreeOn Q (operator symbolOf as) (operator symbolOf as) :=
  of_passes fun _ a _ h => ⟨[symbolOf a], (operator_eq_matched h).2⟩

protected theorem codeBlock : AgreeOn Q codeBlock codeBlock :=
  of_passes fun _ _ _ h => ⟨_, (codeBlock_eq_matched h).passes⟩

protected theorem label : AgreeOn Q label label :=
  of_passes fun _ _ _ h => let ⟨_, _, _, _, hp, _⟩ := (label_eq_matched h).passes; ⟨_, hp⟩

end AgreeOn

theorem agree_afterTrivia (hQ : Onward Q) {p q : Reader Node} (hp : AgreeOn Q p q) :
    AgreeOn Q (afterTrivia p) (afterTrivia q) := by
  intro st hst
  obtain ⟨heq, hpass⟩ :=
    AgreeOn.bind (f := fun _ => p) (g := fun _ => q) hQ .trivia (fun _ => hp) st hst
  simp only [afterTrivia, ← heq]
  refine ⟨trivial, fun a st' h => ?_⟩
  split at h
  next st₁ _ =>
    cases h
    exact ⟨[], .of_failures st st₁.failures⟩
  next => exact hpass a st' h

/-- From `Q` on, an opening parenthesis leads to `R`. -/
structure Encloses (Q R : State → Prop) : Prop where
  outside : Onward Q
  inside : Onward R
  opened : ∀ {st st'}, Q st → st.Passes ['('] st' → R st'

section

variable {inner inner' : Reader Node} (hQR : Encloses Q R) (h : AgreeOn R inner inner')

include hQR h

theorem agree_group : AgreeOn Q (group inner) (group inner') := by
  refine .located hQR.outside (.bind_of_matched (.symbol '(')
    (fun st a st' hst hs => hQR.opened hst (symbol_eq_matched hs)) fun _ => ?_)
  exact .bind hQR.inside (agree_afterTrivia hQR.inside h) fun _ =>
    .bind hQR.inside .trivia fun _ => .bind hQR.inside (.symbol ')') fun _ => .pure _

theorem agree_primary : AgreeOn Q (primary inner) (primary inner') := by
  have hQ : Onward Q := hQR.outside
  refine .orElse hQ (.of_passes fun _ _ _ h => ?_) <| .orElse hQ (.of_passes fun _ _ _ h => ?_) <|
    .orElse hQ (.of_passes fun _ _ _ h => ?_) <| .orElse hQ (.of_passes fun _ _ _ h => ?_) <|
    .orElse hQ (.of_passes fun _ _ _ h => ?_) (agree_group hQR h)
  · obtain ⟨t, v, i, -, -, hp, -⟩ := literal_eq_matched h
    exact ⟨_, hp⟩
  · obtain ⟨t, body, i, -, -, hp, -⟩ := charClass_eq_matched h
    exact ⟨_, hp⟩
  · exact ⟨_, (any_eq_matched h).1⟩
  · obtain ⟨t, name, -, hp, -⟩ := ruleRef_eq_matched h
    exact ⟨_, hp⟩
  · obtain ⟨p, l, st₁, code, range, -, hp, hcode, -⟩ := predicate_eq_matched h
    exact ⟨_, hp.trans hcode.passes⟩

theorem agree_suffixed : AgreeOn Q (suffixed inner) (suffixed inner') := by
  have hQ : Onward Q := hQR.outside
  refine .located hQ (.bind hQ (agree_primary hQR h) fun _ => .bind hQ ?_ fun o => ?_)
  · exact .optional hQ (.bind hQ .trivia fun _ => .operator _ _)
  · cases o <;> exact .pure _

theorem agree_prefixed : AgreeOn Q (prefixed inner) (prefixed inner') := by
  have hQ : Onward Q := hQR.outside
  refine .orElse hQ (.located hQ (.bind hQ (.operator _ _) fun _ => .bind hQ .trivia fun _ => ?_))
    (agree_suffixed hQR h)
  exact .bind hQ (agree_suffixed hQR h) fun _ => .pure _

theorem agree_pick : AgreeOn Q (pick inner) (pick inner') := by
  have hQ : Onward Q := hQR.outside
  refine .located hQ (.bind hQ (.located hQ (.bind hQ (.symbol '@') fun _ => .pure _)) fun _ => ?_)
  refine .bind hQ .trivia fun _ => .bind hQ (.optional hQ .label) fun o => ?_
  refine .bind hQ .trivia fun _ => .bind hQ (agree_prefixed hQR h) fun _ => ?_
  cases o <;> exact .pure _

theorem agree_labeled : AgreeOn Q (labeled inner) (labeled inner') := by
  have hQ : Onward Q := hQR.outside
  refine .orElse hQ (agree_pick hQR h) (.orElse hQ ?_ (agree_prefixed hQR h))
  exact .located hQ (.bind hQ .label fun _ => .bind hQ .trivia fun _ =>
    .bind hQ (agree_prefixed hQR h) fun _ => .pure _)

theorem agree_sequence : AgreeOn Q (sequence inner) (sequence inner') := by
  have hQ : Onward Q := hQR.outside
  refine .located hQ (.bind hQ (.bind hQ (.optional hQ (agree_labeled hQR h)) fun o => ?_)
    fun es => ?_)
  · cases o with
    | none => exact .pure _
    | some =>
        exact .bind hQ (.many hQ (.bind hQ .trivia fun _ => agree_labeled hQR h)) fun _ => .pure _
  · split
    · exact .pure _
    · exact .pure _

theorem agree_action : AgreeOn Q (action inner) (action inner') := by
  have hQ : Onward Q := hQR.outside
  refine .located hQ (.bind hQ (agree_sequence hQR h) fun _ => .bind hQ ?_ fun o => ?_)
  · exact .optional hQ (.bind hQ .trivia fun _ => .codeBlock)
  · cases o <;> exact .pure _

theorem agree_choice : AgreeOn Q (choice inner) (choice inner') := by
  have hQ : Onward Q := hQR.outside
  refine .located hQ (.bind hQ (agree_action hQR h) fun _ => .bind hQ (.many hQ ?_) fun es => ?_)
  · exact .bind hQ .trivia fun _ => .bind hQ (.symbol '/') fun _ =>
      agree_afterTrivia hQ (agree_action hQR h)
  · split
    · exact .pure _
    · exact .pure _

end

theorem onward_everywhere : Onward fun _ => True := fun _ _ => trivial

theorem encloses_everywhere : Encloses (fun _ => True) fun _ => True :=
  ⟨onward_everywhere, onward_everywhere, fun _ _ => trivial⟩

theorem agree_expression : AgreeOn Q expression expression :=
  .of_passes <| expression_induction fun _ hinner st e st' hchoice =>
    (agree_choice encloses_everywhere (.of_passes hinner) st trivial).2 e st' hchoice

/-- Where reading may come from a state on, and where a parenthesis has been opened on the way. -/
theorem encloses_passed (st : State) :
    Encloses (fun st' => ∃ t, st.Passes t st') fun st' => ∃ t u, st.Passes (t ++ '(' :: u) st' where
  outside := fun ⟨_, ht⟩ hp => ⟨_, ht.trans hp⟩
  inside := fun ⟨t, u, ht⟩ hp => ⟨t, _, by
    have hpass := ht.trans hp
    rwa [List.append_assoc] at hpass⟩
  opened := fun ⟨t, ht⟩ hp => ⟨t, [], ht.trans hp⟩

theorem choice_eq_of_opened {st : State} {inner : Reader Node}
    (h : ∀ t u st', st.Passes (t ++ '(' :: u) st' → inner st' = expression st') :
    choice inner st = choice expression st := by
  refine ((agree_choice (encloses_passed st) (fun st₁ hst₁ => ?_) st ⟨[], .refl st⟩).1).symm
  obtain ⟨t, u, hpass⟩ := hst₁
  exact ⟨(h t u st₁ hpass).symm, (agree_expression (Q := fun _ => True) st₁ trivial).2⟩

/-- The condition on the text inside parentheses is never in the way. -/
theorem expression_eq_choice : expression = choice expression := by
  funext st
  conv => lhs; rw [expression.eq_def]
  refine choice_eq_of_opened fun t u st' hpass => if_pos ?_
  rw [hpass.remaining_eq, List.length_append, List.length_cons]
  omega

end Reader

end PegGrammar
