import PegGrammar.Proofs.Endings
import PegGrammar.Proofs.Rounds
import PegGrammar.Proofs.WholeDocument

namespace PegGrammar

open Reader

namespace Reader

variable {α : Type} {p : Reader α} {st st' : State} {e : Node} {r : Rule ByteRange}

/-- Repeating the reader goes on for as long as it matches. -/
def Repeats (p : Reader α) : Prop := ∀ st, many p st =
  match p st with
  | .matched a st' =>
    match many p st' with
    | .matched as st'' => .matched (a :: as) st''
    | r => r
  | .unmatched failures => .matched [] { st with failures }
  | .disordered text range st' => .disordered text range st'

theorem repeats_of_passes
    (h : ∀ st a st', p st = .matched a st' → ∃ t, st.Passes t st' ∧ t ≠ []) : Repeats p := by
  intro st
  rw [many.eq_def]
  cases hmatch : p st with
  | matched a st' =>
      obtain ⟨t, hpass, ht⟩ := h st a st' hmatch
      have hlength := List.length_pos_iff.2 ht
      have hlt : st'.remaining < st.remaining := by
        rw [hpass.remaining_eq]
        omega
      cases hnext : many p st' <;> simp only [if_pos hlt, hnext]
  | unmatched | disordered => rfl

def MovesForward (source : Text) (p : Reader α) : Prop := ∀ st a st', st.At source →
  p st = .matched a st' → st.offset < st'.offset ∧ st'.offset ≤ source.byteSize

theorem movesForward_of_passes {source : Text}
    (h : ∀ st a st', p st = .matched a st' → ∃ t, st.Passes t st' ∧ t ≠ []) :
    MovesForward source p := by
  intro st a st' hst hmatch
  obtain ⟨t, hpass, ht⟩ := h st a st' hmatch
  have hsize : t.byteSize ≠ 0 := fun hzero => ht (StandsAt.eq_nil_of_byteSize_eq_zero hzero)
  refine ⟨?_, (hst.passes hpass).le_byteSize⟩
  rw [hpass.2]
  omega

theorem PassesApart.passes_ne_nil (h : PassesApart st st') : ∃ t, st.Passes t st' ∧ t ≠ [] :=
  h.imp fun _ ⟨hpass, hends⟩ => ⟨hpass, hends.ne_nil⟩

theorem passes_rule (h : rule st = .matched r st') : ∃ t, st.Passes t st' ∧ t ≠ [] := by
  obtain ⟨name, display, body, st₁, st₂, hheader, hbody, hend, -⟩ := rule_eq_matched h
  obtain ⟨n, u, st₀, hname, hpname, -, -, hp⟩ := header_eq_matched hheader
  obtain ⟨v, hv⟩ := (places_afterTrivia (fun _ _ _ => places_expression) hbody).passes
  obtain ⟨t, -, ht⟩ := statementEnd_eq_matched hend
  exact ⟨_, hpname.trans (hp.trans (hv.trans ht)),
    List.append_ne_nil_of_left_ne_nil hname.spelling.endsApart.ne_nil _⟩

theorem passes_alternative (h : alternative expression st = .matched e st') :
    ∃ l u, Gap l ('/' :: (u ++ st'.rest)) ∧ st.Passes (l ++ '/' :: u) st' := by
  obtain ⟨l, st₁, hl, hp, h⟩ := alternative_eq_matched h
  obtain ⟨u, hu⟩ := (places_afterTrivia
    (fun _ _ _ => places_action fun _ _ _ => places_expression) h).passes
  rw [hu.1] at hl
  have hpass := hp.trans hu
  rw [List.append_assoc] at hpass
  exact ⟨l, u, hl, hpass⟩

end Reader

/-- Whatever is read in the document takes a part of it, so reading goes on only as long as there is
text. -/
structure Progress (source : Text) : Prop where
  primary : MovesForward source (primary expression)
  suffixed : MovesForward source (suffixed expression)
  prefixed : MovesForward source (prefixed expression)
  labeled : MovesForward source (labeled expression)
  rule : MovesForward source rule
  /-- A further alternative comes after a slash. -/
  alternative : ∀ {st e st'}, alternative expression st = .matched e st' →
    ∃ l u, Gap l ('/' :: (u ++ st'.rest)) ∧ st.Passes (l ++ '/' :: u) st'
  /-- An expression is read inside another one only where a parenthesis was opened. -/
  enclosed : ∀ {st : State} {inner : Reader Node}, (∀ t u st', st.Passes (t ++ '(' :: u) st' →
    st'.remaining < st.remaining → inner st' = expression st') → choice inner st = expression st
  repeats : Repeats (trivia >>= fun _ => Reader.labeled expression) ∧
    Repeats (Reader.alternative expression) ∧ Repeats (thenTrivia Reader.rule)

theorem progress (source : Text) : Progress source where
  primary := movesForward_of_passes fun _ _ _ h => (passesApart_primary h).passes_ne_nil
  suffixed := movesForward_of_passes fun _ _ _ h => (passesApart_suffixed h).passes_ne_nil
  prefixed := movesForward_of_passes fun _ _ _ h => (passesApart_prefixed h).passes_ne_nil
  labeled := movesForward_of_passes fun _ _ _ h => (passesApart_labeled h).passes_ne_nil
  rule := movesForward_of_passes fun _ _ _ h => passes_rule h
  alternative := passes_alternative
  enclosed {st inner} h := by
    rw [expression_eq_choice]
    refine choice_eq_of_opened fun t u st' hpass => h t u st' hpass ?_
    rw [hpass.remaining_eq, List.length_append, List.length_cons]
    omega
  repeats := by
    refine ⟨repeats_of_passes fun st e st' h => ?_,
      repeats_of_passes fun st e st' h => (passesApart_alternative h).passes_ne_nil,
      repeats_of_passes fun st r st' h => ?_⟩
    · obtain ⟨_, st₁, ht, h⟩ := bind_eq_matched.1 h
      obtain ⟨l, -, hl⟩ := trivia_eq_matched ht
      exact (PassesApart.of_passes hl (passesApart_labeled h)).passes_ne_nil
    · obtain ⟨st₁, l, h, -, hl⟩ := thenTrivia_eq_matched h
      obtain ⟨t, hpass, ht⟩ := passes_rule h
      exact ⟨t ++ l, hpass.trans hl, List.append_ne_nil_of_left_ne_nil ht l⟩

theorem parseWith_ne_misplaced {options : ParseOptions} {source : String} :
    parseWith options source ≠ .error .misplaced := by
  intro h
  by_cases hstart : options.startRuleName = ParseOptions.onlyStartRule
  · obtain ⟨e, hread, he⟩ := readDocument_of_parseWith hstart h
    cases he
    rw [readDocument_eq] at hread
    split at hread <;> cases hread
  · rw [parseWith, if_neg hstart] at h
    cases h

/-- Parsing any document ends with a tree or an error, after finitely many rounds of every loop on
the way. -/
theorem parsing_terminates (options : ParseOptions) (source : String) :
    ((∃ g, parseWith options source = .ok g) ∨
      ∃ e, parseWith options source = .error e ∧ e ≠ .misplaced) ∧
    Progress source.toList ∧ RoundsAdvance := by
  refine ⟨?_, progress source.toList, rounds_advance⟩
  cases h : parseWith options source with
  | ok g => exact .inl ⟨g, rfl⟩
  | error e =>
      refine .inr ⟨e, rfl, ?_⟩
      rintro rfl
      exact parseWith_ne_misplaced h

end PegGrammar
