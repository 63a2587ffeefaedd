import PegGrammar.Proofs.Rereading.Trees
import PegGrammar.Reader.Document

namespace PegGrammar

open Reader PegGrammar.Expr

variable {s t m r F T : Text} {c : Char} {n : String}

namespace Reader

section StatementEnd

def skipInline (s : Text) : Text := s.drop (Trivia.skipInline s)

theorem skipInline_space (s : Text) : skipInline (' ' :: s) = skipInline s :=
  Trivia.drop_run_of_eq_one rfl

theorem skipInline_cons (hspace : isSpace c = false) (hslash : c ≠ '/') (s : Text) :
    skipInline (c :: s) = c :: s :=
  Trivia.drop_run_of_eq_none (Trivia.inlineUnit_eq_none hspace hslash s)

theorem takes_missInlineComment : Takes missInlineComment s (fun _ => True) s := by
  refine takes_ahead.bind ?_
  rintro _ rfl
  split
  next body =>
    intro st hst
    simp only [Bind.bind, Reader.bind, here]
    split
    all_goals exact ⟨(), _, rfl, trivial, hst⟩
  next => exact takes_expect _

theorem takes_inlineTrivia : Takes inlineTrivia s (fun _ => True) (skipInline s) := by
  refine takes_ahead.bind ?_
  rintro _ rfl
  exact (takes_advance _).bind fun _ _ => (takes_expect _).bind fun _ _ => takes_missInlineComment

theorem takes_lineComment : ∃ r, Takes lineComment s (fun _ => True) r := by
  cases h : Trivia.lineComment s with
  | none =>
      refine ⟨s, takes_ahead.bind ?_⟩
      rintro _ rfl
      rw [h]
      exact takes_expect _
  | some n =>
      refine ⟨s.drop n, takes_ahead.bind ?_⟩
      rintro _ rfl
      rw [h]
      exact takes_advance n

theorem lineComment_not (h : Trivia.lineComment s = none) :
    Takes lineComment s (fun _ => True) s := by
  refine takes_ahead.bind ?_
  rintro _ rfl
  rw [h]
  exact takes_expect _

theorem takes_lineEnd {k : Nat} (h : Trivia.lineEnd s = some k) :
    Takes lineEnd s (fun _ => True) (s.drop k) := by
  refine takes_ahead.bind ?_
  rintro _ rfl
  rw [h]
  exact takes_advance k

theorem refuses_lineEnd (h : Trivia.lineEnd s = none) : Refuses lineEnd s := by
  refine takes_ahead.bind_refuses ?_
  rintro _ rfl
  rw [h]
  exact refuses_fail _

theorem takes_endOfInput : Takes endOfInput [] (fun _ => True) [] := by
  refine takes_ahead.bind ?_
  rintro _ rfl
  exact takes_pure trivial

theorem refuses_endOfInput (h : s ≠ []) : Refuses endOfInput s := by
  refine takes_ahead.bind_refuses ?_
  rintro _ rfl
  rw [if_neg (by simpa using h)]
  exact refuses_fail _

theorem takes_statementEnd (ht : Next (· ≠ ';') (skipTrivia t)) (hm : Spaces ('\n' :: t) m) :
    Takes statementEnd m (fun _ => True) t := by
  have hskip : skipTrivia m = skipTrivia t := hm.skipTrivia.trans (skipTrivia_newline t)
  have hinline : skipInline m = '\n' :: t := by
    induction hm with
    | refl => exact skipInline_cons (by decide) (by decide) t
    | space _ ih =>
        rw [skipInline_space]
        exact ih (by rwa [skipTrivia_space] at hskip)
  refine .orElse_right (takes_trivia.bind_refuses fun _ _ => refuses_symbol (hskip ▸ ht))
    (.orElse (takes_inlineTrivia.bind fun _ _ => ?_))
  rw [hinline]
  refine (lineComment_not (Trivia.lineComment_eq_none (by decide) t)).bind fun _ _ => ?_
  exact takes_lineEnd (k := 1) rfl

theorem refuses_statementEnd (h : Stuck r) : Refuses statementEnd r := by
  have hinline : ∃ c t, skipInline r = c :: t ∧ IsStuck c := by
    induction h with
    | here t hc => exact ⟨_, t, skipInline_cons hc.solid.space hc.solid.slash t, hc⟩
    | space _ ih =>
        rw [skipInline_space]
        exact ih
  obtain ⟨c, t, hinline, hc⟩ := hinline
  obtain ⟨d, u, hskip, -⟩ := h.exists_skipTrivia
  refine .orElse (takes_trivia.bind_refuses fun _ _ => refuses_symbol ?_) (.orElse
    (takes_inlineTrivia.bind_refuses fun _ _ => ?_) (takes_trivia.bind_refuses fun _ _ => ?_))
  · exact h.next fun _ hc => hc.ne (by decide)
  · rw [hinline]
    refine (lineComment_not (Trivia.lineComment_eq_none hc.solid.slash t)).bind_refuses fun _ _ => ?_
    exact refuses_lineEnd (Trivia.lineEnd_eq_none hc.solid.line t)
  · rw [hskip]
    exact refuses_endOfInput (by simp)

/-- Whether a statement ends depends on the text ahead alone. -/
theorem takes_or_refuses_statementEnd (s : Text) :
    (∃ r, Takes statementEnd s (fun _ => True) r) ∨ Refuses statementEnd s := by
  have hsemicolon (u : Text) : (∃ r, Takes (symbol ';') u (fun _ => True) r) ∨ Refuses (symbol ';') u := by
    cases u with
    | nil => exact .inr (refuses_symbol nofun)
    | cons c u =>
        by_cases hc : c = ';'
        · exact .inl ⟨u, hc ▸ takes_symbol⟩
        · exact .inr (refuses_symbol (next_cons hc))
  have hline (u : Text) : (∃ r, Takes lineEnd u (fun _ => True) r) ∨ Refuses lineEnd u := by
    cases h : Trivia.lineEnd u with
    | none => exact .inr (refuses_lineEnd h)
    | some k => exact .inl ⟨_, takes_lineEnd h⟩
  obtain ⟨u, hcomment⟩ := takes_lineComment (s := skipInline s)
  rcases hsemicolon (skipTrivia s) with ⟨r, h⟩ | h₁
  · exact .inl ⟨r, .orElse (takes_trivia.bind fun _ _ => h)⟩
  · have h₁ := takes_trivia.bind_refuses (f := fun _ => symbol ';') fun _ _ => h₁
    rcases hline u with ⟨r, h⟩ | h₂
    · exact .inl ⟨r, .orElse_right h₁ (.orElse
        (takes_inlineTrivia.bind fun _ _ => hcomment.bind fun _ _ => h))⟩
    · have h₂ := takes_inlineTrivia.bind_refuses
        fun _ _ => hcomment.bind_refuses (f := fun _ => lineEnd) fun _ _ => h₂
      by_cases hs : skipTrivia s = []
      · refine .inl ⟨[], .orElse_right h₁ (.orElse_right h₂ (takes_trivia.bind fun _ _ => ?_))⟩
        rw [hs]
        exact takes_endOfInput
      · exact .inr (.orElse h₁ (.orElse h₂
          (takes_trivia.bind_refuses fun _ _ => refuses_endOfInput hs)))

theorem takes_of_statementEnd {st st' : State} (h : statementEnd st = .matched () st') :
    Takes statementEnd st.rest (fun _ => True) st'.rest := by
  rcases takes_or_refuses_statementEnd st.rest with ⟨r, htakes⟩ | hrefuses
  · obtain ⟨_, _, hmatch, -, rfl⟩ := htakes st rfl
    rw [h] at hmatch
    cases hmatch
    exact htakes
  · obtain ⟨_, hnone⟩ := hrefuses st rfl
    rw [h] at hnone
    cases hnone

end StatementEnd

end Reader

end PegGrammar
