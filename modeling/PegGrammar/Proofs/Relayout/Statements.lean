import PegGrammar.Proofs.Relayout.Blank
import PegGrammar.Proofs.Rereading.Statements

namespace PegGrammar

open Reader

variable {st st' : State} {s t u i k e p y r : Text} {c : Char}

/-- The rest of a line, up to and including its end, in front of `rest`. -/
def LineText (rest t : Text) : Prop :=
  ∃ i k e, InlineText (k ++ (e ++ rest)) i ∧ (k = [] ∨ LineCommentText (e ++ rest) k) ∧
    LineEndText e ∧ t = i ++ (k ++ e)

namespace Trivia

theorem throughCloseInline_append {b : Text} (hclosed : ¬ ['*', '/'] <:+: b ++ ['*'])
    (hline : ∀ c ∈ b, isLineTerminator c = false) (y : Text) :
    throughCloseInline (b ++ '*' :: '/' :: y) = some (b.length + 2) := by
  induction b with
  | nil => rfl
  | cons c b ih =>
      have hb := ih (fun h => hclosed (h.trans (List.infix_cons (List.infix_refl _))))
        fun d hd => hline d (List.mem_cons_of_mem c hd)
      rw [List.cons_append, throughCloseInline.eq_def]
      split
      next heq =>
        obtain ⟨rfl, htail⟩ := List.cons.inj heq
        cases b with
        | nil => cases htail
        | cons d b =>
            obtain ⟨rfl, -⟩ := List.cons.inj htail
            exact (hclosed ⟨[], b ++ ['*'], rfl⟩).elim
      next heq =>
        obtain ⟨rfl, rfl⟩ := List.cons.inj heq
        rw [hline c List.mem_cons_self, hb]
        rfl
      next heq => cases heq

theorem inlineComment_append (h : BlockText t) (hline : ∀ c ∈ t, isLineTerminator c = false)
    (y : Text) : inlineComment (t ++ y) = some t.length := by
  cases h with
  | @mk b hclosed =>
      have htext : '/' :: '*' :: (b ++ ['*', '/']) ++ y = '/' :: '*' :: (b ++ '*' :: '/' :: y) := by
        simp
      rw [htext, inlineComment, throughCloseInline_append hclosed fun c hc => hline c (by simp [hc])]
      simp

theorem inlineUnit_append {x : Text} (h : InlinePiece x u) (y : Text) :
    u ≠ [] ∧ inlineUnit (u ++ y) = some u.length ∧ unit (u ++ y) = some u.length := by
  cases h with
  | @space c hc =>
      have hspace : space (c :: y) = some 1 := by rw [space, if_pos hc]
      exact ⟨by simp, by rw [List.singleton_append, inlineUnit, hspace]; rfl,
        by rw [List.singleton_append, unit, hspace]; rfl⟩
  | block hblock hline =>
      have hinline := inlineComment_append hblock hline y
      have hcomment := (blockComment_of_inlineComment hinline).1
      cases hblock with
      | mk hclosed =>
          refine ⟨by simp, ?_, ?_⟩
          · rw [inlineUnit, hinline, List.cons_append, space_eq_none (by decide)]
            rfl
          · rw [List.cons_append] at hcomment ⊢
            rw [unit_slash, comment, hcomment]
            rfl

end Trivia

namespace Reader

theorem skipInline_append {x : Text} (h : InlineText x i) (y : Text) : skipInline (i ++ y) = skipInline y := by
  induction h with
  | nil => rfl
  | @cons t u ht _ ih =>
      obtain ⟨hne, hunit, -⟩ := Trivia.inlineUnit_append ht (u ++ y)
      rw [List.append_assoc, skipInline, Trivia.skipInline, Trivia.drop_run_of_unit hne hunit]
      exact ih

theorem blank_inlineText {x : Text} (h : InlineText x i) : Blank i := by
  induction h with
  | nil => exact .nil
  | @cons t u ht _ ih =>
      intro y
      obtain ⟨hne, -, hunit⟩ := Trivia.inlineUnit_append ht (u ++ y)
      rw [List.append_assoc, skipTrivia, Trivia.skip, Trivia.drop_run_of_unit hne hunit]
      exact ih y

theorem blank_lineEndText (h : LineEndText e) : Blank e := by
  refine blank_of_forall fun c hc => .inr ?_
  cases h with
  | crlf => exact forall_mem_of_all (P := (isLineTerminator · = true)) (by decide) c hc
  | single h => rwa [List.mem_singleton.1 hc]

theorem next_lineEnd (h : LineEndText e) (y : Text) :
    ∀ c ∈ (e ++ y).head?, isLineTerminator c = true := by
  obtain ⟨c, s, hs, hc⟩ := h.exists_cons y
  rw [hs]
  rintro _ ⟨⟩
  exact hc

theorem inline_of_isLineTerminator (h : isLineTerminator c = true) :
    isSpace c = false ∧ c ≠ '/' := by
  simp only [isLineTerminator, Bool.or_eq_true, beq_iff_eq] at h
  rcases h with ((rfl | rfl) | rfl) | rfl <;> decide

theorem lineComment_lineEnd {x : Text} (hk : LineCommentText x k) (he : LineEndText e) (y : Text) :
    Trivia.lineComment (k ++ (e ++ y)) = some k.length := by
  cases hk with
  | mk hb =>
      rw [List.cons_append, List.cons_append, Trivia.lineComment, Trivia.restOfLine_append hb,
        Trivia.restOfLine_eq_nil (next_lineEnd he y), List.append_nil]
      rfl

theorem blank_comment {x : Text} (hk : k = [] ∨ LineCommentText x k) (he : LineEndText e) :
    Blank (k ++ e) := by
  rcases hk with rfl | hk
  · exact blank_lineEndText he
  · intro y
    have hline := lineComment_lineEnd hk he y
    have hunit : Trivia.unit (k ++ (e ++ y)) = some k.length := by
      cases hk with
      | mk hb => exact (unit_slash _).trans hline
    have hne : k ≠ [] := by
      cases hk
      simp
    rw [List.append_assoc]
    exact (Trivia.drop_run_of_unit hne hunit).trans (blank_lineEndText he y)

theorem blank_lineText (h : LineText r t) : Blank t := by
  obtain ⟨i, k, e, hi, hk, he, rfl⟩ := h
  exact (blank_inlineText hi).append (blank_comment hk he)

/-- The line ends here, possibly after a comment, and `r` is left. -/
def EndsLine (s r : Text) : Prop :=
  Takes (do lineComment; lineEnd) (skipInline s) (fun _ => True) r

theorem takes_lineEnd_text (he : LineEndText e) (y : Text) :
    ∃ r, Takes lineEnd (e ++ y) (fun _ => True) r ∧ (y = [] → r = []) := by
  cases he with
  | crlf => exact ⟨y, takes_lineEnd (k := 2) rfl, id⟩
  | @single c hc =>
      by_cases hcrlf : c = '\r' ∧ ∃ y', y = '\n' :: y'
      · obtain ⟨rfl, y, rfl⟩ := hcrlf
        exact ⟨y, takes_lineEnd (k := 2) rfl, nofun⟩
      · refine ⟨y, takes_lineEnd (k := 1) ?_, id⟩
        rw [List.singleton_append, Trivia.lineEnd, if_pos hc]
        rintro y' rfl rfl
        exact hcrlf ⟨rfl, y', rfl⟩

theorem takes_comment {x : Text} (hk : k = [] ∨ LineCommentText x k) (he : LineEndText e) (y : Text) :
    Takes lineComment (k ++ (e ++ y)) (fun _ => True) (e ++ y) := by
  rcases hk with rfl | hk
  · obtain ⟨c, s, hs, hc⟩ := he.exists_cons y
    rw [List.nil_append, hs]
    exact lineComment_not (Trivia.lineComment_eq_none (inline_of_isLineTerminator hc).2 s)
  · refine takes_ahead.bind ?_
    rintro _ rfl
    rw [lineComment_lineEnd hk he y]
    have h := takes_advance (s := k ++ (e ++ y)) k.length
    rwa [List.drop_left] at h

theorem skipInline_comment {x : Text} (hk : k = [] ∨ LineCommentText x k) (he : LineEndText e)
    (y : Text) :
    skipInline (k ++ (e ++ y)) = k ++ (e ++ y) := by
  rcases hk with rfl | hk
  · obtain ⟨c, s, hs, hc⟩ := he.exists_cons y
    obtain ⟨hspace, hslash⟩ := inline_of_isLineTerminator hc
    rw [List.nil_append, hs]
    exact skipInline_cons hspace hslash s
  · cases hk with
    | mk hb => exact Trivia.drop_run_of_eq_none rfl

theorem endsLine_lineText {x : Text} (h : LineText x t) (y : Text) :
    ∃ r, EndsLine (t ++ y) r ∧ (y = [] → r = []) := by
  obtain ⟨i, k, e, hi, hk, he, rfl⟩ := h
  obtain ⟨r, hr, hnil⟩ := takes_lineEnd_text he y
  refine ⟨r, ?_, hnil⟩
  rw [EndsLine, List.append_assoc, skipInline_append hi, List.append_assoc, skipInline_comment hk he]
  exact (takes_comment hk he y).bind fun _ _ => hr

/-- Behind something blank a line ends too, though it may be an earlier one. -/
theorem endsLine_blank (hp : ∀ c ∈ p, isSpace c = true ∨ isLineTerminator c = true)
    (h : ∃ r, EndsLine s r) : ∃ r, EndsLine (p ++ s) r := by
  induction p with
  | nil => exact h
  | cons c p ih =>
      have hp' : ∀ c ∈ p, isSpace c = true ∨ isLineTerminator c = true :=
        fun d hd => hp d (List.mem_cons_of_mem c hd)
      rcases hp c List.mem_cons_self with hc | hc
      · obtain ⟨r, hr⟩ := ih hp'
        have hinline : InlineText [] [c] := .cons (InlinePiece.space hc) .nil
        exact ⟨r, by rwa [EndsLine, List.cons_append, ← List.singleton_append, skipInline_append hinline]⟩
      · have hline : LineText [] [c] := ⟨[], [], [c], .nil, .inl rfl, .single hc, rfl⟩
        obtain ⟨r, hr, -⟩ := endsLine_lineText hline (p ++ s)
        exact ⟨r, hr⟩

/-- Whether a line ends depends on the text ahead alone. -/
theorem endsLine_or_refuses (s : Text) :
    (∃ r, EndsLine s r) ∨ Refuses (do inlineTrivia; lineComment; lineEnd) s := by
  obtain ⟨u, hcomment⟩ := takes_lineComment (s := skipInline s)
  cases h : Trivia.lineEnd u with
  | some n => exact .inl ⟨_, hcomment.bind fun _ _ => takes_lineEnd h⟩
  | none =>
      exact .inr (takes_inlineTrivia.bind_refuses fun _ _ =>
        hcomment.bind_refuses fun _ _ => refuses_lineEnd h)

theorem takes_statementEnd_of_endsLine (hs : Next (· ≠ ';') (skipTrivia s)) (h : EndsLine s r) :
    Takes statementEnd s (fun _ => True) r :=
  .orElse_right (takes_trivia.bind_refuses fun _ _ => refuses_symbol hs)
    (.orElse (takes_inlineTrivia.bind fun _ _ => h))

theorem takes_statementEnd_symbol (hs : skipTrivia s = ';' :: r) :
    Takes statementEnd s (fun _ => True) r := by
  refine .orElse (takes_trivia.bind fun _ _ => ?_)
  rw [hs]
  exact takes_symbol

theorem exists_statementEnd (hs : skipTrivia s = []) : ∃ r, Takes statementEnd s (fun _ => True) r := by
  have hsymbol : Next (· ≠ ';') (skipTrivia s) := by
    rw [hs]
    exact nofun
  rcases endsLine_or_refuses s with ⟨r, h⟩ | h
  · exact ⟨r, takes_statementEnd_of_endsLine hsymbol h⟩
  · refine ⟨[], .orElse_right (takes_trivia.bind_refuses fun _ _ => refuses_symbol hsymbol)
      (.orElse_right h (takes_trivia.bind fun _ _ => ?_))⟩
    rw [hs]
    exact takes_endOfInput

theorem statementEnd_cases (h : statementEnd st = .matched () st') (hp : st.Passes t st') :
    (∃ l, t = l ++ [';'] ∧ Gap l (';' :: st'.rest)) ∨ LineText st'.rest t ∨
      (st'.rest = [] ∧ Gap t []) := by
  rcases orElse_eq_matched.1 h with h | ⟨f, -, h⟩
  · obtain ⟨_, st₁, ht, h⟩ := bind_eq_matched.1 h
    obtain ⟨l, hl, hpl⟩ := trivia_eq_matched ht
    have hs := symbol_eq_matched h
    rw [hs.1] at hl
    exact .inl ⟨l, hp.unique (hpl.trans hs), hl⟩
  rcases orElse_eq_matched.1 h with h | ⟨f', -, h⟩
  · obtain ⟨_, st₁, ht, h⟩ := bind_eq_matched.1 h
    obtain ⟨_, st₂, hc, h⟩ := bind_eq_matched.1 h
    obtain ⟨i, hi, hpi⟩ := inlineTrivia_eq_matched ht
    obtain ⟨k, hk, hpk⟩ := lineComment_eq_matched hc
    obtain ⟨e, he, hpe⟩ := lineEnd_eq_matched h
    rw [hpk.1, hpe.1] at hi
    rw [hpe.1] at hk
    have hpass := (State.Passes.of_failures st f).trans (hpi.trans (hpk.trans hpe))
    exact .inr (.inl ⟨i, k, e, hi, hk, he, hp.unique hpass⟩)
  · obtain ⟨_, st₁, ht, h⟩ := bind_eq_matched.1 h
    obtain ⟨l, hl, hpl⟩ := trivia_eq_matched ht
    obtain ⟨hrest, hpr⟩ := endOfInput_eq_matched h
    have hpass := (State.Passes.of_failures st f').trans (hpl.trans hpr)
    rw [List.append_nil] at hpass
    rw [← hpr.eq_rest, hrest] at hl
    obtain rfl := hp.unique hpass
    exact .inr (.inr ⟨hrest, hl⟩)

/-- Unless it is a semicolon, the end of a statement is trivia. -/
theorem skipTrivia_of_statementEnd (h : statementEnd st = .matched () st')
    (hs : Next (· ≠ ';') (skipTrivia st.rest)) : skipTrivia st'.rest = skipTrivia st.rest := by
  obtain ⟨t, -, hp⟩ := statementEnd_eq_matched h
  rw [hp.1] at hs ⊢
  rcases statementEnd_cases h hp with ⟨l, rfl, hl⟩ | ht | ⟨hrest, ht⟩
  · rw [List.append_assoc, List.singleton_append, hl.skip] at hs
    exact (hs ';' rfl rfl).elim
  · exact (blank_lineText ht _).symm
  · rw [hrest, ht.skip]
    exact skipTrivia_nil

theorem takes_statementEnd_blank (hp : ∀ c ∈ p, isSpace c = true ∨ isLineTerminator c = true)
    (ht : (∃ x, LineText x t) ∨ skipTrivia (t ++ y) = []) (hs : Next (· ≠ ';') (skipTrivia (t ++ y))) :
    ∃ r, Takes statementEnd (p ++ (t ++ y)) (fun _ => True) r ∧
      skipTrivia r = skipTrivia (t ++ y) := by
  have hskip : skipTrivia (p ++ (t ++ y)) = skipTrivia (t ++ y) := blank_of_forall hp _
  rw [← hskip] at hs ⊢
  obtain ⟨r, hr⟩ : ∃ r, Takes statementEnd (p ++ (t ++ y)) (fun _ => True) r := by
    rcases ht with ⟨_, ht⟩ | ht
    · obtain ⟨r, hr, -⟩ := endsLine_lineText ht y
      obtain ⟨r', hr'⟩ := endsLine_blank hp ⟨r, hr⟩
      exact ⟨r', takes_statementEnd_of_endsLine hs hr'⟩
    · exact exists_statementEnd (hskip.trans ht)
  obtain ⟨_, st', hmatch, -, hrest⟩ := hr { rest := p ++ (t ++ y) } rfl
  refine ⟨r, hr, ?_⟩
  rw [← hrest]
  exact skipTrivia_of_statementEnd hmatch hs

end Reader

end PegGrammar
