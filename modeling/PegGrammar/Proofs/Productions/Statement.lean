import PegGrammar.Proofs.Reading
import PegGrammar.Proofs.Recognition.CodeBlock
import PegGrammar.Proofs.Recognition.Length
import PegGrammar.Reader.Expression

namespace PegGrammar

/-- Trivia that ends where `rest` begins. -/
structure Gap (l rest : Text) : Prop where
  trivia : TriviaText rest l
  skip : Reader.skipTrivia (l ++ rest) = rest

theorem Gap.of_skip {l rest : Text} (h : Reader.skipTrivia (l ++ rest) = rest) : Gap l rest := by
  have hdrop : (l ++ rest).drop (Trivia.skip (l ++ rest)) = rest := h
  have htake : (l ++ rest).take (Trivia.skip (l ++ rest)) = l := by
    have hs := List.take_append_drop (Trivia.skip (l ++ rest)) (l ++ rest)
    rw [hdrop] at hs
    exact List.append_cancel_right hs
  have htrivia := Trivia.triviaText_skip (l ++ rest)
  rw [hdrop, htake] at htrivia
  exact ⟨htrivia, h⟩

theorem Gap.skip_rest {l rest : Text} (h : Gap l rest) : Reader.skipTrivia rest = rest :=
  calc Reader.skipTrivia rest
    _ = Reader.skipTrivia (Reader.skipTrivia (l ++ rest)) := by rw [h.skip]
    _ = Reader.skipTrivia (l ++ rest) := by
      simp only [Reader.skipTrivia, Trivia.skip, Trivia.run_drop_run, List.drop_zero]
    _ = rest := h.skip

theorem Gap.append {l r rest : Text} (h : Gap l (r ++ rest)) (h' : Gap r rest) :
    Gap (l ++ r) rest := by
  refine .of_skip ?_
  rw [List.append_assoc, h.skip, ← h.skip_rest, h'.skip]

structure NameFound (t : Text) (n : String) (rest : Text) : Prop where
  found : Name.name (t ++ rest) = some ⟨n, t.length⟩

structure StringFound (t : Text) (v : String) (rest : Text) : Prop where
  found : StringLiteral.stringLiteral (t ++ rest) = some ⟨v, t.length⟩

structure ClassFound (t : Text) (body : ClassBody) (rest : Text) : Prop where
  found : ClassBody.classBody (t ++ rest) = .ok (some ⟨body, t.length⟩)

variable {t u rest : Text}

theorem NameFound.spelling {n : String} (h : NameFound t n rest) : NameSpelling t n := by
  have hspelling := Name.nameSpelling_of_name h.found
  rwa [List.take_left] at hspelling

theorem StringFound.spelling {v : String} (h : StringFound t v rest) : StringSpelling t v := by
  have hspelling := StringLiteral.stringSpelling_of_stringLiteral h.found
  rwa [List.take_left] at hspelling

theorem ClassFound.spelling {body : ClassBody} (h : ClassFound t body rest) :
    ClassSpelling t body := by
  have hspelling := ClassBody.classSpelling_of_classBody h.found
  rwa [List.take_left] at hspelling

/-- Reading passes a block of balanced code, which lies at `range`. -/
structure State.PassesBlock (st : State) (code : String) (range : ByteRange) (st' : State) :
    Prop where
  passes : st.Passes ('{' :: (code.toList ++ ['}'])) st'
  balanced : Balanced code.toList
  range_eq : range = ⟨st.offset + 1, st.offset + 1 + Text.byteSize code.toList⟩

namespace Reader

variable {st st' : State}

theorem trivia_eq_matched (h : trivia st = .matched () st') :
    ∃ t, Gap t st'.rest ∧ st.Passes t st' := by
  obtain ⟨s, _, hh, h⟩ := bind_eq_matched.1 h
  obtain ⟨rfl, rfl⟩ := pure_eq_matched.1 hh
  cases h
  refine ⟨_, .of_skip ?_, State.Passes.advance st _⟩
  exact congrArg skipTrivia (List.take_append_drop _ st.rest)

theorem missInlineComment_eq_matched (h : missInlineComment st = .matched () st') :
    st.Passes [] st' := by
  obtain ⟨s, _, hh, h⟩ := bind_eq_matched.1 h
  obtain ⟨rfl, rfl⟩ := pure_eq_matched.1 hh
  generalize st.rest = s at h
  split at h
  next body =>
    obtain ⟨_, _, hh, h⟩ := bind_eq_matched.1 h
    cases hh
    split at h
    all_goals
      cases h
      exact .refl st
  next =>
    cases h
    exact .refl st

theorem inlineTrivia_eq_matched (h : inlineTrivia st = .matched () st') :
    ∃ t, InlineText st'.rest t ∧ st.Passes t st' := by
  obtain ⟨s, _, hh, h⟩ := bind_eq_matched.1 h
  obtain ⟨rfl, rfl⟩ := pure_eq_matched.1 hh
  obtain ⟨_, _, hh, h⟩ := bind_eq_matched.1 h
  cases hh
  obtain ⟨_, _, hh, h⟩ := bind_eq_matched.1 h
  cases hh
  have hmiss := missInlineComment_eq_matched h
  change (st.advance (Trivia.skipInline st.rest)).Passes [] st' at hmiss
  have hp := (State.Passes.advance st _).trans hmiss
  rw [List.append_nil] at hp
  have hinline := Trivia.inlineText_skipInline st.rest
  rw [show st.rest.drop (Trivia.skipInline st.rest) = st'.rest from hmiss.1] at hinline
  exact ⟨_, hinline, hp⟩

theorem lineComment_eq_matched (h : lineComment st = .matched () st') :
    ∃ t, (t = [] ∨ LineCommentText st'.rest t) ∧ st.Passes t st' := by
  obtain ⟨s, _, hh, h⟩ := bind_eq_matched.1 h
  obtain ⟨rfl, rfl⟩ := pure_eq_matched.1 hh
  cases hn : Trivia.lineComment st.rest with
  | none =>
      rw [hn] at h
      cases h
      exact ⟨[], .inl rfl, .refl st⟩
  | some n =>
      rw [hn] at h
      cases h
      exact ⟨_, .inr (Trivia.lineCommentText_of_lineComment hn), .advance st n⟩

theorem lineEnd_eq_matched (h : lineEnd st = .matched () st') :
    ∃ t, LineEndText t ∧ st.Passes t st' := by
  obtain ⟨s, _, hh, h⟩ := bind_eq_matched.1 h
  obtain ⟨rfl, rfl⟩ := pure_eq_matched.1 hh
  cases hn : Trivia.lineEnd st.rest with
  | none =>
      rw [hn] at h
      cases h
  | some n =>
      rw [hn] at h
      cases h
      exact ⟨_, Trivia.lineEndText_of_lineEnd hn, .advance st n⟩

theorem endOfInput_eq_matched (h : endOfInput st = .matched () st') :
    st'.rest = [] ∧ st.Passes [] st' := by
  obtain ⟨s, _, hh, h⟩ := bind_eq_matched.1 h
  obtain ⟨rfl, rfl⟩ := pure_eq_matched.1 hh
  split at h
  next hs =>
    cases h
    exact ⟨List.isEmpty_iff.1 hs, .refl st⟩
  next => cases h

theorem statementEnd_eq_matched (h : statementEnd st = .matched () st') :
    ∃ t, StatementEndText st'.rest t ∧ st.Passes t st' := by
  rw [statementEnd, orElse_eq_matched] at h
  rcases h with h | ⟨f, -, h⟩
  · obtain ⟨_, st₁, ht, h⟩ := bind_eq_matched.1 h
    obtain ⟨t, htrivia, hp⟩ := trivia_eq_matched ht
    have hp₁ := symbol_eq_matched h
    rw [hp₁.1] at htrivia
    exact ⟨_, .semicolon htrivia.trivia, hp.trans hp₁⟩
  · rcases orElse_eq_matched.1 h with h | ⟨f', -, h⟩
    · obtain ⟨_, st₁, ht, h⟩ := bind_eq_matched.1 h
      obtain ⟨_, st₂, hc, h⟩ := bind_eq_matched.1 h
      obtain ⟨t, hinline, hp⟩ := inlineTrivia_eq_matched ht
      obtain ⟨c, hcomment, hp₁⟩ := lineComment_eq_matched hc
      obtain ⟨l, hline, hp₂⟩ := lineEnd_eq_matched h
      rw [hp₁.1, hp₂.1] at hinline
      rw [hp₂.1] at hcomment
      exact ⟨_, .line hinline hcomment hline, (hp.trans hp₁).trans hp₂⟩
    · obtain ⟨_, st₁, ht, h⟩ := bind_eq_matched.1 h
      obtain ⟨t, htrivia, hp⟩ := trivia_eq_matched ht
      obtain ⟨hrest, hp₁⟩ := endOfInput_eq_matched h
      rw [hp₁.1] at htrivia
      have hp := hp.trans hp₁
      rw [List.append_nil] at hp
      exact ⟨t, .input htrivia.trivia hrest, hp⟩

theorem name_eq_matched {token : Token String} (h : name st = .matched token st') :
    ∃ t, NameFound t token.value st'.rest ∧ st.Passes t st' ∧
      token.range = ⟨st.offset, st'.offset⟩ := by
  obtain ⟨l, hl, rfl, hp⟩ := lexeme_eq_matched h
  refine ⟨_, ⟨?_⟩, hp, rfl⟩
  rw [← hp.1, hl, List.length_take_of_le (Name.length_le_of_name hl)]

theorem string_eq_matched {description : String} {token : Token String}
    (h : lexeme description StringLiteral.stringLiteral st = .matched token st') :
    ∃ t, StringFound t token.value st'.rest ∧ st.Passes t st' := by
  obtain ⟨l, hl, rfl, hp⟩ := lexeme_eq_matched h
  refine ⟨_, ⟨?_⟩, hp⟩
  rw [← hp.1, hl, List.length_take_of_le (StringLiteral.length_le_of_stringLiteral hl)]

theorem codeBlock_eq_matched {token : Token String} (h : codeBlock st = .matched token st') :
    st.PassesBlock token.value token.range st' := by
  obtain ⟨s, _, hh, h⟩ := bind_eq_matched.1 h
  obtain ⟨rfl, rfl⟩ := pure_eq_matched.1 hh
  cases hc : CodeBlock.codeBlock st.rest with
  | none =>
      rw [hc] at h
      cases h
  | some code =>
      rw [hc] at h
      cases h
      obtain ⟨hb, r, hr⟩ := CodeBlock.codeBlock_eq_some_iff.1 hc
      have hsize : Char.utf8Size '{' = 1 := rfl
      refine ⟨⟨?_, ?_⟩, by rwa [String.toList_ofList], ?_⟩
      · simp [State.advance, hr]
      · simp [State.advance, hr, Nat.add_assoc]
      · simp [State.advance, hr, hsize]

theorem classBody_eq_matched {body : ClassBody} (h : classBody st = .matched body st') :
    ∃ t, ClassFound t body st'.rest ∧ st.Passes t st' := by
  rw [classBody] at h
  split at h
  next l hl =>
    cases h
    have hp := State.Passes.advance st l.length
    refine ⟨_, ⟨?_⟩, hp⟩
    rw [← hp.1, hl, List.length_take_of_le (ClassBody.length_of_classBody hl).2]
  next => cases h
  next => cases h

end Reader

end PegGrammar
