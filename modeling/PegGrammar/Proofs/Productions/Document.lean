import PegGrammar.Proofs.Productions.Expression
import PegGrammar.Reader.Document

namespace PegGrammar.Reader

variable {st st' : State}

theorem topLevelInitializer_eq_matched {i : Initializer ByteRange}
    (h : topLevelInitializer st = .matched i st') :
    ∃ st₁ st₂ st₃, st.Passes ['{'] st₁ ∧ st₁.PassesBlock i.code i.codeLocation st₂ ∧
      st₂.Passes ['}'] st₃ ∧ statementEnd st₃ = .matched () st' ∧
      i.location = ⟨st.offset, st'.offset⟩ := by
  obtain ⟨f, h, he⟩ := located_eq_matched h
  obtain ⟨_, st₁, ho, h⟩ := bind_eq_matched.1 h
  obtain ⟨code, st₂, hc, h⟩ := bind_eq_matched.1 h
  obtain ⟨_, st₃, hs, h⟩ := bind_eq_matched.1 h
  obtain ⟨_, st₄, hend, h⟩ := bind_eq_matched.1 h
  obtain ⟨rfl, rfl⟩ := pure_eq_matched.1 h
  subst he
  exact ⟨st₁, st₂, st₃, symbol_eq_matched ho, codeBlock_eq_matched hc, symbol_eq_matched hs, hend,
    rfl⟩

theorem initializer_eq_matched {i : Initializer ByteRange}
    (h : initializer st = .matched i st') :
    ∃ st₁, st.PassesBlock i.code i.codeLocation st₁ ∧ statementEnd st₁ = .matched () st' ∧
      i.location = ⟨st.offset, st'.offset⟩ := by
  obtain ⟨f, h, he⟩ := located_eq_matched h
  obtain ⟨code, st₁, hc, h⟩ := bind_eq_matched.1 h
  obtain ⟨_, st₂, hend, h⟩ := bind_eq_matched.1 h
  obtain ⟨rfl, rfl⟩ := pure_eq_matched.1 h
  subst he
  exact ⟨st₁, codeBlock_eq_matched hc, hend, rfl⟩

theorem displayName_eq_matched {d : String × Bool} (h : displayName st = .matched d st') :
    ∃ t l r, StringFound t d.1 (l ++ (verboseMark d.2 r ++ st'.rest)) ∧
      Gap l (verboseMark d.2 r ++ st'.rest) ∧ Gap r st'.rest ∧
      st.Passes (t ++ (l ++ verboseMark d.2 r)) st' := by
  obtain ⟨token, st₁, hs, h⟩ := bind_eq_matched.1 h
  obtain ⟨_, st₂, ht, h⟩ := bind_eq_matched.1 h
  obtain ⟨verbose, st₃, hv, h⟩ := bind_eq_matched.1 h
  obtain ⟨rfl, rfl⟩ := pure_eq_matched.1 h
  obtain ⟨t, hfound, hp⟩ := string_eq_matched hs
  obtain ⟨l, hl, hp₁⟩ := trivia_eq_matched ht
  rw [hp₁.1] at hfound
  rcases succeeds_eq_matched hv with ⟨rfl, htilde⟩ | ⟨rfl, hp₂⟩
  · obtain ⟨_, st₄, hsym, htriv⟩ := bind_eq_matched.1 htilde
    obtain ⟨r, hr, hp₃⟩ := trivia_eq_matched htriv
    have hp₂ := (symbol_eq_matched hsym).trans_cons hp₃
    rw [hp₂.1] at hfound hl
    exact ⟨t, l, r, hfound, hl, hr, hp.trans (hp₁.trans hp₂)⟩
  · rw [hp₂.1] at hfound hl
    exact ⟨t, l, [], hfound, hl, ⟨.nil, hl.skip_rest⟩, hp.trans (hp₁.trans hp₂)⟩

/-- What is found between the name of a rule and its equals sign, where `rest` begins. -/
def HeaderFound (u : Text) (display : Option (String × Bool)) (rest : Text) : Prop :=
  match display with
  | none => Gap u rest
  | some (d, verbose) => ∃ k s l r, u = k ++ (s ++ (l ++ verboseMark verbose r)) ∧
      Gap k (s ++ (l ++ (verboseMark verbose r ++ rest))) ∧
      StringFound s d (l ++ (verboseMark verbose r ++ rest)) ∧
      Gap l (verboseMark verbose r ++ rest) ∧ Gap r rest

theorem HeaderFound.text {u rest : Text} {display : Option (String × Bool)}
    (h : HeaderFound u display rest) : HeaderText rest u display := by
  cases display with
  | none => exact h.trivia
  | some d =>
      obtain ⟨k, s, l, r, rfl, hk, hs, hl, hr⟩ := h
      exact ⟨k, s, l, r, rfl, hk.trivia, hs.spelling, hl.trivia, hr.trivia⟩

theorem header_eq_matched {name : Token String} {display : Option (String × Bool)}
    (h : header st = .matched (name, display) st') :
    ∃ t u st₁, NameFound t name.value st₁.rest ∧ st.Passes t st₁ ∧
      name.range = ⟨st.offset, st₁.offset⟩ ∧ HeaderFound u display ('=' :: st'.rest) ∧
      st₁.Passes (u ++ ['=']) st' := by
  obtain ⟨token, st₁, hn, h⟩ := bind_eq_matched.1 h
  obtain ⟨_, st₂, ht, h⟩ := bind_eq_matched.1 h
  obtain ⟨o, st₃, ho, h⟩ := bind_eq_matched.1 h
  obtain ⟨_, st₄, hs, h⟩ := bind_eq_matched.1 h
  obtain ⟨heq, rfl⟩ := pure_eq_matched.1 h
  cases heq
  obtain ⟨t, hspell, hp, hrange⟩ := name_eq_matched hn
  obtain ⟨k, hk, hp₁⟩ := trivia_eq_matched ht
  have hs := symbol_eq_matched hs
  rcases optional_eq_matched ho with ⟨d, rfl, hd⟩ | ⟨rfl, hp₂⟩
  · obtain ⟨s, l, r, hstring, hl, hr, hp₂⟩ := displayName_eq_matched hd
    rw [hp₂.1, List.append_assoc, List.append_assoc] at hk
    rw [hs.1] at hk hstring hl hr
    exact ⟨t, _, st₁, hspell, hp, hrange, ⟨k, s, l, r, rfl, hk, hstring, hl, hr⟩,
      (hp₁.trans hp₂).trans hs⟩
  · rw [hp₂.1, List.nil_append, hs.1] at hk
    exact ⟨t, k, st₁, hspell, hp, hrange, hk, by simpa using (hp₁.trans hp₂).trans hs⟩

theorem rule_eq_matched {r : Rule ByteRange} (h : rule st = .matched r st') :
    ∃ name display body st₁ st₂, header st = .matched (name, display) st₁ ∧
      afterTrivia expression st₁ = .matched body st₂ ∧ statementEnd st₂ = .matched () st' ∧
      r = ⟨name.value, name.range,
        match display with
        | some (d, verbose) => .named d verbose body ⟨st.offset, st'.offset⟩
        | none => body, ⟨st.offset, st'.offset⟩⟩ := by
  obtain ⟨f, h, he⟩ := located_eq_matched h
  obtain ⟨⟨name, display⟩, st₁, hh, h⟩ := bind_eq_matched.1 h
  obtain ⟨body, st₂, hb, h⟩ := bind_eq_matched.1 h
  obtain ⟨_, st₃, hend, h⟩ := bind_eq_matched.1 h
  cases display with
  | none =>
      obtain ⟨rfl, rfl⟩ := pure_eq_matched.1 h
      exact ⟨name, none, body, st₁, st₂, hh, hb, hend, he⟩
  | some d =>
      obtain ⟨rfl, rfl⟩ := pure_eq_matched.1 h
      exact ⟨name, some d, body, st₁, st₂, hh, hb, hend, he⟩

theorem thenTrivia_eq_matched {α : Type} {p : Reader α} {a : α}
    (h : thenTrivia p st = .matched a st') :
    ∃ st₁ t, p st = .matched a st₁ ∧ Gap t st'.rest ∧ st₁.Passes t st' := by
  obtain ⟨b, st₁, hp, h⟩ := bind_eq_matched.1 h
  obtain ⟨_, st₂, ht, h⟩ := bind_eq_matched.1 h
  obtain ⟨rfl, rfl⟩ := pure_eq_matched.1 h
  obtain ⟨t, htrivia, hpass⟩ := trivia_eq_matched ht
  exact ⟨st₁, t, hp, htrivia, hpass⟩

theorem document_eq_matched {g : Grammar ByteRange} (h : document st = .matched g st') :
    ∃ l st₁ st₂ st₃, Gap l st₁.rest ∧ st.Passes l st₁ ∧
      optional (thenTrivia topLevelInitializer) st₁ = .matched g.topLevel st₂ ∧
      optional (thenTrivia initializer) st₂ = .matched g.perParse st₃ ∧
      Runs (thenTrivia rule) st₃ g.rules st' ∧ g.rules ≠ [] ∧
      g.location = ⟨st.offset, st'.offset⟩ := by
  obtain ⟨f, h, he⟩ := located_eq_matched h
  obtain ⟨_, st₁, ht, h⟩ := bind_eq_matched.1 h
  obtain ⟨top, st₂, htop, h⟩ := bind_eq_matched.1 h
  obtain ⟨init, st₃, hinit, h⟩ := bind_eq_matched.1 h
  obtain ⟨rules, st₄, hrules, h⟩ := bind_eq_matched.1 h
  split at h
  next => cases h
  next hne =>
    obtain ⟨rfl, rfl⟩ := pure_eq_matched.1 h
    subst he
    obtain ⟨l, hl, hp⟩ := trivia_eq_matched ht
    exact ⟨l, st₁, st₂, st₃, hl, hp, htop, hinit, many_eq_matched hrules, hne, rfl⟩

end PegGrammar.Reader
