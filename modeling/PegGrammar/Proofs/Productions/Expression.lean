import PegGrammar.Proofs.Productions.Statement
import PegGrammar.Reader.Expression

namespace PegGrammar

/-- Reading passes a label and its colon; the label lies at `range`. -/
structure State.PassesLabel (st : State) (label : String) (range : ByteRange) (st' : State) :
    Prop where
  passes : ∃ t l, NameFound t label (l ++ ':' :: st'.rest) ∧ Gap l (':' :: st'.rest) ∧
    st.Passes (t ++ (l ++ [':'])) st' ∧ range = ⟨st.offset, st.offset + t.byteSize⟩

namespace Reader

variable {st st' : State} {inner : Reader Node} {e : Node}

theorem literal_eq_matched (h : literal st = .matched e st') :
    ∃ t v i, StringFound t v ((if i then ['i'] else []) ++ st'.rest) ∧
      (i = false → st'.rest.head? ≠ some 'i') ∧
      st.Passes (t ++ if i then ['i'] else []) st' ∧
      e = .literal v i ⟨st.offset, st'.offset⟩ := by
  obtain ⟨f, h, he⟩ := located_eq_matched h
  obtain ⟨token, st₁, hs, h⟩ := bind_eq_matched.1 h
  obtain ⟨i, st₂, hi, h⟩ := bind_eq_matched.1 h
  obtain ⟨rfl, rfl⟩ := pure_eq_matched.1 h
  obtain ⟨t, ht, hp⟩ := string_eq_matched hs
  obtain ⟨hpi, hnot⟩ := accepts_eq_matched hi
  rw [hpi.1] at ht
  exact ⟨t, _, i, ht, hnot, hp.trans hpi, he⟩

theorem charClass_eq_matched (h : charClass st = .matched e st') :
    ∃ t body i, ClassFound t body ((if i then ['i'] else []) ++ st'.rest) ∧
      (i = false → st'.rest.head? ≠ some 'i') ∧
      st.Passes (t ++ if i then ['i'] else []) st' ∧
      e = .charClass body.parts body.inverted i ⟨st.offset, st'.offset⟩ := by
  obtain ⟨f, h, he⟩ := located_eq_matched h
  obtain ⟨body, st₁, hs, h⟩ := bind_eq_matched.1 h
  obtain ⟨i, st₂, hi, h⟩ := bind_eq_matched.1 h
  obtain ⟨rfl, rfl⟩ := pure_eq_matched.1 h
  obtain ⟨t, ht, hp⟩ := classBody_eq_matched hs
  obtain ⟨hpi, hnot⟩ := accepts_eq_matched hi
  rw [hpi.1] at ht
  exact ⟨t, body, i, ht, hnot, hp.trans hpi, he⟩

theorem any_eq_matched (h : any st = .matched e st') :
    st.Passes ['.'] st' ∧ e = .any ⟨st.offset, st'.offset⟩ := by
  obtain ⟨f, h, he⟩ := located_eq_matched h
  obtain ⟨_, st₁, hs, h⟩ := bind_eq_matched.1 h
  obtain ⟨rfl, rfl⟩ := pure_eq_matched.1 h
  exact ⟨symbol_eq_matched hs, he⟩

theorem ruleRef_eq_matched (h : ruleRef st = .matched e st') :
    ∃ t n, NameFound t n st'.rest ∧ st.Passes t st' ∧ startsRule st'.rest = false ∧
      e = .ruleRef n ⟨st.offset, st'.offset⟩ := by
  obtain ⟨f, h, he⟩ := located_eq_matched h
  obtain ⟨token, st₁, hs, h⟩ := bind_eq_matched.1 h
  obtain ⟨s, _, hh, h⟩ := bind_eq_matched.1 h
  obtain ⟨rfl, rfl⟩ := pure_eq_matched.1 hh
  split at h
  next => cases h
  next hstarts =>
    obtain ⟨rfl, rfl⟩ := pure_eq_matched.1 h
    obtain ⟨t, ht, hp, -⟩ := name_eq_matched hs
    exact ⟨t, _, ht, hp, by simpa using hstarts, he⟩

theorem predicate_eq_matched (h : predicate st = .matched e st') :
    ∃ p l st₁ code range, Gap l st₁.rest ∧ st.Passes (Polarity.symbol p :: l) st₁ ∧
      st₁.PassesBlock code range st' ∧ e = .predicate p code range ⟨st.offset, st'.offset⟩ := by
  obtain ⟨f, h, he⟩ := located_eq_matched h
  obtain ⟨p, st₁, ho, h⟩ := bind_eq_matched.1 h
  obtain ⟨_, st₂, ht, h⟩ := bind_eq_matched.1 h
  obtain ⟨token, st₃, hc, h⟩ := bind_eq_matched.1 h
  obtain ⟨rfl, rfl⟩ := pure_eq_matched.1 h
  obtain ⟨l, hl, hp⟩ := trivia_eq_matched ht
  exact ⟨p, l, st₂, _, _, hl, (operator_eq_matched ho).2.trans_cons hp,
    codeBlock_eq_matched hc, he⟩

/-- What is left of the trivia is given back before an empty sequence. -/
theorem afterTrivia_eq_matched {p : Reader Node} (h : afterTrivia p st = .matched e st') :
    (∃ l st₁, Gap l st₁.rest ∧ st.Passes l st₁ ∧ p st₁ = .matched e st' ∧
        ∀ k, e ≠ .sequence [] k) ∨
      (e = .sequence [] ⟨st.offset, st.offset⟩ ∧ st.Passes [] st' ∧
        ∃ l st₁ k st₂, Gap l st₁.rest ∧ st.Passes l st₁ ∧ p st₁ = .matched (.sequence [] k) st₂) := by
  have run {e : Node} {st' : State}
      (h : (trivia >>= fun _ => p : Reader Node) st = .matched e st') :
      ∃ l st₁, Gap l st₁.rest ∧ st.Passes l st₁ ∧ p st₁ = .matched e st' := by
    obtain ⟨_, st₁, ht, h⟩ := bind_eq_matched.1 h
    obtain ⟨l, hl, hp⟩ := trivia_eq_matched ht
    exact ⟨l, st₁, hl, hp, h⟩
  rw [afterTrivia] at h
  split at h
  next k st₂ hempty =>
    cases h
    obtain ⟨l, st₁, hl, hp, h⟩ := run hempty
    exact .inr ⟨rfl, .of_failures st _, l, st₁, k, st₂, hl, hp, h⟩
  next hne =>
    obtain ⟨l, st₁, hl, hp, hmatch⟩ := run h
    refine .inl ⟨l, st₁, hl, hp, hmatch, ?_⟩
    rintro k rfl
    exact hne k st' h

theorem group_eq_matched (h : group inner st = .matched e st') :
    ∃ body st₁ st₂ r, st.Passes ['('] st₁ ∧ afterTrivia inner st₁ = .matched body st₂ ∧
      Gap r (')' :: st'.rest) ∧ st₂.Passes (r ++ [')']) st' ∧
      e = if body.hasLabels then .group body ⟨st.offset, st'.offset⟩ else body := by
  obtain ⟨f, h, he⟩ := located_eq_matched h
  obtain ⟨_, st₁, ho, h⟩ := bind_eq_matched.1 h
  obtain ⟨body, st₂, hb, h⟩ := bind_eq_matched.1 h
  obtain ⟨_, st₃, ht, h⟩ := bind_eq_matched.1 h
  obtain ⟨_, st₄, hc, h⟩ := bind_eq_matched.1 h
  obtain ⟨rfl, rfl⟩ := pure_eq_matched.1 h
  obtain ⟨r, hr, hp⟩ := trivia_eq_matched ht
  have hc := symbol_eq_matched hc
  rw [hc.1] at hr
  exact ⟨body, st₁, st₂, r, symbol_eq_matched ho, hb, hr, hp.trans hc, he⟩

theorem primary_eq_matched (h : primary inner st = .matched e st') :
    ∃ st₀, st.Passes [] st₀ ∧ (literal st₀ = .matched e st' ∨ charClass st₀ = .matched e st' ∨
      any st₀ = .matched e st' ∨ ruleRef st₀ = .matched e st' ∨ predicate st₀ = .matched e st' ∨
      group inner st₀ = .matched e st') := by
  rw [primary, orElse_eq_matched] at h
  rcases h with h | ⟨f, -, h⟩
  · exact ⟨st, .refl st, .inl h⟩
  rcases orElse_eq_matched.1 h with h | ⟨f, -, h⟩
  · exact ⟨_, .of_failures st _, .inr (.inl h)⟩
  rcases orElse_eq_matched.1 h with h | ⟨f, -, h⟩
  · exact ⟨_, .of_failures st _, .inr (.inr (.inl h))⟩
  rcases orElse_eq_matched.1 h with h | ⟨f, -, h⟩
  · exact ⟨_, .of_failures st _, .inr (.inr (.inr (.inl h)))⟩
  rcases orElse_eq_matched.1 h with h | ⟨f, -, h⟩
  · exact ⟨_, .of_failures st _, .inr (.inr (.inr (.inr (.inl h))))⟩
  · exact ⟨_, .of_failures st _, .inr (.inr (.inr (.inr (.inr h))))⟩

theorem suffixed_eq_matched (h : suffixed inner st = .matched e st') :
    ∃ body st₁, primary inner st = .matched body st₁ ∧
      ((e = body ∧ st₁.Passes [] st') ∨
        ∃ op l, Gap l (SuffixOp.symbol op :: st'.rest) ∧
          st₁.Passes (l ++ [SuffixOp.symbol op]) st' ∧
          e = .suffixed op body ⟨st.offset, st'.offset⟩) := by
  obtain ⟨f, h, he⟩ := located_eq_matched h
  obtain ⟨body, st₁, hb, h⟩ := bind_eq_matched.1 h
  obtain ⟨o, st₂, ho, h⟩ := bind_eq_matched.1 h
  rcases optional_eq_matched ho with ⟨op, rfl, hop⟩ | ⟨rfl, hp⟩
  · obtain ⟨_, st₃, ht, hop⟩ := bind_eq_matched.1 hop
    obtain ⟨rfl, rfl⟩ := pure_eq_matched.1 h
    obtain ⟨l, hl, hp⟩ := trivia_eq_matched ht
    have hop := (operator_eq_matched hop).2
    rw [hop.1] at hl
    exact ⟨body, st₁, hb, .inr ⟨op, l, hl, hp.trans hop, he⟩⟩
  · obtain ⟨rfl, rfl⟩ := pure_eq_matched.1 h
    exact ⟨body, st₁, hb, .inl ⟨he, hp⟩⟩

def operated (inner : Reader Node) : Reader Node := located do
  let op ← operator PrefixOp.symbol PrefixOp.all
  trivia
  let body ← suffixed inner
  return .prefixed op body

theorem prefixed_eq_matched (h : prefixed inner st = .matched e st') :
    (∃ op l st₁ body, Gap l st₁.rest ∧ st.Passes (PrefixOp.symbol op :: l) st₁ ∧
      suffixed inner st₁ = .matched body st' ∧ e = .prefixed op body ⟨st.offset, st'.offset⟩) ∨
    ∃ st₀, st.Passes [] st₀ ∧ suffixed inner st₀ = .matched e st' ∧
      ∃ f, operated inner st = .unmatched f := by
  change (operated inner <|> suffixed inner) st = .matched e st' at h
  rcases orElse_eq_matched.1 h with h | ⟨f, hnone, h⟩
  · obtain ⟨f, h, he⟩ := located_eq_matched h
    obtain ⟨op, st₁, ho, h⟩ := bind_eq_matched.1 h
    obtain ⟨_, st₂, ht, h⟩ := bind_eq_matched.1 h
    obtain ⟨body, st₃, hb, h⟩ := bind_eq_matched.1 h
    obtain ⟨rfl, rfl⟩ := pure_eq_matched.1 h
    obtain ⟨l, hl, hp⟩ := trivia_eq_matched ht
    exact .inl ⟨op, l, st₂, body, hl, (operator_eq_matched ho).2.trans_cons hp, hb, he⟩
  · exact .inr ⟨_, .of_failures st f, h, f, hnone⟩

theorem label_eq_matched {token : Token String} (h : label st = .matched token st') :
    st.PassesLabel token.value token.range st' := by
  obtain ⟨token, st₁, hn, h⟩ := bind_eq_matched.1 h
  obtain ⟨_, st₂, ht, h⟩ := bind_eq_matched.1 h
  obtain ⟨_, st₃, hc, h⟩ := bind_eq_matched.1 h
  obtain ⟨rfl, rfl⟩ := pure_eq_matched.1 h
  obtain ⟨t, hspell, hp, hrange⟩ := name_eq_matched hn
  obtain ⟨l, hl, hp₁⟩ := trivia_eq_matched ht
  have hc := symbol_eq_matched hc
  rw [hp₁.1, hc.1] at hspell
  rw [hc.1] at hl
  refine ⟨t, l, hspell, hl, hp.trans (hp₁.trans hc), ?_⟩
  rw [hrange, hp.2]

theorem pick_eq_matched (h : pick inner st = .matched e st') :
    ∃ l st₁ body, prefixed inner st₁ = .matched body st' ∧
      ((Gap l st₁.rest ∧ st.Passes ('@' :: l) st₁ ∧
          e = .labeled none ⟨st.offset, st.offset + 1⟩ true body ⟨st.offset, st'.offset⟩) ∨
        ∃ st₂ st₃ r label range, Gap l st₂.rest ∧ st.Passes ('@' :: l) st₂ ∧
          st₂.PassesLabel label range st₃ ∧ Gap r st₁.rest ∧ st₃.Passes r st₁ ∧
          e = .labeled (some label) range true body ⟨st.offset, st'.offset⟩) := by
  obtain ⟨f, h, he⟩ := located_eq_matched h
  obtain ⟨mark, st₁, hm, h⟩ := bind_eq_matched.1 h
  obtain ⟨_, st₂, ht, h⟩ := bind_eq_matched.1 h
  obtain ⟨o, st₃, ho, h⟩ := bind_eq_matched.1 h
  obtain ⟨_, st₄, ht', h⟩ := bind_eq_matched.1 h
  obtain ⟨body, st₅, hb, h⟩ := bind_eq_matched.1 h
  obtain ⟨g, hg, hmark⟩ := located_eq_matched hm
  obtain ⟨_, st₆, hat, hg⟩ := bind_eq_matched.1 hg
  obtain ⟨rfl, rfl⟩ := pure_eq_matched.1 hg
  obtain ⟨l, hl, hp⟩ := trivia_eq_matched ht
  obtain ⟨r, hr, hp'⟩ := trivia_eq_matched ht'
  have hat := symbol_eq_matched hat
  have hopen := hat.trans_cons hp
  rcases optional_eq_matched ho with ⟨token, rfl, hlabel⟩ | ⟨rfl, hnone⟩
  · obtain ⟨rfl, rfl⟩ := pure_eq_matched.1 h
    exact ⟨l, st₄, body, hb, .inr ⟨st₂, st₃, r, _, _, hl, hopen, label_eq_matched hlabel, hr, hp',
      he⟩⟩
  · obtain ⟨rfl, rfl⟩ := pure_eq_matched.1 h
    have hp := (hopen.trans hnone).trans hp'
    rw [List.append_nil] at hp
    rw [hnone.1, List.nil_append, hp'.1] at hl
    rw [hmark, hat.2] at he
    exact ⟨l ++ r, st₄, body, hb, .inl ⟨hl.append hr, hp, he⟩⟩

theorem labeled_eq_matched (h : labeled inner st = .matched e st') :
    ∃ st₀, st.Passes [] st₀ ∧ (pick inner st₀ = .matched e st' ∨
      (∃ st₁ st₂ r label range body, st₀.PassesLabel label range st₁ ∧ Gap r st₂.rest ∧
        st₁.Passes r st₂ ∧ prefixed inner st₂ = .matched body st' ∧
        e = .labeled (some label) range false body ⟨st.offset, st'.offset⟩) ∨
      prefixed inner st₀ = .matched e st') := by
  rw [labeled, orElse_eq_matched] at h
  rcases h with h | ⟨f, -, h⟩
  · exact ⟨st, .refl st, .inl h⟩
  rcases orElse_eq_matched.1 h with h | ⟨f, -, h⟩
  · obtain ⟨g, h, he⟩ := located_eq_matched h
    obtain ⟨token, st₁, hl, h⟩ := bind_eq_matched.1 h
    obtain ⟨_, st₂, ht, h⟩ := bind_eq_matched.1 h
    obtain ⟨body, st₃, hb, h⟩ := bind_eq_matched.1 h
    obtain ⟨rfl, rfl⟩ := pure_eq_matched.1 h
    obtain ⟨r, hr, hp⟩ := trivia_eq_matched ht
    exact ⟨_, .of_failures st _, .inr (.inl ⟨st₁, st₂, r, _, _, body, label_eq_matched hl, hr, hp,
      hb, he⟩)⟩
  · exact ⟨_, .of_failures st _, .inr (.inr h)⟩

theorem elements_eq_matched {es : List Node} (h : elements inner st = .matched es st') :
    (es = [] ∧ st.Passes [] st') ∨
      ∃ first others st₁, es = first :: others ∧ labeled inner st = .matched first st₁ ∧
        Runs (trivia >>= fun _ => labeled inner) st₁ others st' := by
  obtain ⟨o, st₁, ho, h⟩ := bind_eq_matched.1 h
  rcases optional_eq_matched ho with ⟨first, rfl, hfirst⟩ | ⟨rfl, hp⟩
  · obtain ⟨others, st₂, hm, h⟩ := bind_eq_matched.1 h
    obtain ⟨rfl, rfl⟩ := pure_eq_matched.1 h
    exact .inr ⟨first, others, st₁, rfl, hfirst, many_eq_matched hm⟩
  · obtain ⟨rfl, rfl⟩ := pure_eq_matched.1 h
    exact .inl ⟨rfl, hp⟩

theorem sequence_eq_matched (h : sequence inner st = .matched e st') :
    ∃ es, elements inner st = .matched es st' ∧
      ((es = [e] ∧ e.isPick = false) ∨
        ((∀ x, es = [x] → x.isPick = true) ∧ e = .sequence es ⟨st.offset, st'.offset⟩)) := by
  obtain ⟨f, h, he⟩ := located_eq_matched h
  obtain ⟨es, st₁, hes, h⟩ := bind_eq_matched.1 h
  split at h
  next x =>
    obtain ⟨rfl, rfl⟩ := pure_eq_matched.1 h
    split at he
    next hpick =>
      refine ⟨[x], hes, .inr ⟨?_, he⟩⟩
      rintro _ ⟨⟩
      exact hpick
    next hpick =>
      subst he
      exact ⟨[e], hes, .inl ⟨rfl, by simpa using hpick⟩⟩
  next hne =>
    obtain ⟨rfl, rfl⟩ := pure_eq_matched.1 h
    exact ⟨es, hes, .inr ⟨fun x hx => (hne x hx).elim, he⟩⟩

theorem action_eq_matched (h : action inner st = .matched e st') :
    ∃ body st₁, sequence inner st = .matched body st₁ ∧
      ((e = body ∧ st₁.Passes [] st') ∨
        ∃ l st₂ code range, Gap l st₂.rest ∧ st₁.Passes l st₂ ∧ st₂.PassesBlock code range st' ∧
          e = .action body code range ⟨st.offset, st'.offset⟩) := by
  obtain ⟨f, h, he⟩ := located_eq_matched h
  obtain ⟨body, st₁, hb, h⟩ := bind_eq_matched.1 h
  obtain ⟨o, st₂, ho, h⟩ := bind_eq_matched.1 h
  rcases optional_eq_matched ho with ⟨token, rfl, hcode⟩ | ⟨rfl, hp⟩
  · obtain ⟨_, st₃, ht, hcode⟩ := bind_eq_matched.1 hcode
    obtain ⟨rfl, rfl⟩ := pure_eq_matched.1 h
    obtain ⟨l, hl, hp⟩ := trivia_eq_matched ht
    exact ⟨body, st₁, hb, .inr ⟨l, st₃, _, _, hl, hp, codeBlock_eq_matched hcode, he⟩⟩
  · obtain ⟨rfl, rfl⟩ := pure_eq_matched.1 h
    exact ⟨body, st₁, hb, .inl ⟨he, hp⟩⟩

def alternative (inner : Reader Node) : Reader Node := do
  trivia
  symbol '/'
  afterTrivia (action inner)

theorem alternative_eq_matched (h : alternative inner st = .matched e st') :
    ∃ l st₁, Gap l ('/' :: st₁.rest) ∧ st.Passes (l ++ ['/']) st₁ ∧
      afterTrivia (action inner) st₁ = .matched e st' := by
  obtain ⟨_, st₁, ht, h⟩ := bind_eq_matched.1 h
  obtain ⟨_, st₂, hs, h⟩ := bind_eq_matched.1 h
  obtain ⟨l, hl, hp⟩ := trivia_eq_matched ht
  have hs := symbol_eq_matched hs
  rw [hs.1] at hl
  exact ⟨l, st₂, hl, hp.trans hs, h⟩

theorem choice_eq_matched (h : choice inner st = .matched e st') :
    ∃ first others st₁, action inner st = .matched first st₁ ∧
      Runs (alternative inner) st₁ others st' ∧
      ((others = [] ∧ e = first) ∨
        (others ≠ [] ∧ e = .choice (first :: others) ⟨st.offset, st'.offset⟩)) := by
  obtain ⟨f, h, he⟩ := located_eq_matched h
  obtain ⟨first, st₁, hf, h⟩ := bind_eq_matched.1 h
  obtain ⟨others, st₂, hm, h⟩ := bind_eq_matched.1 h
  have hruns : Runs (alternative inner) st₁ others st₂ := many_eq_matched hm
  split at h
  next =>
    obtain ⟨rfl, rfl⟩ := pure_eq_matched.1 h
    exact ⟨first, [], st₁, hf, hruns, .inl ⟨rfl, he⟩⟩
  next hne =>
    obtain ⟨rfl, rfl⟩ := pure_eq_matched.1 h
    exact ⟨first, others, st₁, hf, hruns, .inr ⟨hne, he⟩⟩

/-- Readers of expressions may only go on to shorter texts, so what holds of `choice` whenever it
holds of the reader inside holds of every expression. -/
theorem expression_induction {P : State → Node → State → Prop}
    (hchoice : ∀ inner : Reader Node,
      (∀ st e st', inner st = .matched e st' → P st e st') →
      ∀ st e st', choice inner st = .matched e st' → P st e st')
    (st : State) (e : Node) (st' : State) (h : expression st = .matched e st') : P st e st' := by
  induction hn : st.remaining using Nat.strong_induction_on generalizing st e st' with
  | _ n ih =>
      rw [expression.eq_def] at h
      refine hchoice _ (fun st₁ e₁ st₂ h₁ => ?_) st e st' h
      split at h₁
      next hlt => exact ih _ (hn ▸ hlt) st₁ e₁ st₂ h₁ rfl
      next => cases h₁

end Reader

end PegGrammar
