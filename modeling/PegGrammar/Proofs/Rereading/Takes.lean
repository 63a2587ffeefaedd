import PegGrammar.Proofs.Locality

namespace PegGrammar

namespace Reader

variable {α β : Type}

/-- With the text `s` ahead, the reader finds a value in `V` and leaves `r`. -/
def Takes (p : Reader α) (s : Text) (V : α → Prop) (r : Text) : Prop :=
  ∀ st : State, st.rest = s → ∃ a st', p st = .matched a st' ∧ V a ∧ st'.rest = r

/-- With the text `s` ahead, the reader does not match. -/
def Refuses (p : Reader α) (s : Text) : Prop :=
  ∀ st : State, st.rest = s → ∃ f, p st = .unmatched f

section

variable {p q : Reader α} {f : α → Reader β} {s m r : Text} {V : α → Prop} {W : β → Prop}

theorem Takes.imp {V' : α → Prop} (h : Takes p s V r) (hV : ∀ a, V a → V' a) : Takes p s V' r := by
  intro st hst
  obtain ⟨a, st', hp, ha, hr⟩ := h st hst
  exact ⟨a, st', hp, hV a ha, hr⟩

theorem takes_pure {a : α} (h : V a) : Takes (pure a) s V s :=
  fun st hst => ⟨a, st, rfl, h, hst⟩

theorem Takes.bind (hp : Takes p s V m) (hf : ∀ a, V a → Takes (f a) m W r) :
    Takes (p >>= f) s W r := by
  intro st hst
  obtain ⟨a, st₁, hmatch, ha, hm⟩ := hp st hst
  obtain ⟨b, st', hmatch', hb, hr⟩ := hf a ha st₁ hm
  exact ⟨b, st', bind_eq_matched.2 ⟨a, st₁, hmatch, hmatch'⟩, hb, hr⟩

theorem Takes.bind_refuses (hp : Takes p s V m) (hf : ∀ a, V a → Refuses (f a) m) :
    Refuses (p >>= f) s := by
  intro st hst
  obtain ⟨a, st₁, hmatch, ha, hm⟩ := hp st hst
  obtain ⟨fs, hfail⟩ := hf a ha st₁ hm
  refine ⟨fs, ?_⟩
  change Reader.bind p f st = _
  rw [Reader.bind, hmatch]
  exact hfail

theorem Takes.unmatched_of_bind {st : State} {fs : Failures} (hp : Takes p s V m)
    (hst : st.rest = s) (h : (p >>= f) st = .unmatched fs) :
    ∃ a st₁, V a ∧ st₁.rest = m ∧ f a st₁ = .unmatched fs := by
  obtain ⟨a, st₁, hmatch, ha, hm⟩ := hp st hst
  rcases bind_eq_unmatched.1 h with h | ⟨b, st₂, hmatch', h⟩
  · rw [hmatch] at h
    cases h
  · rw [hmatch] at hmatch'
    cases hmatch'
    exact ⟨a, st₁, ha, hm, h⟩

theorem Refuses.bind (hp : Refuses p s) : Refuses (p >>= f) s := by
  intro st hst
  obtain ⟨fs, hfail⟩ := hp st hst
  refine ⟨fs, ?_⟩
  change Reader.bind p f st = _
  rw [Reader.bind, hfail]

theorem Takes.orElse (hp : Takes p s V r) : Takes (p <|> q) s V r := by
  intro st hst
  obtain ⟨a, st', hmatch, ha, hr⟩ := hp st hst
  exact ⟨a, st', orElse_eq_matched.2 (.inl hmatch), ha, hr⟩

theorem Takes.orElse_right (hp : Refuses p s) (hq : Takes q s V r) : Takes (p <|> q) s V r := by
  intro st hst
  obtain ⟨fs, hfail⟩ := hp st hst
  obtain ⟨a, st', hmatch, ha, hr⟩ := hq { st with failures := fs } hst
  exact ⟨a, st', orElse_eq_matched.2 (.inr ⟨fs, hfail, hmatch⟩), ha, hr⟩

theorem Refuses.orElse (hp : Refuses p s) (hq : Refuses q s) : Refuses (p <|> q) s := by
  intro st hst
  obtain ⟨fs, hfail⟩ := hp st hst
  obtain ⟨fs', hfail'⟩ := hq { st with failures := fs } hst
  refine ⟨fs', ?_⟩
  change Reader.orElse p (fun _ => q) st = _
  rw [Reader.orElse, hfail]
  exact hfail'

theorem Takes.optional (hp : Takes p s V r) :
    Takes (optional p) s (fun o => ∃ a, o = some a ∧ V a) r :=
  .orElse (.bind hp fun a ha => takes_pure ⟨a, rfl, ha⟩)

theorem Refuses.optional (hp : Refuses p s) : Takes (optional p) s (· = none) s :=
  .orElse_right hp.bind (takes_pure rfl)

theorem Takes.located {p : Reader (ByteRange → α)} (hp : Takes p s (fun f => ∀ range, V (f range)) r) :
    Takes (located p) s V r := by
  refine Takes.bind (V := fun _ => True) (m := s) (fun st hst => ⟨st.offset, st, rfl, trivial, hst⟩)
    fun start _ => hp.bind fun f hf => ?_
  refine Takes.bind (V := fun _ => True) (m := r) (fun st hst => ⟨st.offset, st, rfl, trivial, hst⟩)
    fun stop _ => takes_pure (hf _)

theorem Refuses.located {p : Reader (ByteRange → α)} (hp : Refuses p s) :
    Refuses (located p) s :=
  Takes.bind_refuses (V := fun _ => True) (fun st hst => ⟨st.offset, st, rfl, trivial, hst⟩)
    fun _ _ => hp.bind

theorem takes_ahead : Takes ahead s (· = s) s := fun st hst => ⟨st.rest, st, rfl, hst, hst⟩

theorem takes_advance (n : Nat) : Takes (advance n) s (fun _ => True) (s.drop n) :=
  fun st hst => ⟨(), st.advance n, rfl, trivial, by rw [← hst]; rfl⟩

theorem takes_expect (e : Expectation) : Takes (expect e) s (fun _ => True) s :=
  fun st hst => ⟨(), st.record e, rfl, trivial, hst⟩

theorem refuses_fail (e : Expectation) : Refuses (fail e : Reader α) s :=
  fun st _ => ⟨(st.record e).failures, rfl⟩

theorem refuses_nothing : Refuses (nothing : Reader α) s := fun st _ => ⟨st.failures, rfl⟩

end

section

variable {p : Reader α} {s m r : Text} {V : α → Prop}

theorem Refuses.many (hp : Refuses p s) : Takes (many p) s (· = []) s := by
  intro st hst
  obtain ⟨fs, hfail⟩ := hp st hst
  refine ⟨[], { st with failures := fs }, ?_, rfl, hst⟩
  rw [many.eq_def, hfail]

theorem Takes.many {W : List α → Prop} (hp : Takes p s V m) (hlt : m.length < s.length)
    (hs : Takes (many p) m W r) : Takes (many p) s (fun as => ∃ a as', as = a :: as' ∧ V a ∧ W as') r := by
  intro st hst
  obtain ⟨a, st₁, hmatch, ha, hm⟩ := hp st hst
  obtain ⟨as, st', hmany, has, hr⟩ := hs st₁ hm
  refine ⟨a :: as, st', ?_, ⟨a, as, rfl, ha, has⟩, hr⟩
  have hremaining : st₁.remaining < st.remaining := by
    rwa [st₁.remaining_eq, st.remaining_eq, hst, hm]
  rw [many.eq_def, hmatch]
  simp only [if_pos hremaining, hmany]

theorem Takes.length_le (hagree : AgreeOn (fun _ => True) p p) (h : Takes p s V r) :
    r.length ≤ s.length := by
  obtain ⟨a, st', hmatch, -, rfl⟩ := h { rest := s } rfl
  obtain ⟨t, ht⟩ := (hagree { rest := s } trivial).2 a st' hmatch
  have hs : s = t ++ st'.rest := ht.1
  rw [hs, List.length_append]
  exact Nat.le_add_left _ _

end

section

variable {s : Text} {c : Char}

theorem takes_symbol : Takes (symbol c) (c :: s) (fun _ => True) s := by
  refine takes_ahead.bind ?_
  rintro _ rfl
  rw [if_pos List.head?_cons]
  exact takes_advance 1

theorem refuses_symbol (h : ∀ d ∈ s.head?, d ≠ c) : Refuses (symbol c) s := by
  refine takes_ahead.bind_refuses ?_
  rintro _ rfl
  have hne : ¬ (List.head? _ = some c) := fun hc => h c hc rfl
  rw [if_neg hne]
  exact refuses_fail _

theorem takes_accepts : Takes (accepts c) (c :: s) (· = true) s := by
  refine takes_ahead.bind ?_
  rintro _ rfl
  rw [if_pos List.head?_cons]
  exact (takes_advance 1).bind fun _ _ => takes_pure rfl

theorem accepts_not (h : ∀ d ∈ s.head?, d ≠ c) : Takes (accepts c) s (· = false) s := by
  refine takes_ahead.bind ?_
  rintro _ rfl
  have hne : ¬ (List.head? _ = some c) := fun hc => h c hc rfl
  rw [if_neg hne]
  exact takes_pure rfl

theorem takes_operator {symbolOf : α → Char} (hinj : ∀ a b, symbolOf a = symbolOf b → a = b)
    {as : List α} {a : α} (ha : a ∈ as) : Takes (operator symbolOf as) (symbolOf a :: s) (· = a) s := by
  induction as with
  | nil => cases ha
  | cons b as ih =>
      by_cases hab : b = a
      · subst hab
        exact .orElse (takes_symbol.bind fun _ _ => takes_pure rfl)
      · refine .orElse_right (Refuses.bind (refuses_symbol ?_)) (ih ?_)
        · simpa using fun h => hab (hinj a b h).symm
        · exact (List.mem_cons.1 ha).resolve_left (Ne.symm hab)

theorem refuses_operator {symbolOf : α → Char} {as : List α}
    (h : ∀ a ∈ as, ∀ d ∈ s.head?, d ≠ symbolOf a) : Refuses (operator symbolOf as) s := by
  induction as with
  | nil => exact refuses_nothing
  | cons a as ih =>
      refine .orElse (Refuses.bind (refuses_symbol (h a List.mem_cons_self))) (ih ?_)
      exact fun b hb => h b (List.mem_cons_of_mem _ hb)

theorem takes_lexeme {description : String} {recognize : Text → Option (Lexeme α)} {l : Lexeme α}
    (h : recognize s = some l) :
    Takes (lexeme description recognize) s (·.value = l.value) (s.drop l.length) := by
  refine takes_ahead.bind ?_
  rintro _ rfl
  rw [h]
  exact .located ((takes_advance l.length).bind fun _ _ => takes_pure fun _ => rfl)

theorem refuses_lexeme {description : String} {recognize : Text → Option (Lexeme α)}
    (h : recognize s = none) : Refuses (lexeme description recognize) s := by
  refine takes_ahead.bind_refuses ?_
  rintro _ rfl
  rw [h]
  exact refuses_fail _

theorem takes_trivia : Takes trivia s (fun _ => True) (skipTrivia s) := by
  refine takes_ahead.bind ?_
  rintro _ rfl
  refine (takes_advance _).bind fun _ _ => ?_
  exact (takes_expect _).bind fun _ _ => (takes_expect _).bind fun _ _ => takes_expect _

end

end Reader

end PegGrammar
