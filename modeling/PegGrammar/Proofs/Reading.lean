import PegGrammar.Reader

namespace PegGrammar

/-- Reading goes from one state to another over the text `t`. -/
def State.Passes (st : State) (t : Text) (st' : State) : Prop :=
  st.rest = t ++ st'.rest ∧ st'.offset = st.offset + t.byteSize

namespace State.Passes

variable {st st₁ st₂ st₃ st' : State} {t u v : Text}

theorem refl (st : State) : st.Passes [] st := ⟨rfl, rfl⟩

theorem trans (h : st.Passes t st₁) (h' : st₁.Passes u st') : st.Passes (t ++ u) st' := by
  obtain ⟨hr, ho⟩ := h
  obtain ⟨hr', ho'⟩ := h'
  refine ⟨by rw [hr, hr', List.append_assoc], ?_⟩
  rw [ho', ho, Text.byteSize_append, Nat.add_assoc]

theorem trans_cons {c : Char} (h : st.Passes [c] st₁) (h' : st₁.Passes u st') :
    st.Passes (c :: u) st' := h.trans h'

theorem of_failures (st : State) (f : Failures) : st.Passes [] { st with failures := f } :=
  ⟨rfl, rfl⟩

theorem advance (st : State) (n : Nat) : st.Passes (st.rest.take n) (st.advance n) :=
  ⟨(List.take_append_drop n st.rest).symm, rfl⟩

theorem eq_rest (h : st.Passes [] st') : st'.rest = st.rest := h.1.symm

theorem eq_offset (h : st.Passes [] st') : st'.offset = st.offset := h.2

theorem of_nil (h : st.Passes [] st₁) (h' : st.Passes t st') : st₁.Passes t st' :=
  ⟨h.eq_rest.trans h'.1, h.eq_offset ▸ h'.2⟩

theorem offset_le (h : st.Passes t st') : st.offset ≤ st'.offset := by
  rw [h.2]
  exact Nat.le_add_right _ _

theorem unique (h : st.Passes t st') (h' : st.Passes u st') : t = u :=
  List.append_cancel_right (h.1.symm.trans h'.1)

theorem eq_nil (h : st.Passes u st₁) (h' : st₁.Passes v st') (hp : st.Passes [] st') :
    u = [] ∧ v = [] :=
  List.append_eq_nil_iff.1 (hp.unique (h.trans h')).symm

end State.Passes

namespace Reader

variable {α β : Type} {st st' : State} {a : α} {b : β}

theorem pure_eq_matched {x : α} : (pure x : Reader α) st = .matched a st' ↔ x = a ∧ st = st' := by
  change Result.matched x st = .matched a st' ↔ _
  simp

theorem bind_eq_matched {p : Reader α} {f : α → Reader β} :
    (p >>= f) st = .matched b st' ↔
      ∃ a st₁, p st = .matched a st₁ ∧ f a st₁ = .matched b st' := by
  change Reader.bind p f st = _ ↔ _
  unfold Reader.bind
  cases p st with
  | matched a st₁ =>
      refine ⟨fun h => ⟨a, st₁, rfl, h⟩, ?_⟩
      rintro ⟨_, _, ⟨⟩, h⟩
      exact h
  | unmatched | disordered => simp

theorem bind_eq_unmatched {p : Reader α} {f : α → Reader β} {fs : Failures} :
    (p >>= f) st = .unmatched fs ↔
      p st = .unmatched fs ∨ ∃ a st₁, p st = .matched a st₁ ∧ f a st₁ = .unmatched fs := by
  change Reader.bind p f st = _ ↔ _
  unfold Reader.bind
  cases p st with
  | matched a st₁ =>
      refine ⟨fun h => .inr ⟨a, st₁, rfl, h⟩, ?_⟩
      rintro (⟨⟨⟩⟩ | ⟨_, _, ⟨⟩, h⟩)
      exact h
  | unmatched | disordered => simp

theorem orElse_eq_matched {p q : Reader α} :
    (p <|> q) st = .matched a st' ↔
      p st = .matched a st' ∨
        ∃ f, p st = .unmatched f ∧ q { st with failures := f } = .matched a st' := by
  change Reader.orElse p (fun _ => q) st = _ ↔ _
  unfold Reader.orElse
  cases p st <;> simp

theorem optional_eq_matched {p : Reader α} {o : Option α}
    (h : Reader.optional p st = .matched o st') :
    (∃ a, o = some a ∧ p st = .matched a st') ∨ (o = none ∧ st.Passes [] st') := by
  rw [Reader.optional, orElse_eq_matched] at h
  rcases h with h | ⟨f, -, h⟩
  · obtain ⟨a, st₁, hp, h⟩ := bind_eq_matched.1 h
    obtain ⟨rfl, rfl⟩ := pure_eq_matched.1 h
    exact .inl ⟨a, rfl, hp⟩
  · obtain ⟨rfl, rfl⟩ := pure_eq_matched.1 h
    exact .inr ⟨rfl, .of_failures st f⟩

theorem optional_eq_none {p : Reader α} (h : Reader.optional p st = .matched none st') :
    ∃ fs, p st = .unmatched fs := by
  rw [Reader.optional, orElse_eq_matched] at h
  rcases h with h | ⟨f, h, -⟩
  · obtain ⟨a, st₁, -, h⟩ := bind_eq_matched.1 h
    cases h
  · rcases bind_eq_unmatched.1 h with h | ⟨_, _, -, h⟩
    · exact ⟨f, h⟩
    · cases h

theorem succeeds_eq_matched {p : Reader Unit} {o : Bool}
    (h : Reader.succeeds p st = .matched o st') :
    (o = true ∧ p st = .matched () st') ∨ (o = false ∧ st.Passes [] st') := by
  rw [Reader.succeeds, orElse_eq_matched] at h
  rcases h with h | ⟨f, -, h⟩
  · obtain ⟨_, st₁, hp, h⟩ := bind_eq_matched.1 h
    obtain ⟨rfl, rfl⟩ := pure_eq_matched.1 h
    exact .inl ⟨rfl, hp⟩
  · obtain ⟨rfl, rfl⟩ := pure_eq_matched.1 h
    exact .inr ⟨rfl, .of_failures st f⟩

theorem located_eq_matched {p : Reader (ByteRange → α)} (h : located p st = .matched a st') :
    ∃ f, p st = .matched f st' ∧ a = f ⟨st.offset, st'.offset⟩ := by
  obtain ⟨_, _, hh, h⟩ := bind_eq_matched.1 h
  obtain ⟨rfl, rfl⟩ := pure_eq_matched.1 hh
  obtain ⟨f, st₁, hp, h⟩ := bind_eq_matched.1 h
  obtain ⟨_, _, hh, h⟩ := bind_eq_matched.1 h
  obtain ⟨rfl, rfl⟩ := pure_eq_matched.1 hh
  obtain ⟨rfl, rfl⟩ := pure_eq_matched.1 h
  exact ⟨f, hp, rfl⟩

theorem located_eq_unmatched {p : Reader (ByteRange → α)} {fs : Failures}
    (h : located p st = .unmatched fs) : p st = .unmatched fs := by
  rcases bind_eq_unmatched.1 h with h | ⟨_, _, hh, h⟩
  · cases h
  · obtain ⟨rfl, rfl⟩ := pure_eq_matched.1 hh
    rcases bind_eq_unmatched.1 h with h | ⟨f, st₁, -, h⟩
    · exact h
    · rcases bind_eq_unmatched.1 h with h | ⟨_, _, -, h⟩ <;> cases h

/-- The runs of a reader one after another, up to where it no longer matches. -/
inductive Runs (p : Reader α) : State → List α → State → Prop
  | nil {st st' : State} (h : st.Passes [] st') : Runs p st [] st'
  | cons {st st₁ st' : State} {a : α} {as : List α} (h : p st = .matched a st₁)
      (hs : Runs p st₁ as st') : Runs p st (a :: as) st'

theorem many_eq_matched {p : Reader α} {as : List α} (h : many p st = .matched as st') :
    Runs p st as st' := by
  fun_induction many p st generalizing as with
  | case1 st a st₁ hp hlt as' st₂ hm ih =>
      cases h
      exact .cons hp (ih hm)
  | case2 st a st₁ hp hlt hr ih => exact (hr as st' h).elim
  | case3 st a st₁ hp hlt =>
      cases h
      exact .cons hp (.nil (.refl st'))
  | case4 st f hp =>
      cases h
      exact .nil (.of_failures st f)
  | case5 => cases h

/-- A reader that always takes something is run until it does not match. -/
theorem many_stops {p : Reader α} {as : List α} (h : many p st = .matched as st')
    (hp : ∀ st a st', p st = .matched a st' → st'.remaining < st.remaining) :
    ∃ st₁ fs, st₁.rest = st'.rest ∧ p st₁ = .unmatched fs := by
  fun_induction many p st generalizing as with
  | case1 st a st₁ hmatch hlt as' st₂ hm ih =>
      cases h
      exact ih hm
  | case2 st a st₁ hmatch hlt hr ih => exact (hr as st' h).elim
  | case3 st a st₁ hmatch hlt => exact (hlt (hp st a st₁ hmatch)).elim
  | case4 st f hnone =>
      cases h
      exact ⟨st, f, rfl, hnone⟩
  | case5 => cases h

theorem symbol_eq_matched {c : Char} (h : symbol c st = .matched () st') : st.Passes [c] st' := by
  obtain ⟨s, _, hh, h⟩ := bind_eq_matched.1 h
  obtain ⟨rfl, rfl⟩ := pure_eq_matched.1 hh
  split at h
  next hc =>
    cases h
    obtain ⟨t, ht⟩ := List.head?_eq_some_iff.1 hc
    have hp := State.Passes.advance st 1
    simpa [ht] using hp
  next => cases h

theorem accepts_eq_matched {c : Char} {o : Bool} (h : accepts c st = .matched o st') :
    st.Passes (if o then [c] else []) st' ∧ (o = false → st'.rest.head? ≠ some c) := by
  obtain ⟨s, _, hh, h⟩ := bind_eq_matched.1 h
  obtain ⟨rfl, rfl⟩ := pure_eq_matched.1 hh
  split at h
  next hc =>
    obtain ⟨_, _, hh, h⟩ := bind_eq_matched.1 h
    cases hh
    obtain ⟨rfl, rfl⟩ := pure_eq_matched.1 h
    obtain ⟨t, ht⟩ := List.head?_eq_some_iff.1 hc
    have hp := State.Passes.advance st 1
    exact ⟨by simpa [ht] using hp, nofun⟩
  next hc =>
    obtain ⟨rfl, rfl⟩ := pure_eq_matched.1 h
    exact ⟨.refl st, fun _ => hc⟩

theorem operator_eq_matched {symbolOf : α → Char} {as : List α}
    (h : operator symbolOf as st = .matched a st') : a ∈ as ∧ st.Passes [symbolOf a] st' := by
  induction as generalizing st with
  | nil => cases h
  | cons x as ih =>
      rw [operator, orElse_eq_matched] at h
      rcases h with h | ⟨f, -, h⟩
      · obtain ⟨_, st₁, hs, h⟩ := bind_eq_matched.1 h
        obtain ⟨rfl, rfl⟩ := pure_eq_matched.1 h
        exact ⟨List.mem_cons_self, symbol_eq_matched hs⟩
      · obtain ⟨ha, hp⟩ := ih h
        exact ⟨List.mem_cons_of_mem _ ha, hp⟩

theorem lexeme_eq_matched {description : String} {recognize : Text → Option (Lexeme α)}
    {token : Token α} (h : lexeme description recognize st = .matched token st') :
    ∃ l, recognize st.rest = some l ∧ token = ⟨l.value, st.offset, st'.offset⟩ ∧
      st.Passes (st.rest.take l.length) st' := by
  obtain ⟨s, _, hh, h⟩ := bind_eq_matched.1 h
  obtain ⟨rfl, rfl⟩ := pure_eq_matched.1 hh
  cases hl : recognize st.rest with
  | none =>
      rw [hl] at h
      cases h
  | some l =>
      rw [hl] at h
      obtain ⟨f, hf, rfl⟩ := located_eq_matched h
      obtain ⟨_, _, hh, hf⟩ := bind_eq_matched.1 hf
      cases hh
      obtain ⟨rfl, rfl⟩ := pure_eq_matched.1 hf
      exact ⟨l, rfl, rfl, .advance st l.length⟩

end Reader

end PegGrammar
