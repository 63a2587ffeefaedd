import PegGrammar.Proofs.Reading
import PegGrammar.Proofs.Recognition.Literal
import PegGrammar.Reader.Expression

namespace PegGrammar

structure Failure where
  offset : Nat
  expectation : Expectation
  deriving DecidableEq, Repr

namespace Failures

variable {f : Failures} {o : Nat} {e x : Expectation} {log log' : List Failure}

def recordAll (f : Failures) (log : List Failure) : Failures :=
  log.foldl (fun f x => f.record x.offset x.expectation) f

theorem recordAll_append : f.recordAll (log ++ log') = (f.recordAll log).recordAll log' :=
  List.foldl_append

theorem deepest_record : (f.record o e).deepest = max f.deepest o := by
  rw [record]
  split
  next => omega
  next =>
    split
    next => simp only; omega
    next =>
      split
      next => omega
      next => simp only; omega

theorem mem_record : x ∈ (f.record o e).recorded ↔
    (o ≤ f.deepest ∧ x ∈ f.recorded) ∨ (f.deepest ≤ o ∧ x = e) := by
  rw [record]
  split
  next h => exact ⟨fun hx => .inl ⟨Nat.le_of_lt h, hx⟩, fun hx => hx.elim And.right fun hx => by omega⟩
  next h =>
    split
    next h' =>
      rw [List.mem_singleton]
      exact ⟨fun hx => .inr ⟨Nat.le_of_lt h', hx⟩, fun hx => hx.elim (fun hx => by omega) And.right⟩
    next h' =>
      have hle : o ≤ f.deepest := Nat.le_of_not_lt h'
      have hge : f.deepest ≤ o := Nat.le_of_not_lt h
      split
      next he =>
        refine ⟨fun hx => .inl ⟨hle, hx⟩, ?_⟩
        rintro (hx | ⟨-, rfl⟩)
        · exact hx.2
        · exact he
      next => simp [hle, hge, or_comm]

theorem nodup_record (h : f.recorded.Nodup) : (f.record o e).recorded.Nodup := by
  rw [record]
  split
  next => exact h
  next =>
    split
    next => simp
    next =>
      split
      next => exact h
      next he => exact List.nodup_cons.2 ⟨he, h⟩

theorem nodup_recordAll (h : f.recorded.Nodup) : (f.recordAll log).recorded.Nodup := by
  induction log generalizing f with
  | nil => exact h
  | cons x log ih => exact ih (nodup_record h)

theorem deepest_le_recordAll : f.deepest ≤ (f.recordAll log).deepest := by
  induction log generalizing f with
  | nil => exact Nat.le_refl _
  | cons x log ih =>
      refine Nat.le_trans ?_ (ih (f := f.record x.offset x.expectation))
      rw [deepest_record]
      exact Nat.le_max_left _ _

theorem offset_le_recordAll {x : Failure} (h : x ∈ log) : x.offset ≤ (f.recordAll log).deepest := by
  induction log generalizing f with
  | nil => cases h
  | cons y log ih =>
      rcases List.mem_cons.1 h with rfl | h
      · refine Nat.le_trans ?_ (deepest_le_recordAll (f := f.record x.offset x.expectation))
        rw [deepest_record]
        exact Nat.le_max_right _ _
      · exact ih h

theorem deepest_recordAll_mem (f : Failures) (log : List Failure) :
    (f.recordAll log).deepest = f.deepest ∨ ∃ x ∈ log, (f.recordAll log).deepest = x.offset := by
  induction log generalizing f with
  | nil => exact .inl rfl
  | cons y log ih =>
      rcases ih (f.record y.offset y.expectation) with h | ⟨x, hx, h⟩
      · have h : (f.recordAll (y :: log)).deepest = max f.deepest y.offset := h.trans deepest_record
        rcases Nat.le_total y.offset f.deepest with hle | hle
        · exact .inl (h.trans (Nat.max_eq_left hle))
        · exact .inr ⟨y, List.mem_cons_self, h.trans (Nat.max_eq_right hle)⟩
      · exact .inr ⟨x, List.mem_cons_of_mem _ hx, h⟩

/-- The record holds what was recorded at the deepest offset, and what it held before if that was as
deep. -/
theorem mem_recordAll : e ∈ (f.recordAll log).recorded ↔
    ((f.recordAll log).deepest = f.deepest ∧ e ∈ f.recorded) ∨
      ⟨(f.recordAll log).deepest, e⟩ ∈ log := by
  induction log generalizing f with
  | nil => simp [recordAll]
  | cons x log ih =>
      have hle : (f.record x.offset x.expectation).deepest ≤
          ((f.record x.offset x.expectation).recordAll log).deepest := deepest_le_recordAll
      change e ∈ ((f.record x.offset x.expectation).recordAll log).recorded ↔
        (((f.record x.offset x.expectation).recordAll log).deepest = f.deepest ∧ _) ∨
          ⟨((f.record x.offset x.expectation).recordAll log).deepest, e⟩ ∈ x :: log
      rw [ih, mem_record, List.mem_cons]
      rw [deepest_record] at hle ⊢
      generalize ((f.record x.offset x.expectation).recordAll log).deepest = n at hle ⊢
      obtain ⟨o, y⟩ := x
      simp only [Failure.mk.injEq] at hle ⊢
      constructor
      · rintro (⟨hn, ⟨ho, he⟩ | ⟨ho, he⟩⟩ | hmem)
        · exact .inl ⟨by omega, he⟩
        · exact .inr (.inl ⟨by omega, he⟩)
        · exact .inr (.inr hmem)
      · rintro (⟨hn, he⟩ | ⟨hn, he⟩ | hmem)
        · exact .inl ⟨by omega, .inl ⟨by omega, he⟩⟩
        · exact .inl ⟨by omega, .inr ⟨by omega, he⟩⟩
        · exact .inr hmem

/-- The record only moves forward: nothing is lost unless something lies deeper. -/
structure Forward (f f' : Failures) : Prop where
  deepest_le : f.deepest ≤ f'.deepest
  kept : f'.deepest = f.deepest → ∀ e ∈ f.recorded, e ∈ f'.recorded

theorem forward_recordAll : f.Forward (f.recordAll log) :=
  ⟨deepest_le_recordAll, fun heq _ he => mem_recordAll.2 (.inl ⟨heq, he⟩)⟩

end Failures

def Result.failures {α : Type} : Result α → Failures
  | .matched _ st => st.failures
  | .unmatched failures => failures
  | .disordered _ _ st => st.failures

/-- The offset is that of a place in the text ahead. -/
def State.Ahead (st : State) (n : Nat) : Prop :=
  ∃ t u, st.rest = t ++ u ∧ n = st.offset + t.byteSize

namespace State

variable {st st' : State} {t : Text} {n : Nat}

theorem ahead_offset (st : State) : st.Ahead st.offset := ⟨[], st.rest, rfl, rfl⟩

theorem Ahead.of_passes (hp : st.Passes t st') (h : st'.Ahead n) : st.Ahead n := by
  obtain ⟨u, v, hrest, rfl⟩ := h
  refine ⟨t ++ u, v, by rw [hp.1, hrest, List.append_assoc], ?_⟩
  rw [hp.2, Text.byteSize_append, Nat.add_assoc]

end State

namespace Reader

/-- From a state on, a reader records the failures in the list, in this order. -/
inductive Records : {α : Type} → Reader α → State → List Failure → Prop
  | pure {α : Type} {a : α} {st : State} : Records (pure a : Reader α) st []
  | nothing {α : Type} {st : State} : Records (nothing : Reader α) st []
  | here {st : State} : Records here st []
  | ahead {st : State} : Records ahead st []
  | advance {n : Nat} {st : State} : Records (advance n) st []
  | fail {α : Type} {e : Expectation} {st : State} :
      Records (fail e : Reader α) st [⟨st.offset, e⟩]
  | expect {e : Expectation} {st : State} : Records (expect e) st [⟨st.offset, e⟩]
  | expectAt {n : Nat} {e : Expectation} {st : State} (h : st.Ahead n) :
      Records (expectAt n e) st [⟨n, e⟩]
  | classBody {st : State} (h : ClassBody.classBody st.rest ≠ .ok none) : Records classBody st []
  | noClassBody {st : State} (h : ClassBody.classBody st.rest = .ok none) :
      Records classBody st [⟨st.offset, .named "character class"⟩]
  | bind {α β : Type} {p : Reader α} {f : α → Reader β} {st st' : State} {a : α}
      {l l' : List Failure} (hp : Records p st l) (hmatch : p st = .matched a st')
      (hf : Records (f a) st' l') : Records (p >>= f) st (l ++ l')
  | bindStop {α β : Type} {p : Reader α} {f : α → Reader β} {st : State} {l : List Failure}
      (hp : Records p st l) (hstop : ∀ a st', p st ≠ .matched a st') : Records (p >>= f) st l
  | orElse {α : Type} {p q : Reader α} {st : State} {l : List Failure} (hp : Records p st l)
      (hdone : ∀ fs, p st ≠ .unmatched fs) : Records (p <|> q) st l
  /-- What a reader recorded stays recorded when the next one is tried. -/
  | orElseNext {α : Type} {p q : Reader α} {st : State} {fs : Failures} {l l' : List Failure}
      (hp : Records p st l) (hmiss : p st = .unmatched fs)
      (hq : Records q { st with failures := fs } l') : Records (p <|> q) st (l ++ l')
  | many {α : Type} {p : Reader α} {st st' : State} {a : α} {l l' : List Failure}
      (hp : Records p st l) (hmatch : p st = .matched a st')
      (hlt : st'.remaining < st.remaining) (hs : Records (many p) st' l') :
      Records (many p) st (l ++ l')
  | manyStop {α : Type} {p : Reader α} {st : State} {l : List Failure} (hp : Records p st l)
      (hstop : ∀ a st', p st = .matched a st' → ¬ st'.remaining < st.remaining) :
      Records (many p) st l
  | afterTrivia {p : Reader Node} {st : State} {l : List Failure}
      (h : Records (trivia >>= fun _ => p) st l) : Records (afterTrivia p) st l

variable {α β : Type} {p : Reader α} {st st' : State} {log : List Failure}

theorem classBody_eq_disordered {text : String} {range : ByteRange}
    (h : Reader.classBody st = .disordered text range st') :
    st' = st ∧ ∃ e, ClassBody.classBody st.rest = .error e ∧ text = String.ofList e.text ∧
      range = ⟨st.offset + Text.byteSize e.before,
        st.offset + Text.byteSize e.before + Text.byteSize e.text⟩ := by
  rw [Reader.classBody] at h
  split at h
  next => cases h
  next => cases h
  next e he =>
    cases h
    exact ⟨rfl, e, he, rfl, rfl⟩

namespace Records

theorem passes (h : Records p st log) {a : α} (hmatch : p st = .matched a st') :
    ∃ t, st.Passes t st' := by
  induction h generalizing st' with
  | pure | here | ahead =>
      cases hmatch
      exact ⟨[], .refl _⟩
  | advance =>
      cases hmatch
      exact ⟨_, .advance _ _⟩
  | nothing | fail => cases hmatch
  | expect | expectAt =>
      cases hmatch
      exact ⟨[], .of_failures _ _⟩
  | classBody h =>
      rw [Reader.classBody] at hmatch
      split at hmatch
      next =>
        cases hmatch
        exact ⟨_, .advance _ _⟩
      next => cases hmatch
      next => cases hmatch
  | noClassBody h =>
      rw [Reader.classBody, h] at hmatch
      cases hmatch
  | bind _ hp _ ihp ihf =>
      obtain ⟨b, st₁, hp', hf⟩ := bind_eq_matched.1 hmatch
      obtain ⟨rfl, rfl⟩ := Result.matched.inj (hp.symm.trans hp')
      obtain ⟨t, ht⟩ := ihp hp
      obtain ⟨u, hu⟩ := ihf hf
      exact ⟨t ++ u, ht.trans hu⟩
  | bindStop _ hstop =>
      obtain ⟨b, st₁, hp, -⟩ := bind_eq_matched.1 hmatch
      exact (hstop b st₁ hp).elim
  | orElse _ hdone ih =>
      rcases orElse_eq_matched.1 hmatch with hp | ⟨fs, hp, -⟩
      · exact ih hp
      · exact (hdone fs hp).elim
  | orElseNext _ hmiss _ ihp ihq =>
      rcases orElse_eq_matched.1 hmatch with hp | ⟨fs, hp, hq⟩
      · rw [hmiss] at hp
        cases hp
      · obtain rfl := Result.unmatched.inj (hmiss.symm.trans hp)
        obtain ⟨t, ht⟩ := ihq hq
        exact ⟨t, (State.Passes.of_failures _ _).trans ht⟩
  | many _ hp hlt _ ihp ihs =>
      rw [Reader.many.eq_def, hp] at hmatch
      simp only [if_pos hlt] at hmatch
      obtain ⟨t, ht⟩ := ihp hp
      split at hmatch
      next hs =>
        cases hmatch
        obtain ⟨u, hu⟩ := ihs hs
        exact ⟨t ++ u, ht.trans hu⟩
      next hne => exact (hne _ _ hmatch).elim
  | manyStop _ hstop ih =>
      rw [Reader.many.eq_def] at hmatch
      split at hmatch
      next hp =>
        rw [if_neg (hstop _ _ hp)] at hmatch
        cases hmatch
        exact ih hp
      next =>
        cases hmatch
        exact ⟨[], .of_failures _ _⟩
      next => cases hmatch
  | afterTrivia _ ih =>
      rw [Reader.afterTrivia] at hmatch
      split at hmatch
      next =>
        cases hmatch
        exact ⟨[], .of_failures _ _⟩
      next => exact ih hmatch

theorem failures_eq (h : Records p st log) : (p st).failures = st.failures.recordAll log := by
  induction h with
  | pure | nothing | here | ahead | advance | fail | expect | expectAt => rfl
  | @classBody st h =>
      rw [Reader.classBody]
      split
      next => rfl
      next hnone => exact (h hnone).elim
      next => rfl
  | @noClassBody st h =>
      rw [Reader.classBody, h]
      rfl
  | @bind _ _ p f st st' a l l' _ hmatch _ ihp ihf =>
      change (Reader.bind p f st).failures = _
      rw [hmatch] at ihp
      rw [Reader.bind, hmatch, Failures.recordAll_append, ← ihp]
      exact ihf
  | @bindStop _ _ p f st l _ hstop ih =>
      change (Reader.bind p f st).failures = _
      rw [Reader.bind, ← ih]
      cases hp : p st with
      | matched a st' => exact (hstop a st' hp).elim
      | unmatched | disordered => rfl
  | @orElse _ p q st l _ hdone ih =>
      change (Reader.orElse p (fun _ => q) st).failures = _
      rw [Reader.orElse, ← ih]
      cases hp : p st with
      | unmatched fs => exact (hdone fs hp).elim
      | matched | disordered => rfl
  | @orElseNext _ p q st fs l l' _ hmiss _ ihp ihq =>
      change (Reader.orElse p (fun _ => q) st).failures = _
      rw [hmiss] at ihp
      rw [Reader.orElse, hmiss, Failures.recordAll_append, ← ihp]
      exact ihq
  | @many _ p st st' a l l' _ hmatch hlt _ ihp ihs =>
      rw [hmatch] at ihp
      rw [Reader.many.eq_def, hmatch, Failures.recordAll_append, ← ihp]
      simp only [if_pos hlt]
      cases hs : Reader.many p st' with
      | matched | unmatched | disordered =>
          rw [hs] at ihs
          exact ihs
  | @manyStop _ p st l _ hstop ih =>
      rw [Reader.many.eq_def, ← ih]
      cases hp : p st with
      | matched a st' =>
          simp only [if_neg (hstop a st' hp)]
          rfl
      | unmatched | disordered => rfl
  | @afterTrivia p st l _ ih =>
      rw [Reader.afterTrivia, ← ih]
      split
      next hp =>
        rw [hp]
        rfl
      next => rfl

/-- Failures are recorded where a character begins or the text ends, never behind the place where
reading stands. -/
theorem ahead_of_mem (h : Records p st log) {x : Failure} (hx : x ∈ log) : st.Ahead x.offset := by
  induction h with
  | pure | nothing | here | ahead | advance | classBody => cases hx
  | fail | expect | noClassBody =>
      rw [List.mem_singleton.1 hx]
      exact State.ahead_offset _
  | expectAt h =>
      rwa [List.mem_singleton.1 hx]
  | bind hp hmatch _ ihp ihf =>
      obtain ⟨t, ht⟩ := hp.passes hmatch
      rcases List.mem_append.1 hx with hx | hx
      · exact ihp hx
      · exact .of_passes ht (ihf hx)
  | bindStop _ _ ih | orElse _ _ ih | manyStop _ _ ih | afterTrivia _ ih => exact ih hx
  | orElseNext _ _ _ ihp ihq =>
      rcases List.mem_append.1 hx with hx | hx
      · exact ihp hx
      · exact .of_passes (.of_failures _ _) (ihq hx)
  | many hp hmatch _ _ ihp ihs =>
      obtain ⟨t, ht⟩ := hp.passes hmatch
      rcases List.mem_append.1 hx with hx | hx
      · exact ihp hx
      · exact .of_passes ht (ihs hx)

theorem classBody_of_disordered (h : Records p st log) {text : String} {range : ByteRange}
    (hstop : p st = .disordered text range st') :
    ∃ t, st.Passes t st' ∧ Reader.classBody st' = .disordered text range st' := by
  have transport {st st₁ : State} {t : Text} (ht : st.Passes t st₁)
      (h : ∃ u, st₁.Passes u st' ∧ Reader.classBody st' = .disordered text range st') :
      ∃ u, st.Passes u st' ∧ Reader.classBody st' = .disordered text range st' := by
    obtain ⟨u, hu, hclass⟩ := h
    exact ⟨t ++ u, ht.trans hu, hclass⟩
  induction h with
  | pure | nothing | here | ahead | advance | fail | expect | expectAt => cases hstop
  | classBody | noClassBody =>
      obtain ⟨rfl, -⟩ := classBody_eq_disordered hstop
      exact ⟨[], .refl _, hstop⟩
  | @bind _ _ p f st st₁ a _ _ hp hmatch _ _ ihf =>
      obtain ⟨t, ht⟩ := hp.passes hmatch
      change Reader.bind p f st = _ at hstop
      rw [Reader.bind, hmatch] at hstop
      exact transport ht (ihf hstop)
  | @bindStop _ _ p f st _ _ hne ih =>
      change Reader.bind p f st = _ at hstop
      rw [Reader.bind] at hstop
      split at hstop
      next hmatch => exact (hne _ _ hmatch).elim
      next => cases hstop
      next hp =>
        cases hstop
        exact ih hp
  | @orElse _ p q st _ _ hdone ih =>
      change Reader.orElse p (fun _ => q) st = _ at hstop
      rw [Reader.orElse] at hstop
      split at hstop
      next hp => exact (hdone _ hp).elim
      next => exact ih hstop
  | @orElseNext _ p q st fs _ _ _ hmiss _ _ ihq =>
      change Reader.orElse p (fun _ => q) st = _ at hstop
      rw [Reader.orElse, hmiss] at hstop
      exact transport (.of_failures _ _) (ihq hstop)
  | @many _ p st st₁ a _ _ hp hmatch hlt _ _ ihs =>
      obtain ⟨t, ht⟩ := hp.passes hmatch
      rw [Reader.many.eq_def, hmatch] at hstop
      simp only [if_pos hlt] at hstop
      split at hstop
      next => cases hstop
      next => exact transport ht (ihs hstop)
  | @manyStop _ p st _ _ hnot ih =>
      rw [Reader.many.eq_def] at hstop
      split at hstop
      next hmatch =>
        rw [if_neg (hnot _ _ hmatch)] at hstop
        cases hstop
      next => cases hstop
      next hp =>
        cases hstop
        exact ih hp
  | @afterTrivia p st _ _ ih =>
      rw [Reader.afterTrivia] at hstop
      split at hstop
      next => cases hstop
      next => exact ih hstop

theorem disordered_ahead (h : Records p st log) {text : String} {range : ByteRange}
    (hstop : p st = .disordered text range st') :
    st.Ahead range.start ∧ st.Ahead range.stop := by
  obtain ⟨t, ht, hclass⟩ := h.classBody_of_disordered hstop
  obtain ⟨-, e, he, -, rfl⟩ := classBody_eq_disordered hclass
  obtain ⟨r, hr⟩ := ClassBody.text_of_classBody he
  refine ⟨.of_passes ht ⟨e.before, e.text ++ r, hr, rfl⟩,
    .of_passes ht ⟨e.before ++ e.text, r, ?_, ?_⟩⟩
  · rw [hr, List.append_assoc]
  · rw [Text.byteSize_append, Nat.add_assoc]

end Records

end Reader

end PegGrammar
