import Mathlib.Data.List.Chain
import PegGrammar.Proofs.WholeDocument

namespace PegGrammar

open Reader

namespace Expectation

theorem describe_injOn {a b : Expectation} (ha : a ∈ vocabulary) (hb : b ∈ vocabulary)
    (h : a.describe = b.describe) : a = b := by
  have hinj : ∀ a ∈ vocabulary, ∀ b ∈ vocabulary, a.describe = b.describe → a = b := by
    decide +kernel
  exact hinj a ha b hb h

theorem pairwise_mergeSort (l : List Expectation) :
    (l.mergeSort fun a b => a.describe ≤ b.describe).Pairwise (·.describe ≤ ·.describe) := by
  have hsorted : (l.mergeSort fun a b => a.describe ≤ b.describe).Pairwise fun a b =>
      decide (a.describe ≤ b.describe) = true := by
    refine List.pairwise_mergeSort (fun a b c hab hbc => ?_) (fun a b => ?_) l
    · exact decide_eq_true (String.le_trans (of_decide_eq_true hab) (of_decide_eq_true hbc))
    · rw [Bool.or_eq_true, decide_eq_true_iff, decide_eq_true_iff]
      exact String.le_total _ _
  exact hsorted.imp of_decide_eq_true

/-- In the order of descriptions that tell them apart, expectations that are the same are neighbours. -/
theorem pairwise_lt {l : List Expectation} (hsorted : l.Pairwise (·.describe ≤ ·.describe))
    (hne : l.IsChain (· ≠ ·)) (hinj : ∀ a ∈ l, ∀ b ∈ l, a.describe = b.describe → a = b) :
    l.Pairwise (·.describe < ·.describe) := by
  induction l with
  | nil => exact .nil
  | cons a l ih =>
      obtain ⟨hfirst, hsorted⟩ := List.pairwise_cons.1 hsorted
      have hl := ih hsorted hne.tail fun b hb c hc =>
        hinj b (List.mem_cons_of_mem a hb) c (List.mem_cons_of_mem a hc)
      cases l with
      | nil => exact List.pairwise_singleton _ a
      | cons b l =>
          have hlt : a.describe < b.describe := by
            refine String.not_le.1 fun hge => (List.isChain_cons_cons.1 hne).1 ?_
            exact hinj a (by simp) b (by simp) (String.le_antisymm (hfirst b (by simp)) hge)
          refine List.pairwise_cons.2 ⟨fun c hc => ?_, hl⟩
          rcases List.mem_cons.1 hc with rfl | hc
          · exact hlt
          · exact String.lt_trans hlt ((List.pairwise_cons.1 hl).1 c hc)

end Expectation

namespace Failures

variable {f : Failures} {log : List Failure} {e : Expectation}

theorem mem_expected : e ∈ f.expected ↔ e ∈ f.recorded := List.mem_mergeSort

theorem pairwise_expected (hnodup : f.recorded.Nodup)
    (hinj : ∀ a ∈ f.recorded, ∀ b ∈ f.recorded, a.describe = b.describe → a = b) :
    f.expected.Pairwise (·.describe < ·.describe) := by
  refine Expectation.pairwise_lt (Expectation.pairwise_mergeSort _) ?_ fun a ha b hb => ?_
  · exact List.Pairwise.isChain ((List.mergeSort_perm _ _).nodup_iff.2 hnodup)
  · exact hinj a (mem_expected.1 ha) b (mem_expected.1 hb)

theorem recorded_ne_nil {o : Nat} (h : f.recorded ≠ [] ∨ f.deepest ≤ o) :
    (f.record o e).recorded ≠ [] := by
  by_cases ho : f.deepest ≤ o
  · exact List.ne_nil_of_mem (mem_record.2 (.inr ⟨ho, rfl⟩))
  · obtain ⟨x, hx⟩ := List.exists_mem_of_ne_nil _ (h.resolve_right ho)
    exact List.ne_nil_of_mem (mem_record.2 (.inl ⟨by omega, hx⟩))

theorem recordAll_ne_nil (log : List Failure) (h : f.recorded ≠ []) : (f.recordAll log).recorded ≠ [] := by
  induction log generalizing f with
  | nil => exact h
  | cons x log ih => exact ih (recorded_ne_nil (.inl h))

end Failures

namespace Reader

/-- The initializers and the rules from where reading stands. -/
def statements : Reader (Option (Initializer ByteRange) × Option (Initializer ByteRange) ×
    List (Rule ByteRange)) := do
  let topLevel ← optional (thenTrivia topLevelInitializer)
  let perParse ← optional (thenTrivia initializer)
  let rules ← many (thenTrivia rule)
  return (topLevel, perParse, rules)

theorem Traced.statements {n : Nat} : Traced n statements :=
  .bind (optional (thenTrivia topLevelInitializer)) fun _ =>
    .bind (optional (thenTrivia initializer)) fun _ => .bind (many (thenTrivia rule)) fun _ => .pure _

section

variable {α : Type} {p : Reader α} {st st' : State} {fs : Failures} {g : Grammar ByteRange}

theorem optional_ne_unmatched : optional p st ≠ .unmatched fs := by
  change Reader.orElse (p >>= fun a => pure (some a)) (fun _ => pure none) st ≠ _
  rw [Reader.orElse]
  cases (p >>= fun a => pure (some a) : Reader _) st <;> rintro ⟨⟩

theorem many_ne_unmatched (st : State) : many p st ≠ .unmatched fs := by
  fun_induction many p st generalizing fs with
  | case1 | case3 | case4 | case5 => rintro ⟨⟩
  | case2 st a st₁ hmatch hlt hr ih =>
      cases hs : many p st₁ with
      | matched | disordered => rintro ⟨⟩
      | unmatched fs' => exact (ih hs).elim

theorem document_eq_unmatched (h : document st = .unmatched fs) :
    ∃ st₁ topLevel perParse st₂, trivia st = .matched () st₁ ∧
      statements st₁ = .matched (topLevel, perParse, []) st₂ ∧ fs = st₂.failures := by
  rcases bind_eq_unmatched.1 (located_eq_unmatched h) with h | ⟨_, st₁, htrivia, h⟩
  · cases h
  rcases bind_eq_unmatched.1 h with h | ⟨topLevel, st₂, htop, h⟩
  · exact (optional_ne_unmatched h).elim
  rcases bind_eq_unmatched.1 h with h | ⟨perParse, st₃, hinit, h⟩
  · exact (optional_ne_unmatched h).elim
  rcases bind_eq_unmatched.1 h with h | ⟨rules, st₄, hrules, h⟩
  · exact (many_ne_unmatched st₃ h).elim
  split at h
  next =>
    cases h
    exact ⟨st₁, topLevel, perParse, st₄, htrivia, bind_eq_matched.2 ⟨_, _, htop,
      bind_eq_matched.2 ⟨_, _, hinit, bind_eq_matched.2 ⟨_, _, hrules, rfl⟩⟩⟩, rfl⟩
  next => cases h

theorem statements_of_document (h : document st = .matched g st') :
    ∃ st₁, trivia st = .matched () st₁ ∧
      statements st₁ = .matched (g.topLevel, g.perParse, g.rules) st' := by
  obtain ⟨f, h, he⟩ := located_eq_matched h
  obtain ⟨_, st₁, htrivia, h⟩ := bind_eq_matched.1 h
  obtain ⟨topLevel, st₂, htop, h⟩ := bind_eq_matched.1 h
  obtain ⟨perParse, st₃, hinit, h⟩ := bind_eq_matched.1 h
  obtain ⟨rules, st₄, hrules, h⟩ := bind_eq_matched.1 h
  split at h
  next => cases h
  next =>
    obtain ⟨rfl, rfl⟩ := pure_eq_matched.1 h
    subst he
    exact ⟨st₁, htrivia, bind_eq_matched.2 ⟨_, _, htop, bind_eq_matched.2 ⟨_, _, hinit,
      bind_eq_matched.2 ⟨_, _, hrules, rfl⟩⟩⟩⟩

theorem recorded_of_trivia (h : trivia st = .matched () st') (hle : st.failures.deepest ≤ st.offset) :
    st'.failures.recorded ≠ [] := by
  obtain ⟨s, _, hh, h⟩ := bind_eq_matched.1 h
  obtain ⟨rfl, rfl⟩ := pure_eq_matched.1 hh
  cases h
  refine Failures.recorded_ne_nil (.inl (Failures.recorded_ne_nil (.inl
    (Failures.recorded_ne_nil (.inr ?_)))))
  exact hle.trans (Nat.le_add_right _ _)

theorem wholeDocument_ne_default {s : Text} (h : wholeDocument { rest := s } = .unmatched fs) :
    fs ≠ {} := by
  rintro rfl
  rcases bind_eq_unmatched.1 h with h | ⟨g, st₁, -, h⟩
  · obtain ⟨st₁, topLevel, perParse, st₂, htrivia, hstatements, hfs⟩ := document_eq_unmatched h
    obtain ⟨log, hlog, -⟩ := Traced.statements st₁ (Nat.le_refl _)
    have hfailures : st₂.failures = st₁.failures.recordAll log := by
      rw [← hlog.failures_eq, hstatements]
      rfl
    refine Failures.recordAll_ne_nil log (recorded_of_trivia htrivia (Nat.le_refl _)) ?_
    rw [← hfailures, ← hfs]
  · rcases bind_eq_unmatched.1 h with h | ⟨_, _, -, h⟩
    · rw [endOfInput_eq] at h
      split at h
      next => cases h
      next =>
        have hfs := Result.unmatched.inj h
        have hdeepest := congrArg Failures.deepest hfs
        refine Failures.recorded_ne_nil (f := st₁.failures) (o := st₁.offset) (e := .endOfInput)
          (.inr ?_) (congrArg Failures.recorded hfs)
        change (st₁.failures.record st₁.offset .endOfInput).deepest = 0 at hdeepest
        rw [Failures.deepest_record] at hdeepest
        omega
    · cases h

end

end Reader

/-- The rules that are accepted from a state on, before reading stops. -/
def State.Accepts (st : State) (rules : List (Rule ByteRange)) : Prop :=
  ∃ st₁ topLevel perParse st₂, trivia st = .matched () st₁ ∧
    statements st₁ = .matched (topLevel, perParse, rules) st₂

/-- What is reported is what was expected at the deepest of all failures. -/
structure Furthest (source : Text) (log : List Failure) (expected : List Expectation)
    (found : Option Char) (location : ByteRange) : Prop where
  reached : ∃ x ∈ log, x.offset = location.start
  deepest : ∀ x ∈ log, x.offset ≤ location.start
  mem_expected : ∀ e, e ∈ expected ↔ ⟨location.start, e⟩ ∈ log
  boundary : Boundary source location.start ∧ location.start ≤ source.byteSize
  accepted : ∃ rules, State.Accepts { rest := source } rules ∧
    ∀ r ∈ rules, r.location.stop ≤ location.start
  found_eq : found = (source.dropBytes? location.start).bind List.head?
  covers : location.stop = location.start + found.elim 0 Char.utf8Size
  empty_iff : location.start = location.stop ↔ found = none
  end_iff : found = none ↔ location.start = source.byteSize
  expected_ne_nil : expected ≠ []
  ordered : expected.Pairwise (·.describe < ·.describe)

section

variable {source : Text} {log : List Failure} {fs : Failures}

theorem accepted_of_unmatched (h : wholeDocument { rest := source } = .unmatched fs) :
    ∃ rules, State.Accepts { rest := source } rules ∧ ∀ r ∈ rules, r.location.stop ≤ fs.deepest := by
  rcases bind_eq_unmatched.1 h with h | ⟨g, st, hread, h⟩
  · obtain ⟨st₁, topLevel, perParse, st₂, htrivia, hstatements, -⟩ := document_eq_unmatched h
    exact ⟨[], ⟨st₁, topLevel, perParse, st₂, htrivia, hstatements⟩, nofun⟩
  · obtain ⟨st₁, htrivia, hstatements⟩ := statements_of_document hread
    refine ⟨g.rules, ⟨st₁, _, _, st, htrivia, hstatements⟩, fun r hr => ?_⟩
    obtain ⟨-, -, -, st₃, -, -, -, -, hrules, -⟩ := document_eq_matched hread
    have hstop : r.location.stop ≤ st.offset :=
      ((places_rules hrules).2 (fun range hrange => hrange.stop_le) r hr).2.2
    refine hstop.trans ?_
    rcases bind_eq_unmatched.1 h with h | ⟨_, _, -, h⟩
    · rw [endOfInput_eq] at h
      split at h
      next => cases h
      next =>
        cases h
        change st.offset ≤ (st.failures.record st.offset .endOfInput).deepest
        rw [Failures.deepest_record]
        exact Nat.le_max_right _ _
    · cases h

theorem recorded_ne_nil_of_unmatched (h : wholeDocument { rest := source } = .unmatched fs) :
    fs.recorded ≠ [] := by
  obtain ⟨log, hlog, -⟩ := exists_records source
  obtain rfl := hlog.eq_recordAll h
  cases log with
  | nil => exact (wholeDocument_ne_default h rfl).elim
  | cons x log =>
      have hfirst : (({} : Failures).record x.offset x.expectation).recorded ≠ [] :=
        Failures.recorded_ne_nil (.inr (Nat.zero_le _))
      exact Failures.recordAll_ne_nil log hfirst

theorem furthest_of_unmatched (h : wholeDocument { rest := source } = .unmatched fs)
    (hlog : Records wholeDocument { rest := source } log) {found : Option Char}
    (hfound : found = (source.dropBytes? fs.deepest).bind List.head?) :
    Furthest source log fs.expected found ⟨fs.deepest, fs.deepest + found.elim 0 Char.utf8Size⟩ := by
  have hmem {log : List Failure} (hlog : Records wholeDocument { rest := source } log)
      (e : Expectation) : e ∈ fs.recorded ↔ ⟨fs.deepest, e⟩ ∈ log := by
    rw [hlog.eq_recordAll h, Failures.mem_recordAll]
    exact or_iff_right fun he => nomatch he.2
  obtain ⟨e, he⟩ := List.exists_mem_of_ne_nil _ (recorded_ne_nil_of_unmatched h)
  have hreached := (hmem hlog e).1 he
  obtain ⟨rest, hstands⟩ := hlog.boundary_of_mem (.start _) hreached
  have hfound : found = rest.head? := by rw [hfound, hstands.dropBytes?]; rfl
  obtain ⟨words, hwords, hvocabulary⟩ := exists_records source
  exact {
    reached := ⟨_, hreached, rfl⟩
    deepest := fun x hx => by
      rw [hlog.eq_recordAll h]
      exact Failures.offset_le_recordAll hx
    mem_expected := fun e => Failures.mem_expected.trans (hmem hlog e)
    boundary := ⟨hstands.boundary, hstands.le_byteSize⟩
    accepted := accepted_of_unmatched h
    found_eq := by rw [hfound, hstands.dropBytes?]; rfl
    covers := rfl
    empty_iff := by
      have hpos (c : Char) := c.utf8Size_pos
      cases found with
      | none => simp
      | some c => simpa using (hpos c).ne'
    end_iff := by
      rw [hfound, List.head?_eq_none_iff]
      exact hstands.eq_nil_iff
    expected_ne_nil := List.ne_nil_of_mem (Failures.mem_expected.2 he)
    ordered := by
      refine Failures.pairwise_expected
        (hlog.eq_recordAll h ▸ Failures.nodup_recordAll List.nodup_nil) fun a ha b hb => ?_
      exact Expectation.describe_injOn (hvocabulary _ ((hmem hwords a).1 ha))
        (hvocabulary _ ((hmem hwords b).1 hb)) }

end

/-- A parse that ends with an unmet expectation reports the furthest failure of its run. -/
theorem furthest_of_parseWith {options : ParseOptions} {source : String}
    {expected : List Expectation} {found : Option Char} {location : Span}
    (h : parseWith options source = .error (.unexpected expected found location)) :
    (∃ log, Records wholeDocument { rest := source.toList } log) ∧
      (∀ log, Records wholeDocument { rest := source.toList } log →
        Furthest source.toList log expected found location.range) ∧
      (ParseError.unexpected expected found location).message =
        Expectation.message expected found := by
  have hstart : options.startRuleName = ParseOptions.onlyStartRule := by
    by_contra hstart
    rw [parseWith, if_neg hstart] at h
    cases h
  obtain ⟨log, hlog, -⟩ := exists_records source.toList
  refine ⟨⟨log, hlog⟩, fun log hlog => ?_, rfl⟩
  obtain ⟨e, hread, he⟩ := readDocument_of_parseWith hstart h
  cases he
  rw [readDocument_eq] at hread
  cases hwhole : wholeDocument { rest := source.toList } with
  | matched | disordered =>
      rw [hwhole] at hread
      cases hread
  | unmatched fs =>
      rw [hwhole] at hread
      obtain ⟨rfl, rfl, hrange⟩ := ParseError.unexpected.inj (Except.error.inj hread)
      rw [← hrange]
      exact furthest_of_unmatched hwhole hlog rfl

theorem furthest_of_parseWith_name : ∃ expected log,
    parseWith {} "é!" = .error (.unexpected expected (some '!') ⟨none, ⟨2, 1, 2⟩, ⟨3, 1, 3⟩⟩) ∧
      Records wholeDocument { rest := "é!".toList } log ∧
      Furthest "é!".toList log expected (some '!') ⟨2, 3⟩ := by
  have hrun : (match parseWith {} "é!" with
      | .error (.unexpected _ found location) =>
          decide ((found, location) = (some '!', ⟨none, ⟨2, 1, 2⟩, ⟨3, 1, 3⟩⟩))
      | .error (.disorderedRange ..) | .error (.unknownStartRule _) | .error .misplaced | .ok _ =>
          false) = true := by
    decide +kernel
  split at hrun
  next expected found location hparse =>
    cases of_decide_eq_true hrun
    obtain ⟨⟨log, hlog⟩, hfurthest, -⟩ := furthest_of_parseWith hparse
    exact ⟨expected, log, hparse, hlog, hfurthest log hlog⟩
  all_goals cases hrun

end PegGrammar
