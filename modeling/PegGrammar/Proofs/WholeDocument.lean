import PegGrammar.Proofs.Outcome
import PegGrammar.Proofs.Recording

namespace PegGrammar

open Reader

namespace Reader

def wholeDocument : Reader (Grammar ByteRange) := do
  let g ← document
  endOfInput
  return g

theorem Traced.wholeDocument {n : Nat} : Traced n wholeDocument :=
  .bind document fun _ => .bind endOfInput fun _ => .pure _

theorem endOfInput_eq (st : State) : endOfInput st =
    if st.rest.isEmpty then .matched () st else .unmatched (st.record .endOfInput).failures := by
  change (if st.rest.isEmpty then pure () else fail .endOfInput : Reader Unit) st = _
  split <;> rfl

end Reader

theorem readDocument_eq (source : Text) (st : State) :
    (st.readDocument source).1 = match wholeDocument st with
      | .matched g _ => Except.ok g
      | .unmatched f => Except.error (f.error source)
      | .disordered text range _ => Except.error (ParseError.disorderedRange text range) := by
  change _ = match Reader.bind document (fun g => Reader.bind endOfInput fun _ => pure g) st with
      | .matched g _ => Except.ok g
      | .unmatched f => Except.error (f.error source)
      | .disordered text range _ => Except.error (ParseError.disorderedRange text range)
  rw [State.readDocument, Reader.bind]
  cases hread : document st with
  | unmatched | disordered => rfl
  | matched g st' =>
      simp only [Reader.bind, endOfInput_eq]
      split <;> rfl

theorem readDocument_failures (source : Text) (st : State) :
    (st.readDocument source).2.failures = (wholeDocument st).failures := by
  change _ = (Reader.bind document (fun g => Reader.bind endOfInput fun _ => pure g) st).failures
  rw [State.readDocument, Reader.bind]
  cases hread : document st with
  | unmatched | disordered => rfl
  | matched g st' =>
      simp only [Reader.bind, endOfInput_eq]
      split <;> rfl

variable {log : List Failure}

theorem exists_records (source : Text) : ∃ log, Records wholeDocument { rest := source } log ∧
    ∀ x ∈ log, x.expectation ∈ Expectation.vocabulary :=
  Traced.wholeDocument _ (Nat.le_refl _)

theorem State.Ahead.boundary {source : Text} {st : State} {n : Nat} (h : st.Ahead n)
    (hst : st.At source) : Boundary source n := by
  obtain ⟨before, rest, hrest, rfl⟩ := h
  rw [State.At, hrest] at hst
  exact hst.append.boundary

namespace Reader.Records

variable {source : Text} {st : State} {fs : Failures}

theorem eq_recordAll (h : Records wholeDocument st log) (hread : wholeDocument st = .unmatched fs) :
    fs = st.failures.recordAll log := by
  have hfailures := h.failures_eq
  rwa [hread] at hfailures

theorem boundary_of_mem (h : Records wholeDocument st log) (hst : st.At source) {x : Failure}
    (hx : x ∈ log) : Boundary source x.offset :=
  (h.ahead_of_mem hx).boundary hst

theorem boundary_deepest (h : Records wholeDocument st log) (hst : st.At source)
    (hdeepest : Boundary source st.failures.deepest) :
    Boundary source (st.failures.recordAll log).deepest := by
  rcases Failures.deepest_recordAll_mem st.failures log with hsame | ⟨x, hx, hnew⟩
  · rwa [hsame]
  · rw [hnew]
    exact h.boundary_of_mem hst hx

end Reader.Records

theorem inside_of_readDocument {source : Text} {st st' : State} {e : ParseError ByteRange}
    (hst : st.At source) (hdeepest : Boundary source st.failures.deepest)
    (h : st.readDocument source = (.error e, st')) {range : ByteRange}
    (hrange : range ∈ e.location?) : Inside source range := by
  obtain ⟨log, hlog, -⟩ := Traced.wholeDocument st (Nat.le_refl _)
  have hread := readDocument_eq source st
  rw [h] at hread
  cases hwhole : wholeDocument st with
  | matched =>
      rw [hwhole] at hread
      cases hread
  | unmatched fs =>
      rw [hwhole] at hread
      obtain rfl := hlog.eq_recordAll hwhole
      obtain ⟨rest, hstands⟩ := hlog.boundary_deepest hst hdeepest
      cases hread
      cases hrange
      refine ⟨hstands.boundary, ?_⟩
      rw [hstands.dropBytes?]
      cases rest with
      | nil => exact hstands.boundary
      | cons c rest => simpa using (hstands.append (t := [c])).boundary
  | disordered text =>
      rw [hwhole] at hread
      have hahead := Records.disordered_ahead hlog hwhole
      cases hread
      cases hrange
      exact ⟨hahead.1.boundary hst, hahead.2.boundary hst⟩

section

variable {options : ParseOptions} {source : String} {e : ParseError Span}

/-- Parsing from the start rule fails with the error that reading ends with. -/
theorem readDocument_of_parseWith (hstart : options.startRuleName = ParseOptions.onlyStartRule)
    (h : parseWith options source = .error e) : ∃ e₀,
      (State.readDocument source.toList { rest := source.toList }).1 = .error e₀ ∧
      e.mapM (fun s => some s.range) = some e₀ := by
  cases hread : State.readDocument source.toList { rest := source.toList } with
  | mk result st' =>
      cases result with
      | ok g₀ =>
          obtain ⟨hdocument, hrest⟩ := readDocument_eq_ok hread
          obtain ⟨g, hok, -⟩ := parseWith_of_document hstart hdocument hrest
          rw [h] at hok
          cases hok
      | error e₀ =>
          have hst : State.At source.toList { rest := source.toList } := .start _
          obtain ⟨e', herror, he⟩ := parseWith_of_error hstart hread fun _ =>
            inside_of_readDocument hst hst.boundary hread
          rw [h] at herror
          cases herror
          exact ⟨e₀, rfl, he⟩

end

end PegGrammar
