import PegGrammar.Proofs.Offsets.Escapes
import PegGrammar.Proofs.Offsets.LineTable

namespace PegGrammar

open Text

namespace Offsets.LineTable

open MonadExcept (ofExcept)

/-- A computation on a table that keeps what it has changed, also if it ends in a fault. -/
abbrev Lookup : Type → Type := ExceptT Fault (StateM LineTable)

def fill (source : Text) (offset : Nat) : Lookup Unit := do
  let t ← get
  let (starts, scanned) ← ofExcept (loop source (scanRound source offset) t.starts t.scanned)
  set { t with starts, scanned }

def lookup (source : Text) (offset : Nat) : Lookup Position := do
  let offset := min offset source.byteSize
  fill source offset
  let t ← get
  let line := lineOf t.starts offset
  let start ← ofExcept (startOf t.starts line)
  let column ← ofExcept (t.column source start offset)
  set { t with lastOffset := offset, lastColumn := column }
  return ⟨offset, line, column⟩

def lookupSpan (source : Text) (tag : SourceTag) (range : ByteRange) : Lookup Span := do
  let start ← lookup source range.start
  let stop ← lookup source range.stop
  return ⟨tag, start, stop⟩

variable {source : Text} {t t' : LineTable} {n : Nat} {p : Position} {α β : Type}

section Positions

theorem boundary_of_slice {a b : Nat} {u : Text} (h : slice source a b = .ok u) :
    Boundary source b := by
  have hpart : part? source a b = some u := by
    rw [slice] at h
    split at h
    next v hv =>
      cases h
      exact hv
    next => cases h
  obtain ⟨k, rfl⟩ : ∃ k, b = a + k := by
    refine Nat.exists_eq_add_of_le (Nat.le_of_not_lt fun hlt => ?_)
    rw [part?, if_neg (Nat.not_le_of_lt hlt)] at hpart
    cases hpart
  by_cases ha : Boundary source a
  · obtain ⟨s, hs⟩ := ha
    obtain ⟨rest, rfl, rfl⟩ := (part?_eq_some_iff hs).1 hpart
    exact hs.append.boundary
  · rw [part?, if_pos (Nat.le_add_right a k), slice?, dropBytes?_eq_none ha] at hpart
    cases hpart

theorem exists_of_bind {x : Except Fault α} {f : α → Except Fault β} {b : β}
    (h : (x >>= f) = .ok b) : ∃ a, x = .ok a ∧ f a = .ok b := by
  cases x with
  | error => cases h
  | ok a => exact ⟨a, rfl, h⟩

theorem boundary_of_position (hrun : t.position source n = .ok (p, t')) :
    Boundary source (min n source.byteSize) := by
  rw [position] at hrun
  obtain ⟨⟨starts, scanned⟩, -, hrun⟩ := exists_of_bind hrun
  obtain ⟨start, -, hrun⟩ := exists_of_bind hrun
  obtain ⟨k, hcolumn, -⟩ := exists_of_bind hrun
  rw [column] at hcolumn
  split at hcolumn
  · obtain ⟨u, hslice, -⟩ := exists_of_bind hcolumn
    exact boundary_of_slice hslice
  · obtain ⟨u, hslice, -⟩ := exists_of_bind hcolumn
    exact boundary_of_slice hslice

theorem position_min (t : LineTable) (n : Nat) :
    t.position source (min n source.byteSize) = t.position source n := by
  rw [position, position, Nat.min_assoc, Nat.min_self]

theorem Exact.answered (h : t.Exact source) (hrun : t.position source n = .ok (p, t')) :
    source.positionAt n = some p ∧ t'.Exact source := by
  obtain ⟨q, t'', hq, hrun', ht''⟩ := position_eq h (boundary_of_position hrun)
  rw [position_min, hrun] at hrun'
  cases hrun'
  exact ⟨(Locator.positionAt_min source n).symm.trans hq, ht''⟩

end Positions

section Runs

theorem run_bind_ok {x : Lookup α} {f : α → Lookup β} {a : α} (h : x.run.run t = (.ok a, t')) :
    (x >>= f).run.run t = (f a).run.run t' := by
  rw [ExceptT.run_bind, StateT.run_bind, h]
  rfl

theorem run_bind_error {x : Lookup α} {f : α → Lookup β} {fault : Fault}
    (h : x.run.run t = (.error fault, t')) : (x >>= f).run.run t = (.error fault, t') := by
  rw [ExceptT.run_bind, StateT.run_bind, h]
  rfl

theorem run_ofExcept (r : Except Fault α) : (ofExcept r : Lookup α).run.run t = (r, t) := by
  cases r <;> rfl

theorem run_get : (get : Lookup LineTable).run.run t = (.ok t, t) := rfl

/-- The lines that were found up to the offset are kept, whatever comes of the lookup. -/
theorem run_lookup {starts : List Nat} {scanned : Nat}
    (hscan : loop source (scanRound source (min n source.byteSize)) t.starts t.scanned =
      .ok (starts, scanned)) :
    (lookup source n).run.run t =
      match t.position source n with
      | .ok (p, t') => (.ok p, t')
      | .error fault => (.error fault, { t with starts, scanned }) := by
  have hfill : (fill source (min n source.byteSize)).run.run t =
      (.ok (), { t with starts, scanned }) := by
    rw [fill, run_bind_ok run_get, hscan]
    exact run_bind_ok (run_ofExcept _)
  have hcolumn (start : Nat) : column source { t with starts, scanned } start (min n source.byteSize) =
      t.column source start (min n source.byteSize) := rfl
  rw [lookup, run_bind_ok hfill, run_bind_ok run_get, position, hscan]
  dsimp only [bind, Except.bind]
  cases startOf starts (lineOf starts (min n source.byteSize)) with
  | error => exact run_bind_error (run_ofExcept _)
  | ok start =>
      refine (run_bind_ok (run_ofExcept (.ok start))).trans ?_
      dsimp only
      rw [hcolumn]
      cases t.column source start (min n source.byteSize) with
      | error fault => exact run_bind_error (run_ofExcept (.error fault))
      | ok k => exact run_bind_ok (run_ofExcept (.ok k))

end Runs

/-- From any table of the document, a computation finds what is given, or comes to a fault if that is
nothing, and it leaves a table of the document. -/
def Answers (source : Text) (x : Lookup α) (o : Option α) : Prop :=
  ∀ t, t.Exact source → ∃ r t', x.run.run t = (r, t') ∧ r.toOption = o ∧ t'.Exact source

namespace Answers

protected theorem pure (a : α) : Answers source (pure a) (some a) := fun t h => ⟨.ok a, t, rfl, rfl, h⟩

protected theorem bind {x : Lookup α} {o : Option α} {f : α → Lookup β} {g : α → Option β}
    (hx : Answers source x o) (hf : ∀ a, Answers source (f a) (g a)) :
    Answers source (x >>= f) (o >>= g) := by
  intro t h
  obtain ⟨r, t', hrun, rfl, h'⟩ := hx t h
  cases r with
  | error fault => exact ⟨.error fault, t', run_bind_error hrun, rfl, h'⟩
  | ok a =>
      obtain ⟨r, t'', hrun', hr, h''⟩ := hf a t' h'
      exact ⟨r, t'', (run_bind_ok hrun).trans hrun', hr, h''⟩

theorem lookup (source : Text) (n : Nat) : Answers source (lookup source n) (source.positionAt n) := by
  intro t h
  obtain ⟨⟨starts, scanned⟩, hscan, hstarts, -⟩ := h.starts.scan (Nat.min_le_right n source.byteSize)
  rw [run_lookup hscan]
  cases hrun : t.position source n with
  | ok r =>
      obtain ⟨hposition, h'⟩ := h.answered hrun
      exact ⟨_, _, rfl, hposition.symm, h'⟩
  | error fault =>
      have hnone : source.positionAt n = none := by
        refine Locator.positionAt_eq_none_iff.2 fun hboundary => ?_
        obtain ⟨p, t', -, hok, -⟩ := position_eq h hboundary
        rw [position_min, hrun] at hok
        cases hok
      exact ⟨_, _, rfl, hnone.symm, hstarts, h.boundary, h.last⟩

theorem lookupSpan (source : Text) (tag : SourceTag) (r : ByteRange) :
    Answers source (lookupSpan source tag r)
      (do return ⟨tag, ← source.positionAt r.start, ← source.positionAt r.stop⟩) :=
  .bind (lookup source r.start) fun _ => .bind (lookup source r.stop) fun _ => .pure _

end Answers

end Offsets.LineTable

open Offsets (Fault LineTable)

namespace Request

/-- Asks a table of lines, which keeps what it has found even if it ends in a fault. -/
def askTable (source : Text) (tag : SourceTag) : Request → StateM LineTable (Except Fault Answer)
  | .position n => (return .position (← LineTable.lookup source n) : LineTable.Lookup Answer).run
  | .span r => (return .span (← LineTable.lookupSpan source tag r) : LineTable.Lookup Answer).run

theorem askTable_eq (tag : SourceTag) {source : Text} {t : LineTable} (h : t.Exact source)
    (q : Request) : ((q.askTable source tag).run t).1.toOption = q.answer source tag ∧
      ((q.askTable source tag).run t).2.Exact source := by
  obtain ⟨r, t', hrun, hr, ht'⟩ : ∃ r t', (q.askTable source tag).run t = (r, t') ∧
      r.toOption = q.answer source tag ∧ t'.Exact source := by
    cases q with
    | position n => exact LineTable.Answers.bind (.lookup source n) (fun _ => .pure _) t h
    | span r =>
        have hspan := LineTable.Answers.bind (.lookupSpan source tag r) fun s => .pure (Answer.span s)
        simp only [bind_assoc, pure_bind] at hspan
        exact hspan t h
  rw [hrun]
  exact ⟨hr, ht'⟩

/-- If every answer is right while an invariant holds, and every question keeps it, then all answers of a
history are right. -/
theorem map_mapM_run {S α : Type} {I : S → Prop} {ask : Request → StateM S α}
    (view : α → Option Answer) {answer : Request → Option Answer}
    (h : ∀ q s, I s → view ((ask q).run s).1 = answer q ∧ I ((ask q).run s).2)
    (history : List Request) {s : S} (hs : I s) :
    ((history.mapM ask).run s).1.map view = history.map answer := by
  induction history generalizing s with
  | nil => rfl
  | cons q history ih =>
      obtain ⟨hq, hnext⟩ := h q s hs
      rw [List.mapM_cons, List.map_cons, ← hq, ← ih hnext]
      rfl

end Request

/-- Whatever has been asked before, a locator and a table of lines answer as if they had counted from the
start, and they have no answer exactly where an offset lies inside a character. -/
theorem answers_of_history (source : Text) (tag : SourceTag) (history : List Request) :
    ((history.mapM (Request.ask tag)).run (.ofText source)).1 =
        history.map (Request.answer source tag) ∧
      ((history.mapM (Request.askTable source tag)).run {}).1.map Except.toOption =
        history.map (Request.answer source tag) ∧
      ∀ q : Request, q.answer source tag = none ↔
        ∃ n ∈ q.offsets, ¬ Boundary source (min n (byteSize source)) := by
  refine ⟨?_, ?_, fun q => Request.answer_eq_none_iff⟩
  · have hlocator := Request.map_mapM_run id (fun q _ h => Request.ask_eq tag h q) history
      (Locator.exact_ofText source)
    rwa [List.map_id] at hlocator
  · exact Request.map_mapM_run _ (fun q _ h => Request.askTable_eq tag h q) history
      (LineTable.exact_new source)

end PegGrammar
