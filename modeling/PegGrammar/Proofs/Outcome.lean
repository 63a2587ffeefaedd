import PegGrammar.Parser
import PegGrammar.Proofs.Placement

namespace PegGrammar

/-- Reading a whole document gives a tree of the structure `g`. -/
def ReadsAs (source : Text) (g : Grammar Unit) : Prop :=
  ∃ g₀ st', Reader.document { rest := source } = .matched g₀ st' ∧ st'.rest = [] ∧ g₀.bare = g

theorem readDocument_eq_ok {source : Text} {g₀ : Grammar ByteRange} {st st' : State}
    (h : st.readDocument source = (.ok g₀, st')) :
    Reader.document st = .matched g₀ st' ∧ st'.rest = [] := by
  rw [State.readDocument] at h
  split at h
  next g st hread =>
    split at h
    next hrest =>
      cases h
      exact ⟨hread, List.isEmpty_iff.1 hrest⟩
    next => cases h
  next => cases h
  next => cases h

theorem exists_of_any {result : Parsed} {test : Grammar Span → Bool}
    (h : result.toOption.any test = true) : ∃ g, result = .ok g ∧ test g = true := by
  cases result with
  | error => cases h
  | ok g => exact ⟨g, rfl, h⟩

namespace Parser

theorem next_of_ok {p : Parser} {g₀ : Grammar ByteRange} {st' : State} {g : Grammar Span}
    {locator : Locator} (hread : p.state.readDocument p.source = (.ok g₀, st'))
    (hrun : (g₀.mapM (Locator.span? p.tag)).run.run p.locator = (some g, locator)) :
    p.next.1 = .ok g := by
  have hlocate : (locate p.tag (.ok g₀)).run.run p.locator = (some (.ok g), locator) := by
    rw [locate, OptionT.run_bind, Option.elimM, StateT.run_bind, hrun]
    rfl
  rw [next, hread]
  change ((locate p.tag (.ok g₀)).run.run p.locator).1.getD _ = _
  rw [hlocate]
  rfl

theorem next_of_error {p : Parser} {e : ParseError ByteRange} {st' : State} {g : Grammar Span}
    (hread : p.state.readDocument p.source = (.error e, st')) : p.next.1 ≠ .ok g := by
  rw [next, hread]
  change ((locate p.tag (.error e)).run.run p.locator).1.getD _ ≠ _
  rw [locate, OptionT.run_bind, Option.elimM, StateT.run_bind]
  rcases (e.mapM (Locator.span? p.tag)).run.run p.locator with ⟨o, l⟩
  cases o with
  | none => exact nofun
  | some e' => exact nofun

theorem next_of_located {p : Parser} {e : ParseError ByteRange} {st' : State}
    {e' : ParseError Span} {locator : Locator}
    (hread : p.state.readDocument p.source = (.error e, st'))
    (hrun : (e.mapM (Locator.span? p.tag)).run.run p.locator = (some e', locator)) :
    p.next.1 = .error e' := by
  have hlocate : (locate p.tag (.error e)).run.run p.locator = (some (.error e'), locator) := by
    rw [locate, OptionT.run_bind, Option.elimM, StateT.run_bind, hrun]
    rfl
  rw [next, hread]
  change ((locate p.tag (.error e)).run.run p.locator).1.getD _ = _
  rw [hlocate]
  rfl

end Parser

namespace ParseError

variable {L : ByteRange → Prop} {f : ByteRange → OptionT (StateM Locator) Span}

theorem gives_mapM {I : Locator → Prop} (hf : ∀ range, L range → Gives I (f range) (·.range = range)) :
    (e : ParseError ByteRange) → (∀ range ∈ e.location?, L range) →
      Gives I (e.mapM f) fun e' => e'.mapM (fun s => some s.range) = some e
  | .unexpected expected found _, h =>
      (hf _ (h _ rfl)).bind fun s hs => .pure (by simp [mapM, hs])
  | .disorderedRange text _, h => (hf _ (h _ rfl)).bind fun s hs => .pure (by simp [mapM, hs])
  | .unknownStartRule _, _ => .pure rfl
  | .misplaced, _ => .pure rfl

end ParseError

section

variable {options : ParseOptions} {source : String} {g₀ : Grammar ByteRange} {g : Grammar Span}
  {st' : State}

theorem parseWith_of_document (hstart : options.startRuleName = ParseOptions.onlyStartRule)
    (hread : Reader.document { rest := source.toList } = .matched g₀ st') (hrest : st'.rest = []) :
    ∃ g, parseWith options source = .ok g ∧ g.map Span.range = g₀ := by
  have hloc : g₀.Located (Inside source.toList) := Reader.inside_document hread (.start _)
  have hgives := g₀.gives_mapM (u := id) (fun l hl => Locator.gives_span? options.source hl) hloc
  obtain ⟨g, locator, hrun, hg, -⟩ := hgives _ (Locator.knows_ofText source.toList)
  have hok : State.readDocument source.toList { rest := source.toList } = (.ok g₀, st') := by
    simp [State.readDocument, hread, hrest]
  refine ⟨g, ?_, by rw [hg, Grammar.map_id]⟩
  rw [parseWith, if_pos hstart]
  exact Parser.next_of_ok (p := .ofString source options.source) hok hrun

theorem parseWith_of_error {e : ParseError ByteRange}
    (hstart : options.startRuleName = ParseOptions.onlyStartRule)
    (hread : State.readDocument source.toList { rest := source.toList } = (.error e, st'))
    (hloc : ∀ range ∈ e.location?, Inside source.toList range) :
    ∃ e', parseWith options source = .error e' ∧ e'.mapM (fun s => some s.range) = some e := by
  have hgives := e.gives_mapM (fun _ hl => Locator.gives_span? options.source hl) hloc
  obtain ⟨e', locator, hrun, he, -⟩ := hgives _ (Locator.knows_ofText source.toList)
  refine ⟨e', ?_, he⟩
  rw [parseWith, if_pos hstart]
  exact Parser.next_of_located (p := .ofString source options.source) hread hrun

/-- A parsed document was read, and its spans are at the ranges that were read. -/
theorem document_of_parseWith (h : parseWith options source = .ok g) :
    ∃ st', Reader.document { rest := source.toList } = .matched (g.map Span.range) st' ∧
      st'.rest = [] := by
  by_cases hstart : options.startRuleName = ParseOptions.onlyStartRule
  · cases hread : State.readDocument source.toList { rest := source.toList } with
    | mk result st' =>
        cases result with
        | error e =>
            rw [parseWith, if_pos hstart] at h
            exact (Parser.next_of_error (p := .ofString source options.source) hread h).elim
        | ok g₀ =>
            obtain ⟨hdocument, hrest⟩ := readDocument_eq_ok hread
            obtain ⟨g', hg', rfl⟩ := parseWith_of_document hstart hdocument hrest
            rw [h] at hg'
            cases hg'
            exact ⟨st', hdocument, hrest⟩
  · rw [parseWith, if_neg hstart] at h
    cases h

theorem parseWith_of_readsAs {g : Grammar Unit}
    (hstart : options.startRuleName = ParseOptions.onlyStartRule)
    (h : ReadsAs source.toList g) : ∃ g', parseWith options source = .ok g' ∧ g'.bare = g := by
  obtain ⟨g₀, st', hread, hrest, rfl⟩ := h
  obtain ⟨g', hparse, rfl⟩ := parseWith_of_document hstart hread hrest
  exact ⟨g', hparse, (Grammar.map_map Span.range (fun _ => ()) g').symm⟩

/-- A parsed document has the structure that was read. -/
theorem readsAs_of_parseWith (h : parseWith options source = .ok g) :
    ReadsAs source.toList g.bare := by
  obtain ⟨st', hread, hrest⟩ := document_of_parseWith h
  exact ⟨_, st', hread, hrest, Grammar.map_map _ _ g⟩

end

end PegGrammar
