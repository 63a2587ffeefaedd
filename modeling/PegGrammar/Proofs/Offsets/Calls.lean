import PegGrammar.Proofs.Offsets.Agreement

namespace PegGrammar.Offsets

def syntaxError (d : Document) (c : Cursor) : Except Fault (Parsed × Cursor) := do
  let pos := c.failures.deepest
  let found := charAt? d.source pos
  let (location, lines) ← d.lookUp c.lines ⟨pos, pos + found.elim 0 Char.utf8Size⟩
  return (.error (.unexpected c.failures.expected found location), { c with lines })

def conclude (d : Document) : Outcome (Grammar Span) → Except Fault (Parsed × Cursor)
  | .matched g c' =>
    if d.source.byteSize ≤ c'.pos then return (.ok g, c')
    else syntaxError d { c' with failures := c'.failures.record c'.pos .endOfInput }
  | .unmatched c' => syntaxError d c'
  | .disordered text location c' => return (.error (.disorderedRange text location), c')

def parseGrammar (d : Document) (c : Cursor) : Except Fault (Parsed × Cursor) := do
  conclude d (← Reader.document d c)

def calls (d : Document) : Nat → Cursor → Except Fault (List Parsed × Cursor)
  | 0, c => return ([], c)
  | n + 1, c => do
    let (first, c) ← parseGrammar d c
    let (others, c) ← calls d n c
    return (first :: others, c)

def parseWith (options : ParseOptions) (source : String) : Except Fault Parsed :=
  if options.startRuleName = ParseOptions.onlyStartRule then do
    let (result, _) ← parseGrammar ⟨source.toList, options.source⟩ {}
    return result
  else return .error (.unknownStartRule options.startRuleName)

variable {d : Document} {c : Cursor} {p : Parser} {lines : LineTable}

theorem Document.spanOf_eq_of_spanAt {r : ByteRange} {s : Span}
    (h : d.source.spanAt d.tag r = some s) : d.spanOf r = s := by
  rw [spanOf, h]
  rfl

theorem next_of_readDocument {g₀ : Grammar ByteRange} {st' : State}
    (h : p.Stands d.source d.tag) (hread : p.state.readDocument d.source = (.ok g₀, st')) :
    p.next.1 = .ok (g₀.map d.spanOf) := by
  have hloc := Reader.inside_document (readDocument_eq_ok hread).1 h.state
  have hspan (l : ByteRange) (hl : Inside d.source l) : Gives (Locator.Exact d.source)
      (Locator.span? d.tag l) fun s => id s = d.spanOf l :=
    (Locator.gives_spanAt d.tag hl).imp fun _ hs => (Document.spanOf_eq_of_spanAt hs.2).symm
  obtain ⟨g, l', hrun, hg, -⟩ := g₀.gives_mapM hspan hloc p.locator h.locator
  rw [Grammar.map_id] at hg
  rw [Parser.next_of_ok (by rwa [h.source_eq]) (by rwa [h.tag_eq]), hg]

theorem syntaxError_eq {st' : State} (h : p.Stands d.source d.tag)
    (hread : p.state.readDocument d.source = (.error (st'.failures.error d.source), st'))
    (hlines : lines.Exact d.source) :
    ∃ lines', syntaxError d ⟨st'.offset, st'.failures, lines⟩ =
      .ok (p.next.1, ⟨p.next.2.state.offset, p.next.2.state.failures, lines'⟩) ∧
        lines'.Exact d.source := by
  obtain ⟨-, hstate, htells⟩ := h.next
  rw [hread] at hstate htells
  obtain ⟨e, he, hlocated⟩ := htells
  rw [Failures.error, ParseError.mapM] at hlocated
  obtain ⟨s, hs, ⟨⟩⟩ := Option.bind_eq_some_iff.1 hlocated
  have hinside := inside_of_readDocument h.state h.deepest hread rfl
  obtain ⟨lines', hspan, hlines'⟩ := lookUp_eq hlines hinside
  refine ⟨lines', ?_, hlines'⟩
  rw [Document.spanOf_eq_of_spanAt hs, ← charAt?] at hspan
  rw [syntaxError, hstate, he]
  dsimp only
  rw [hspan]
  rfl

theorem next_of_disordered {text : String} {range : ByteRange} {st' : State}
    (h : p.Stands d.source d.tag)
    (hread : p.state.readDocument d.source = (.error (.disorderedRange text range), st')) :
    p.next.1 = .error (.disorderedRange text (d.spanOf range)) := by
  obtain ⟨-, -, htells⟩ := h.next
  rw [hread] at htells
  obtain ⟨e, he, hlocated⟩ := htells
  rw [ParseError.mapM] at hlocated
  obtain ⟨s, hs, ⟨⟩⟩ := Option.bind_eq_some_iff.1 hlocated
  rw [he, Document.spanOf_eq_of_spanAt hs]

/-- However reading the document has ended, the call ends as that of the parser does. -/
theorem conclude_eq {n : Nat} {o : Outcome (Grammar Span)} (h : p.Stands d.source d.tag)
    (hrun : Mirrored d n (fun g g' => g' = g.map d.spanOf) (PegGrammar.Reader.document p.state) o)
    (hback : ∀ c', o = .unmatched c' → c'.pos = p.state.offset) :
    ∃ lines', conclude d o =
      .ok (p.next.1, ⟨p.next.2.state.offset, p.next.2.state.failures, lines'⟩) ∧
        lines'.Exact d.source := by
  obtain ⟨-, hstate, -⟩ := h.next
  cases hdoc : PegGrammar.Reader.document p.state with
  | matched g₀ st' =>
      rw [hdoc] at hrun
      cases hrun with
      | @matched _ g _ lines' hvalue hn hst' hlines' =>
          obtain rfl := hvalue
          have hall := byteSize_le_iff hst'
          by_cases hend : st'.rest.isEmpty
          · have hread : p.state.readDocument d.source = (.ok g₀, st') := by
              rw [State.readDocument, hdoc]
              exact if_pos hend
            refine ⟨lines', ?_, hlines'⟩
            rw [next_of_readDocument h hread, hstate, hread]
            exact if_pos (hall.2 hend)
          · have hread : p.state.readDocument d.source =
                (.error ((st'.record .endOfInput).failures.error d.source), st'.record .endOfInput) := by
              rw [State.readDocument, hdoc]
              exact if_neg hend
            obtain ⟨lines'', herror, hlines''⟩ := syntaxError_eq h hread hlines'
            exact ⟨lines'', (if_neg fun hle => hend (hall.1 hle)).trans herror, hlines''⟩
  | unmatched fs =>
      rw [hdoc] at hrun
      let st' : State := { p.state with failures := fs }
      have hread : p.state.readDocument d.source = (.error (st'.failures.error d.source), st') := by
        rw [State.readDocument, hdoc]
      cases hrun with
      | unmatched hlines' =>
          obtain rfl := hback _ rfl
          exact syntaxError_eq h hread hlines'
  | disordered text range st' =>
      rw [hdoc] at hrun
      have hread : p.state.readDocument d.source = (.error (.disorderedRange text range), st') := by
        rw [State.readDocument, hdoc]
      cases hrun with
      | @disordered _ _ _ lines' hst' hlines' =>
          refine ⟨lines', ?_, hlines'⟩
          rw [next_of_disordered h hread, hstate, hread]
          rfl

/-- The cursor is where the parser stands in the document. -/
structure Tracks (d : Document) (p : Parser) (c : Cursor) : Prop where
  stands : p.Stands d.source d.tag
  pos : c.pos = p.state.offset
  failures : c.failures = p.state.failures
  lines : c.lines.Exact d.source

theorem tracks_new (source : String) (tag : SourceTag) :
    Tracks ⟨source.toList, tag⟩ (.ofString source tag) {} where
  stands := Parser.stands_ofString source tag
  pos := rfl
  failures := rfl
  lines := LineTable.exact_new _

namespace Tracks

/-- A call to a parser ends without a fault, and returns what the parser returns that knows the text
ahead. -/
theorem parseGrammar (h : Tracks d p c) :
    ∃ c', parseGrammar d c = .ok (p.next.1, c') ∧ Tracks d p.next.2 c' := by
  obtain ⟨hstands, hpos, hfailures, hlines⟩ := h
  obtain ⟨pos, failures, lines⟩ := c
  subst hpos hfailures
  obtain ⟨o, ho, hrun⟩ := Reader.Mirrors.document p.state (Nat.le_refl _) hstands.state lines hlines
  obtain ⟨lines', hend, hlines'⟩ := conclude_eq hstands hrun fun c' hc =>
    Reader.Restores.document _ c' (ho.trans (congrArg Except.ok hc))
  let c' : Cursor := ⟨p.next.2.state.offset, p.next.2.state.failures, lines'⟩
  refine ⟨c', ?_, hstands.next.1, rfl, rfl, hlines'⟩
  rw [Offsets.parseGrammar, ho]
  exact hend

/-- A parser of the document can be called any number of times without a fault. -/
theorem calls (h : Tracks d p c) (n : Nat) :
    ∃ c', calls d n c = .ok ((List.range n).map fun k => (p.after k).next.1, c') ∧
      Tracks d (p.after n) c' := by
  induction n generalizing p c with
  | zero => exact ⟨c, rfl, h⟩
  | succ n ih =>
      obtain ⟨c₁, hfirst, h₁⟩ := h.parseGrammar
      obtain ⟨c₂, hothers, h₂⟩ := ih h₁
      refine ⟨c₂, ?_, h₂⟩
      rw [Offsets.calls, hfirst]
      dsimp only [bind, Except.bind]
      rw [hothers, List.range_succ_eq_map, List.map_cons, List.map_map]
      rfl

end Tracks

/-- Parsing ends without a fault, with the same result as parsing the text ahead. -/
theorem parseWith_eq (options : ParseOptions) (source : String) :
    parseWith options source = .ok (PegGrammar.parseWith options source) := by
  rw [parseWith, PegGrammar.parseWith]
  split
  next =>
    obtain ⟨c, hcall, -⟩ := (tracks_new source options.source).parseGrammar
    rw [hcall]
    rfl
  next => rfl

end PegGrammar.Offsets
