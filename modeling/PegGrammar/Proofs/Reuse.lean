import Mathlib.Logic.Function.Iterate
import Mathlib.Order.Monotone.Basic
import PegGrammar.Proofs.Displacement
import PegGrammar.Proofs.LineColumn
import PegGrammar.Proofs.Progress

namespace PegGrammar

open Reader

namespace Failures

variable {f : Failures} {log : List Failure}

theorem record_eq_self {o : Nat} {e : Expectation}
    (h : o < f.deepest ∨ o = f.deepest ∧ e ∈ f.recorded) : f.record o e = f := by
  rw [record]
  rcases h with hlt | ⟨rfl, he⟩
  · exact if_pos hlt
  · rw [if_neg (Nat.lt_irrefl _), if_neg (Nat.lt_irrefl _), if_pos he]

theorem recordAll_eq_self
    (h : ∀ x ∈ log, x.offset < f.deepest ∨ x.offset = f.deepest ∧ x.expectation ∈ f.recorded) :
    f.recordAll log = f := by
  induction log with
  | nil => rfl
  | cons x log ih =>
      have hx := record_eq_self (h x List.mem_cons_self)
      change (f.record x.offset x.expectation).recordAll log = f
      rw [hx]
      exact ih fun y hy => h y (List.mem_cons_of_mem x hy)

theorem recordAll_recordAll (f : Failures) (log : List Failure) :
    (f.recordAll log).recordAll log = f.recordAll log := by
  refine recordAll_eq_self fun x hx => ?_
  rcases (offset_le_recordAll (f := f) hx).lt_or_eq with hlt | heq
  · exact .inl hlt
  · refine .inr ⟨heq, mem_recordAll.2 (.inr ?_)⟩
    rwa [← heq]

end Failures

namespace Reader

variable {st st' : State} {g : Grammar ByteRange} {fs : Failures}

theorem passes_ne_nil_of_document (h : document st = .matched g st') : ∃ t, st.Passes t st' ∧ t ≠ [] := by
  obtain ⟨l, st₁, st₂, st₃, -, hp, htop, hinit, hrules, hne, -⟩ := document_eq_matched h
  obtain ⟨⟨t, ht⟩, -⟩ := places_optional places_topLevelInitializer htop
  obtain ⟨⟨u, hu⟩, -⟩ := places_optional places_initializer hinit
  have hbefore := hp.trans (ht.trans hu)
  generalize g.rules = rules at hrules hne
  cases hrules with
  | nil => exact (hne rfl).elim
  | cons hrule hs =>
      obtain ⟨st₄, l', hrule, -, hl'⟩ := thenTrivia_eq_matched hrule
      obtain ⟨v, hv, hv'⟩ := passes_rule hrule
      obtain ⟨⟨w, hw⟩, -⟩ := places_rules hs
      refine ⟨_, hbefore.trans ((hv.trans hl').trans hw), ?_⟩
      simp [hv']

theorem refuses_document_bracket (s : Text) : Refuses document ('[' :: s) := by
  have hbrace : Next (· ≠ '{') ('[' :: s) := next_cons (by decide)
  have htrivia := takes_trivia (s := '[' :: s)
  rw [skipTrivia_solid (by decide)] at htrivia
  refine .located (htrivia.bind_refuses fun _ _ => ?_)
  refine (refuses_topLevel hbrace).bind.optional.bind_refuses fun _ _ => ?_
  refine (refuses_initializer hbrace).bind.optional.bind_refuses fun _ _ => ?_
  refine (refuses_rule_of_name rfl).bind.many.bind_refuses ?_
  rintro _ rfl
  exact refuses_nothing

theorem passes_of_disordered {text : String} {range : ByteRange}
    (h : document st = .disordered text range st') : ∃ t, st.Passes t st' ∧ t ≠ [] := by
  have hrun := Parallel.document (k := 0) st st (Nat.le_refl _) ⟨rfl, rfl⟩
  rw [h] at hrun
  cases hrun with
  | @disordered _ _ _ _ t hpass hopen =>
      refine ⟨t, hpass, ?_⟩
      rintro rfl
      have hrest : st.rest = '[' :: st'.rest.tail := by
        rw [hpass.1, List.nil_append]
        exact List.eq_cons_of_mem_head? hopen
      obtain ⟨fs, hfail⟩ := refuses_document_bracket _ st hrest
      rw [h] at hfail
      cases hfail

/-- After a document that did not match, it does not match again, and no failure is new. -/
theorem document_again (h : document st = .unmatched fs) :
    document { st with failures := fs } = .unmatched fs := by
  have hrun := Parallel.document (k := 0) st { st with failures := fs } (Nat.le_refl _) ⟨rfl, rfl⟩
  rw [h] at hrun
  generalize document { st with failures := fs } = r at hrun ⊢
  cases hrun with
  | unmatched hgrow =>
      obtain ⟨log, rfl, rfl⟩ := hgrow
      have hshift : log.map (Failure.shift 0) = log := List.map_id' log
      rw [hshift]
      change Result.unmatched ((st.failures.recordAll log).recordAll log) = _
      rw [Failures.recordAll_recordAll]

end Reader

/-- Reading a document takes a part of the text, or nothing is matched and only the failures are
kept. -/
theorem State.readDocument_cases {source : Text} {st st' : State}
    {r : Except (ParseError ByteRange) (Grammar ByteRange)} (h : st.readDocument source = (r, st')) :
    (∃ t, st.Passes t st' ∧ t ≠ []) ∨ ∃ fs, document st = .unmatched fs ∧
      st' = { st with failures := fs } ∧ r = .error (fs.error source) := by
  rw [readDocument] at h
  split at h
  next g s hread =>
    refine .inl ?_
    obtain ⟨t, hpass, ht⟩ := passes_ne_nil_of_document hread
    split at h
    next =>
      cases h
      exact ⟨t, hpass, ht⟩
    next =>
      cases h
      refine ⟨t, ?_, ht⟩
      have htrans := hpass.trans (.of_failures s (s.record .endOfInput).failures)
      rwa [List.append_nil] at htrans
  next fs hread =>
    cases h
    exact .inr ⟨fs, hread, rfl, rfl⟩
  next hread =>
    cases h
    exact .inl (passes_of_disordered hread)

def Text.spanAt (source : Text) (tag : SourceTag) (r : ByteRange) : Option Span :=
  return ⟨tag, ← source.positionAt r.start, ← source.positionAt r.stop⟩

theorem Locator.gives_spanAt {source : Text} (tag : SourceTag) {r : ByteRange}
    (hr : Inside source r) :
    Gives (Exact source) (span? tag r) fun s => s.range = r ∧ source.spanAt tag r = some s := by
  intro l hl
  obtain ⟨s, l', hrun, hs, -⟩ := gives_span? tag hr l hl.knows
  obtain ⟨hanswer, hl'⟩ := Request.ask_eq tag hl (.span r)
  rw [Request.ask, Request.run_bind hrun] at hanswer hl'
  have hspan : (source.spanAt tag r).map Answer.span = some (.span s) := by
    refine Eq.trans ?_ hanswer.symm
    rw [Text.spanAt, Request.answer]
    cases source.positionAt r.start <;> cases source.positionAt r.stop <;> rfl
  obtain ⟨s', hs', hsame⟩ := Option.map_eq_some_iff.1 hspan
  cases hsame
  exact ⟨s, l', hrun, ⟨hs, hs'⟩, hl'⟩

theorem ParseError.gives_spanAt {source : Text} (tag : SourceTag) {e : ParseError ByteRange}
    (h : ∀ r ∈ e.location?, Inside source r) :
    Gives (Locator.Exact source) (e.mapM (Locator.span? tag)) fun e' =>
      e.mapM (source.spanAt tag) = some e' := by
  cases e with
  | unexpected _ _ r | disorderedRange _ r =>
      exact (Locator.gives_spanAt tag (h r rfl)).bind fun s hs => .pure (by simp [mapM, hs.2])
  | unknownStartRule | misplaced => exact .pure rfl

namespace Parser

def after (p : Parser) (n : Nat) : Parser := (fun p => p.next.2)^[n] p

theorem after_succ (p : Parser) (n : Nat) : p.after (n + 1) = (p.after n).next.2 :=
  Function.iterate_succ_apply' _ n p

theorem after_after (p : Parser) (n k : Nat) : (p.after n).after k = p.after (k + n) :=
  (Function.iterate_add_apply _ k n p).symm

/-- What a parser of the document keeps from call to call. -/
structure Stands (source : Text) (tag : SourceTag) (p : Parser) : Prop where
  source_eq : p.source = source
  tag_eq : p.tag = tag
  locator : p.locator.Exact source
  state : p.state.At source
  deepest : Boundary source p.state.failures.deepest

theorem next_eq {p : Parser} {r : Except (ParseError ByteRange) (Grammar ByteRange)} {st : State}
    {located : Option Parsed} {locator : Locator} (hread : p.state.readDocument p.source = (r, st))
    (hrun : (locate p.tag r).run.run p.locator = (located, locator)) :
    p.next = (located.getD (.error .misplaced), { p with locator, state := st }) := by
  rw [next, hread]
  change (((locate p.tag r).run.run p.locator).1.getD _, _) = _
  rw [hrun]
  change (_, { p with locator := ((locate p.tag r).run.run p.locator).2, state := st }) = _
  rw [hrun]

/-- How what a call returns shows what was read: ranges have become spans. -/
def Tells (source : Text) (tag : SourceTag) (parsed : Parsed) :
    Except (ParseError ByteRange) (Grammar ByteRange) → Prop
  | .ok g₀ => ∃ g, parsed = .ok g ∧ g.map Span.range = g₀
  | .error e => ∃ e', parsed = .error e' ∧ e.mapM (source.spanAt tag) = some e'

theorem gives_locate {source : Text} (tag : SourceTag) {st st' : State}
    {r : Except (ParseError ByteRange) (Grammar ByteRange)} (hst : st.At source)
    (hdeepest : Boundary source st.failures.deepest) (h : st.readDocument source = (r, st')) :
    Gives (Locator.Exact source) (locate tag r) (Tells source tag · r) := by
  cases r with
  | ok g₀ =>
      have hloc := inside_document (readDocument_eq_ok h).1 hst
      have hspan (l : ByteRange) (hl : Inside source l) : Gives (Locator.Exact source)
          (Locator.span? tag l) fun s => s.range = id l :=
        (Locator.gives_spanAt tag hl).imp fun _ hs => hs.1
      refine (g₀.gives_mapM hspan hloc).bind fun g hg => .pure ⟨g, rfl, ?_⟩
      rw [hg, Grammar.map_id]
  | error e =>
      refine (ParseError.gives_spanAt tag fun r hr => ?_).bind fun e' he => .pure ⟨e', rfl, he⟩
      exact inside_of_readDocument hst hdeepest h hr

theorem Stands.next {source : Text} {tag : SourceTag} {p : Parser} (h : p.Stands source tag) :
    p.next.2.Stands source tag ∧ p.next.2.state = (p.state.readDocument source).2 ∧
      Tells source tag p.next.1 (p.state.readDocument source).1 := by
  obtain ⟨rfl, rfl, hl, hst, hdeepest⟩ := h
  cases hread : p.state.readDocument p.source with
  | mk r st' =>
      obtain ⟨parsed, l', hrun, htells, hl'⟩ :=
        gives_locate p.tag hst hdeepest hread p.locator hl
      rw [next_eq hread hrun]
      refine ⟨⟨rfl, rfl, hl', ?_, ?_⟩, rfl, htells⟩
      · rcases State.readDocument_cases hread with ⟨t, hpass, -⟩ | ⟨fs, -, rfl, -⟩
        · exact hst.passes hpass
        · exact hst
      · obtain ⟨log, hlog, -⟩ := Traced.wholeDocument p.state (Nat.le_refl _)
        have hfailures := readDocument_failures p.source p.state
        rw [hread, hlog.failures_eq] at hfailures
        change Boundary p.source st'.failures.deepest
        rw [hfailures]
        exact hlog.boundary_deepest hst hdeepest

theorem stands_ofString (source : String) (tag : SourceTag) :
    (ofString source tag).Stands source.toList tag where
  source_eq := rfl
  tag_eq := rfl
  locator := Locator.exact_ofText _
  state := StandsAt.start _
  deepest := (StandsAt.start source.toList).boundary

variable {source : Text} {tag : SourceTag} {p : Parser}

theorem Stands.after (h : p.Stands source tag) (n : Nat) : (p.after n).Stands source tag := by
  induction n with
  | zero => exact h
  | succ n ih =>
      rw [after_succ]
      exact ih.next.1

theorem Stands.forward (h : p.Stands source tag) :
    p.state.offset < p.next.2.state.offset ∨ ∃ fs, document p.state = .unmatched fs ∧
      p.next.2.state = { p.state with failures := fs } := by
  obtain ⟨-, hstate, -⟩ := h.next
  rw [hstate]
  cases hread : p.state.readDocument source with
  | mk r st' =>
      rcases State.readDocument_cases hread with ⟨t, hpass, ht⟩ | ⟨fs, hfail, hst, -⟩
      · have hsize : t.byteSize ≠ 0 := fun hzero => ht (StandsAt.eq_nil_of_byteSize_eq_zero hzero)
        refine .inl ?_
        rw [hpass.2]
        omega
      · exact .inr ⟨fs, hfail, hst⟩

theorem Stands.offset_le (h : p.Stands source tag) : p.state.offset ≤ p.next.2.state.offset := by
  rcases h.forward with hlt | ⟨fs, -, hst⟩
  · exact hlt.le
  · rw [hst]

theorem Stands.monotone (h : p.Stands source tag) :
    Monotone fun n => (p.after n).state.offset := by
  refine monotone_nat_of_le_succ fun n => ?_
  rw [after_succ]
  exact (h.after n).offset_le

theorem Stands.of_ok (h : p.Stands source tag) {g : Grammar Span} (hok : p.next.1 = .ok g) :
    p.state.offset < source.byteSize ∧ p.next.2.state.offset = source.byteSize := by
  obtain ⟨hnext, hstate, htells⟩ := h.next
  cases hread : p.state.readDocument source with
  | mk r st' =>
      rw [hread] at htells hstate
      cases r with
      | error e =>
          obtain ⟨e', he, -⟩ := htells
          rw [hok] at he
          cases he
      | ok g₀ =>
          obtain ⟨hmatch, hrest⟩ := readDocument_eq_ok hread
          have hend := hnext.state.eq_nil_iff.1 (hstate ▸ hrest)
          refine ⟨?_, hend⟩
          rcases h.forward with hlt | ⟨fs, hfail, -⟩
          · exact hlt.trans_eq hend
          · rw [hmatch] at hfail
            cases hfail

theorem Stands.once (h : p.Stands source tag) {m n : Nat} {g g' : Grammar Span}
    (hm : (p.after m).next.1 = .ok g) (hn : (p.after n).next.1 = .ok g') : ¬ m < n := by
  intro hlt
  have hend := ((h.after m).of_ok hm).2
  have hbefore := ((h.after n).of_ok hn).1
  have hle := h.monotone (Nat.succ_le_of_lt hlt)
  dsimp only at hle
  rw [after_succ, hend] at hle
  exact Nat.not_lt_of_le hle hbefore

/-- A call that stays where it is fails, and so do all calls after it, with the same error. -/
theorem Stands.stuck (h : p.Stands source tag) (hstay : p.next.2.state.offset = p.state.offset) :
    ∃ e : ParseError Span, e.isUnexpected = true ∧ ∀ n, (p.after n).next.1 = .error e := by
  obtain ⟨fs, hread⟩ : ∃ fs, document p.state = .unmatched fs := by
    rcases h.forward with hlt | ⟨fs, hread, -⟩
    · exact (hlt.ne' hstay).elim
    · exact ⟨fs, hread⟩
  have hfails (n : Nat) : document (p.after n).state = .unmatched fs := by
    induction n with
    | zero => exact hread
    | succ n ih =>
        obtain ⟨-, hstate, -⟩ := (h.after n).next
        rw [after_succ, hstate, State.readDocument, ih]
        exact document_again ih
  have hcall (n : Nat) : ∃ e', (p.after n).next.1 = .error e' ∧
      (fs.error source).mapM (source.spanAt tag) = some e' := by
    obtain ⟨-, -, htells⟩ := (h.after n).next
    rwa [State.readDocument, hfails n] at htells
  obtain ⟨e, -, he⟩ := hcall 0
  refine ⟨e, ?_, fun n => ?_⟩
  · rw [Failures.error, ParseError.mapM] at he
    obtain ⟨l, -, ⟨⟩⟩ := Option.bind_eq_some_iff.1 he
    rfl
  · obtain ⟨e', hcall, he'⟩ := hcall n
    rw [hcall, Option.some.inj (he'.symm.trans he)]

end Parser

/-- The rest of a document is a document exactly if it is one on its own; it is the same, but for the
place where it stands. -/
theorem State.readDocument_alone (source : Text) (st : State) :
    (∃ g₀, (State.readDocument st.rest { rest := st.rest }).1 = .ok g₀ ∧
        (st.readDocument source).1 = .ok (g₀.map (ByteRange.shift st.offset))) ∨
      ∃ e e', (State.readDocument st.rest { rest := st.rest }).1 = .error e ∧
        (st.readDocument source).1 = .error e' := by
  have hrun := Parallel.document (k := st.offset) { rest := st.rest } st (Nat.le_refl _)
    ⟨rfl, (Nat.zero_add _).symm⟩
  rw [State.readDocument, State.readDocument]
  generalize document { rest := st.rest } = r at hrun ⊢
  generalize document st = r' at hrun ⊢
  cases hrun with
  | @matched g₀ g s s' t hvalue hpass hs hgrow =>
      obtain rfl := hvalue
      simp only [hs.rest]
      by_cases hend : s.rest.isEmpty
      · simp only [hend]
        exact .inl ⟨g₀, rfl, rfl⟩
      · simp only [hend]
        exact .inr ⟨_, _, rfl, rfl⟩
  | unmatched => exact .inr ⟨_, _, rfl, rfl⟩
  | disordered => exact .inr ⟨_, _, rfl, rfl⟩

theorem Parser.tells_parse (source : String) : Tells source.toList none (parse source)
    (State.readDocument source.toList { rest := source.toList }).1 :=
  (stands_ofString source none).next.2.2

theorem Parser.Stands.alone {source : Text} {tag : SourceTag} {p : Parser}
    (h : p.Stands source tag) :
    (∃ g g', p.next.1 = .ok g ∧ parse (String.ofList p.state.rest) = .ok g' ∧
        g.map Span.range = g'.map fun l => l.range.shift p.state.offset) ∨
      ∃ e e', p.next.1 = .error e ∧ parse (String.ofList p.state.rest) = .error e' := by
  have hown := tells_parse (String.ofList p.state.rest)
  rw [String.toList_ofList] at hown
  obtain ⟨-, -, hcall⟩ := h.next
  rcases p.state.readDocument_alone source with ⟨g₀, hread₀, hread⟩ | ⟨e, e', hread₀, hread⟩
  · rw [hread₀] at hown
    rw [hread] at hcall
    obtain ⟨g', hg', rfl⟩ := hown
    obtain ⟨g, hg, hranges⟩ := hcall
    refine .inl ⟨g, g', hg, hg', ?_⟩
    rw [hranges, Grammar.map_map]
    rfl
  · rw [hread₀] at hown
    rw [hread] at hcall
    obtain ⟨e₁, he₁, -⟩ := hown
    obtain ⟨e₂, he₂, -⟩ := hcall
    exact .inr ⟨e₂, e₁, he₂, he₁⟩

/-- How the calls to one parser of a document go, the parser being `call n` before call `n`. -/
structure Reusable (source : String) (call : Nat → Parser) : Prop where
  forward : ∀ m n, m ≤ n → (call m).state.offset ≤ (call n).state.offset
  once : ∀ m n g g', (call m).next.1 = .ok g → (call n).next.1 = .ok g' → m = n
  /-- A call reads what is left of the text as a document of its own. -/
  alone : ∀ n, ∃ rest, Text.dropBytes? source.toList (call n).state.offset = some rest ∧
    ((∃ g, (call n).next.1 = .ok g) ↔ ∃ g', parse (String.ofList rest) = .ok g') ∧
    ∀ g g', (call n).next.1 = .ok g → parse (String.ofList rest) = .ok g' →
      g.strip = g'.strip ∧
        g.map Span.range = g'.map fun l => l.range.shift (call n).state.offset
  /-- Once a call has stayed where it was, all calls end with the same error. -/
  stuck : ∀ n, (call (n + 1)).state.offset = (call n).state.offset →
    ∃ e : ParseError Span, e.isUnexpected = true ∧ ∀ m, n ≤ m → (call m).next.1 = .error e

theorem parser_reusable (options : ParseOptions) (source : String) :
    Reusable source (Parser.ofString source options.source).after := by
  have h := Parser.stands_ofString source options.source
  generalize Parser.ofString source options.source = p at h
  refine ⟨fun m n hle => h.monotone hle, fun m n g g' hm hn => ?_, fun n => ?_, fun n hstay => ?_⟩
  · exact Nat.le_antisymm (Nat.le_of_not_lt (h.once hn hm)) (Nat.le_of_not_lt (h.once hm hn))
  · refine ⟨_, (h.after n).state.dropBytes?, ?_⟩
    rcases (h.after n).alone with ⟨g, g', hg, hg', hranges⟩ | ⟨e, e', he, he'⟩
    · refine ⟨⟨fun _ => ⟨g', hg'⟩, fun _ => ⟨g, hg⟩⟩, fun a b ha hb => ?_⟩
      cases hg.symm.trans ha
      cases hg'.symm.trans hb
      exact ⟨Grammar.strip_eq_of_map hranges, hranges⟩
    · have hfails {g : Grammar Span} (hg : (p.after n).next.1 = .ok g) : False := by
        cases he.symm.trans hg
      refine ⟨⟨fun ⟨g, hg⟩ => (hfails hg).elim, fun ⟨g', hg'⟩ => ?_⟩, fun g g' hg => (hfails hg).elim⟩
      cases he'.symm.trans hg'
  · rw [Parser.after_succ] at hstay
    obtain ⟨e, hunexpected, he⟩ := (h.after n).stuck hstay
    refine ⟨e, hunexpected, fun m hle => ?_⟩
    obtain ⟨k, rfl⟩ := Nat.exists_eq_add_of_le' hle
    have hcall := he k
    rwa [Parser.after_after] at hcall

end PegGrammar
