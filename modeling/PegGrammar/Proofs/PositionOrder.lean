import Mathlib.Data.Prod.Lex
import PegGrammar.Proofs.Offsets.Calls
import PegGrammar.Proofs.Offsets.Lookups
import PegGrammar.Proofs.SpanReading
import PegGrammar.Proofs.Walks

namespace PegGrammar

open Text

namespace Position

def lineColumn (p : Position) : Nat ×ₗ Nat := toLex (p.line, p.column)

def IsOf (source : Text) (p : Position) : Prop := source.positionAt p.offset = some p

variable {source : Text} {p q : Position} {n : Nat}

/-- How a position is counted: from the last line end behind it. -/
theorem counted_of_positionAt (h : source.positionAt n = some p) :
    ∃ before line rest, source = before ++ (line ++ rest) ∧
      byteSize before = (lineEndsUpTo source p.offset).getLast?.getD 0 ∧
      p = ⟨byteSize before + byteSize line, 1 + (lineEndsUpTo source p.offset).length,
        1 + line.length⟩ := by
  rw [positionAt] at h
  obtain ⟨⟨front, rest⟩, hcut, h⟩ := Option.bind_eq_some_iff.1 h
  obtain ⟨⟨before, line⟩, hline, h⟩ := Option.bind_eq_some_iff.1 h
  cases h
  obtain ⟨hsource, hsize⟩ := splitAtByte?_eq_some_iff.1 hcut
  obtain ⟨rfl, hbefore⟩ := splitAtByte?_eq_some_iff.1 hline
  refine ⟨before, line, rest, by rw [hsource, List.append_assoc], hbefore, ?_⟩
  rw [← byteSize_append, hsize]

theorem offset_of_positionAt (h : source.positionAt n = some p) :
    p.offset = min n source.byteSize := by
  rw [positionAt] at h
  obtain ⟨⟨front, rest⟩, -, h⟩ := Option.bind_eq_some_iff.1 h
  obtain ⟨⟨before, line⟩, -, h⟩ := Option.bind_eq_some_iff.1 h
  cases h
  rfl

theorem isOf_of_positionAt (h : source.positionAt n = some p) : p.IsOf source := by
  rw [IsOf, offset_of_positionAt h, Locator.positionAt_min, h]

theorem length_lt_of_byteSize_lt {t t' u u' : Text} (h : t ++ u = t' ++ u')
    (hlt : byteSize t < byteSize t') : t.length < t'.length := by
  rcases List.append_eq_append_iff.1 h with ⟨v, rfl, -⟩ | ⟨v, rfl, -⟩
  · rcases v with _ | ⟨c, v⟩
    · rw [List.append_nil] at hlt
      exact (Nat.lt_irrefl _ hlt).elim
    · rw [List.length_append]
      exact Nat.lt_add_of_pos_right (Nat.succ_pos _)
  · rw [byteSize_append] at hlt
    exact absurd hlt (Nat.not_lt_of_le (Nat.le_add_right _ _))

namespace IsOf

theorem lineColumn_lt (hp : p.IsOf source) (hq : q.IsOf source) (hlt : p.offset < q.offset) :
    p.lineColumn < q.lineColumn := by
  obtain ⟨before, line, rest, hs, hbefore, hcount⟩ := counted_of_positionAt hp
  obtain ⟨before', line', rest', hs', hbefore', hcount'⟩ := counted_of_positionAt hq
  have hends : (lineEndsUpTo source p.offset).Sublist (lineEndsUpTo source q.offset) := by
    refine List.monotone_filter_right _ fun e he => ?_
    simp only [decide_eq_true_eq] at he ⊢
    omega
  rw [hcount, hcount'] at hlt ⊢
  refine Prod.Lex.toLex_lt_toLex.2 ?_
  rcases Nat.lt_or_eq_of_le hends.length_le with hline | hline
  · exact .inl (Nat.add_lt_add_left hline 1)
  · -- Without a line end in between, both are counted from the same one.
    rw [hends.eq_of_length hline] at hbefore ⊢
    have hcut := splitAtByte?_eq_some_iff.2 ⟨hs, hbefore⟩
    rw [splitAtByte?_eq_some_iff.2 ⟨hs', hbefore'⟩] at hcut
    obtain ⟨rfl, hrest⟩ := Prod.mk.inj (Option.some.inj hcut)
    refine .inr ⟨rfl, Nat.add_lt_add_left (length_lt_of_byteSize_lt hrest.symm ?_) 1⟩
    exact Nat.lt_of_add_lt_add_left hlt

theorem eq_of_offset (hp : p.IsOf source) (hq : q.IsOf source) (h : p.offset = q.offset) : p = q := by
  rw [IsOf, h, hq] at hp
  exact (Option.some.inj hp).symm

theorem lineColumn_lt_iff (hp : p.IsOf source) (hq : q.IsOf source) :
    p.lineColumn < q.lineColumn ↔ p.offset < q.offset := by
  refine ⟨fun h => ?_, hp.lineColumn_lt hq⟩
  rcases Nat.lt_trichotomy p.offset q.offset with hlt | heq | hgt
  · exact hlt
  · rw [hp.eq_of_offset hq heq] at h
    exact (lt_irrefl _ h).elim
  · exact (lt_asymm h (hq.lineColumn_lt hp hgt)).elim

theorem lineColumn_le_iff (hp : p.IsOf source) (hq : q.IsOf source) :
    p.lineColumn ≤ q.lineColumn ↔ p.offset ≤ q.offset := by
  rw [← not_lt, hq.lineColumn_lt_iff hp, Nat.not_lt]

theorem eq_of_lineColumn (hp : p.IsOf source) (hq : q.IsOf source)
    (h : p.lineColumn = q.lineColumn) : p = q := by
  refine hp.eq_of_offset hq (Nat.le_antisymm ?_ ?_)
  · exact (hp.lineColumn_le_iff hq).1 h.le
  · exact (hq.lineColumn_le_iff hp).1 h.ge

end IsOf

theorem exists_of_boundary (h : Boundary source n) :
    ∃ p, source.positionAt n = some p ∧ p.offset = n := by
  obtain ⟨rest, hrest⟩ := h
  have hmin : min n source.byteSize = n := Nat.min_eq_left hrest.le_byteSize
  obtain ⟨p, hp⟩ : ∃ p, source.positionAt n = some p := by
    rw [← Option.ne_none_iff_exists', Ne, Locator.positionAt_eq_none_iff, hmin, not_not]
    exact hrest.boundary
  exact ⟨p, hp, (offset_of_positionAt hp).trans hmin⟩

/-- Of two offsets between characters, the earlier one has the smaller line and column. -/
theorem positionAt_lt {a b : Nat} (ha : Boundary source a) (hb : Boundary source b) (hlt : a < b) :
    ∃ p q, source.positionAt a = some p ∧ source.positionAt b = some q ∧ p.offset = a ∧
      q.offset = b ∧ p.lineColumn < q.lineColumn := by
  obtain ⟨p, hp, rfl⟩ := exists_of_boundary ha
  obtain ⟨q, hq, rfl⟩ := exists_of_boundary hb
  exact ⟨p, q, hp, hq, rfl, rfl, IsOf.lineColumn_lt hp hq hlt⟩

end Position

def Span.IsOf (source : Text) (s : Span) : Prop := s.start.IsOf source ∧ s.stop.IsOf source

theorem Span.IsOf.lineColumn_le_iff {source : Text} {s : Span} (h : s.IsOf source) :
    s.start.lineColumn ≤ s.stop.lineColumn ↔ s.start.offset ≤ s.stop.offset :=
  h.1.lineColumn_le_iff h.2

theorem Span.isOf_of_spanAt {source : Text} {tag : SourceTag} {r : ByteRange} {s : Span}
    (h : source.spanAt tag r = some s) : s.IsOf source := by
  obtain ⟨p, hp, h⟩ := Option.bind_eq_some_iff.1 h
  obtain ⟨q, hq, h⟩ := Option.bind_eq_some_iff.1 h
  cases h
  exact ⟨Position.isOf_of_positionAt hp, Position.isOf_of_positionAt hq⟩

namespace Locator

/-- What a locator of the document becomes by being asked. -/
inductive Reached (source : Text) : Locator → Prop
  | new : Reached source (.ofText source)
  | asked {l : Locator} (tag : SourceTag) (q : Request) (h : Reached source l) :
      Reached source ((q.ask tag).run l).2

variable {source : Text} {l l' : Locator}

theorem Reached.exact (h : Reached source l) : l.Exact source := by
  induction h with
  | new => exact exact_ofText source
  | asked tag q h ih => exact (Request.ask_eq tag ih q).2

theorem isOf_of_span? (h : l.Exact source) {tag : SourceTag} {r : ByteRange} {s : Span}
    (hs : ((span? tag r).run.run l).1 = some s) : s.IsOf source := by
  have hrun : (span? tag r).run.run l = (some s, _) := Prod.ext hs rfl
  have hanswer := (Request.ask_eq tag h (.span r)).1
  rw [Request.ask, Request.run_bind hrun] at hanswer
  obtain ⟨p, hp, hanswer⟩ := Option.bind_eq_some_iff.1 hanswer.symm
  obtain ⟨q, hq, hanswer⟩ := Option.bind_eq_some_iff.1 hanswer
  cases hanswer
  exact ⟨Position.isOf_of_positionAt hp, Position.isOf_of_positionAt hq⟩

end Locator

namespace Offsets.LineTable

/-- What the table of a document becomes by lookups, also if they end in a fault: by then the line
ends up to the offset have been looked for. -/
inductive Reached (source : Text) : LineTable → Prop
  | new : Reached source {}
  | answered {t t' : LineTable} {n : Nat} {p : Position} (h : Reached source t)
      (hrun : t.position source n = .ok (p, t')) : Reached source t'
  | faulted {t : LineTable} {n : Nat} {starts : List Nat} {scanned : Nat} (h : Reached source t)
      (hscan : loop source (scanRound source (min n source.byteSize)) t.starts t.scanned =
        .ok (starts, scanned)) : Reached source { t with starts, scanned }

variable {source : Text} {t t' : LineTable} {n : Nat} {p : Position}

theorem Reached.exact (h : Reached source t) : t.Exact source := by
  induction h with
  | new => exact exact_new source
  | answered h hrun ih => exact (ih.answered hrun).2
  | @faulted t n starts scanned h hscan ih =>
      obtain ⟨r, hr, hstarts, -⟩ := ih.starts.scan (Nat.min_le_right n source.byteSize)
      rw [hscan] at hr
      cases hr
      exact ⟨hstarts, ih.boundary, ih.last⟩

theorem isOf_of_span (h : t.Exact source) {tag : SourceTag} {r : ByteRange} {s : Span}
    (hrun : t.span source tag r = .ok (s, t')) : s.IsOf source := by
  rw [span] at hrun
  obtain ⟨⟨p, t₁⟩, hp, hrun⟩ := exists_of_bind hrun
  obtain ⟨⟨q, t₂⟩, hq, hrun⟩ := exists_of_bind hrun
  obtain ⟨hposition, h₁⟩ := h.answered hp
  have hposition' := (h₁.answered hq).1
  cases hrun
  exact ⟨Position.isOf_of_positionAt hposition, Position.isOf_of_positionAt hposition'⟩

end Offsets.LineTable

section Parsed

variable {options : ParseOptions} {source : String} {g : Grammar Span} {e : ParseError Span}

theorem next_of_parseWith {result : Parsed} (h : parseWith options source = result)
    (hstart : ∀ rule, result ≠ .error (.unknownStartRule rule)) :
    ((Parser.ofString source options.source).next).1 = result := by
  rw [parseWith] at h
  split at h
  next => exact h
  next => exact (hstart _ h.symm).elim

/-- The spans of a parsed document have their ends in it, and do not end before they start. -/
theorem isOf_of_parseWith (h : parseWith options source = .ok g) :
    ∀ s ∈ g.locations, s.IsOf source.toList ∧ s.start.offset ≤ s.stop.offset := by
  have hstands := Parser.stands_ofString source options.source
  have hnext := next_of_parseWith h nofun
  obtain ⟨-, -, htells⟩ := hstands.next
  cases hread : (Parser.ofString source options.source).state.readDocument source.toList with
  | mk result st' =>
      rw [hread, hnext] at htells
      cases result with
      | error e =>
          obtain ⟨e', ⟨⟩, -⟩ := htells
      | ok g₀ =>
          let d : Offsets.Document := ⟨source.toList, options.source⟩
          obtain ⟨hdocument, hrest⟩ := readDocument_eq_ok hread
          have hproper := (Reader.arranged_document hdocument hrest).proper
          obtain rfl : g = g₀.map d.spanOf := by
            have hspans := Offsets.next_of_readDocument (d := d) hstands hread
            exact Except.ok.inj (hnext.symm.trans hspans)
          rw [(g₀.locations_alike_map d.spanOf).1]
          intro s hs
          obtain ⟨r, hr, rfl⟩ := List.mem_map.1 hs
          obtain ⟨hinside, hle, -⟩ := g₀.forall_locations hproper r hr
          obtain ⟨s, -, -, ⟨hrange, hspan⟩, -⟩ :=
            Locator.gives_spanAt options.source hinside _ (Locator.exact_ofText _)
          rw [Offsets.Document.spanOf_eq_of_spanAt (d := d) hspan]
          refine ⟨Span.isOf_of_spanAt hspan, ?_⟩
          rw [← hrange] at hle
          exact hle

theorem isOf_of_parseWith_error (h : parseWith options source = .error e) :
    ∀ s ∈ e.location?, s.IsOf source.toList := by
  intro s hs
  have hstands := Parser.stands_ofString source options.source
  have hnext := next_of_parseWith h fun rule hrule => by
    cases hrule
    cases hs
  obtain ⟨-, -, htells⟩ := hstands.next
  cases hread : (Parser.ofString source options.source).state.readDocument source.toList with
  | mk result st' =>
      rw [hread, hnext] at htells
      cases result with
      | ok g₀ =>
          obtain ⟨g, ⟨⟩, -⟩ := htells
      | error e₀ =>
          obtain ⟨e', ⟨⟩, hspan⟩ := htells
          cases e₀ with
          | unexpected | disorderedRange =>
              obtain ⟨s', hs', ⟨⟩⟩ := Option.bind_eq_some_iff.1 hspan
              cases hs
              exact Span.isOf_of_spanAt hs'
          | unknownStartRule | misplaced =>
              cases hspan
              cases hs

end Parsed

/-- How line and column are ordered in a document. -/
structure LineColumnOrder (source : String) : Prop where
  /-- Two locators are asked, each after any lookups of its own. -/
  increasing : ∀ l l', Locator.Reached source.toList l → Locator.Reached source.toList l' →
    ∀ a b, Boundary source.toList a → Boundary source.toList b → a < b →
      ∃ p q, (l.lookup a).1 = some p ∧ (l'.lookup b).1 = some q ∧ p.offset = a ∧ q.offset = b ∧
        p.lineColumn < q.lineColumn
  injective : ∀ l l', Locator.Reached source.toList l → Locator.Reached source.toList l' →
    ∀ a b p q, (l.lookup a).1 = some p → (l'.lookup b).1 = some q →
      p.lineColumn = q.lineColumn → p = q
  spans : ∀ l, Locator.Reached source.toList l → ∀ tag range s,
    ((Locator.span? tag range).run.run l).1 = some s →
      (s.start.lineColumn ≤ s.stop.lineColumn ↔ s.start.offset ≤ s.stop.offset)
  /-- The same with line tables, which have come from any lookups, faulty ones among them. -/
  table_increasing : ∀ t t', Offsets.LineTable.Reached source.toList t →
    Offsets.LineTable.Reached source.toList t' →
      ∀ a b, Boundary source.toList a → Boundary source.toList b → a < b →
        ∃ p q u u', t.position source.toList a = .ok (p, u) ∧
          t'.position source.toList b = .ok (q, u') ∧ p.offset = a ∧ q.offset = b ∧
            p.lineColumn < q.lineColumn
  table_injective : ∀ t t', Offsets.LineTable.Reached source.toList t →
    Offsets.LineTable.Reached source.toList t' →
      ∀ a b p q u u', t.position source.toList a = .ok (p, u) →
        t'.position source.toList b = .ok (q, u') → p.lineColumn = q.lineColumn → p = q
  table_spans : ∀ t, Offsets.LineTable.Reached source.toList t → ∀ tag range s u,
    t.span source.toList tag range = .ok (s, u) →
      (s.start.lineColumn ≤ s.stop.lineColumn ↔ s.start.offset ≤ s.stop.offset)
  parsed : ∀ options g, parseWith options source = .ok g →
    ∀ s ∈ g.locations, s.start.lineColumn ≤ s.stop.lineColumn
  refused : ∀ options e, parseWith options source = .error e → ∀ s ∈ e.location?,
    (s.start.lineColumn ≤ s.stop.lineColumn ↔ s.start.offset ≤ s.stop.offset)

theorem lineColumnOrder (source : String) : LineColumnOrder source where
  increasing l l' hl hl' a b ha hb hlt := by
    obtain ⟨p, q, hp, hq, hlt⟩ := Position.positionAt_lt ha hb hlt
    exact ⟨p, q, (Locator.lookup_eq hl.exact a).1.trans hp,
      (Locator.lookup_eq hl'.exact b).1.trans hq, hlt⟩
  injective l l' hl hl' a b p q hp hq h := by
    rw [(Locator.lookup_eq hl.exact a).1] at hp
    rw [(Locator.lookup_eq hl'.exact b).1] at hq
    exact (Position.isOf_of_positionAt hp).eq_of_lineColumn (Position.isOf_of_positionAt hq) h
  spans l hl tag range s hs := (Locator.isOf_of_span? hl.exact hs).lineColumn_le_iff
  table_increasing t t' ht ht' a b ha hb hlt := by
    obtain ⟨p, q, hp, hq, hlt⟩ := Position.positionAt_lt ha hb hlt
    obtain ⟨p', u, hp', hrun, -⟩ := Offsets.LineTable.position_eq ht.exact ha
    obtain ⟨q', u', hq', hrun', -⟩ := Offsets.LineTable.position_eq ht'.exact hb
    obtain rfl := Option.some.inj (hp.symm.trans hp')
    obtain rfl := Option.some.inj (hq.symm.trans hq')
    exact ⟨p, q, u, u', hrun, hrun', hlt⟩
  table_injective t t' ht ht' a b p q u u' hrun hrun' h := by
    have hp := (ht.exact.answered hrun).1
    have hq := (ht'.exact.answered hrun').1
    exact (Position.isOf_of_positionAt hp).eq_of_lineColumn (Position.isOf_of_positionAt hq) h
  table_spans t ht tag range s u hrun :=
    (Offsets.LineTable.isOf_of_span ht.exact hrun).lineColumn_le_iff
  parsed options g h s hs := by
    obtain ⟨hof, hle⟩ := isOf_of_parseWith h s hs
    exact hof.lineColumn_le_iff.2 hle
  refused options e h s hs := (isOf_of_parseWith_error h s hs).lineColumn_le_iff

end PegGrammar
