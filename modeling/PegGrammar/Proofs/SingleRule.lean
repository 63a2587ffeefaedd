import PegGrammar.Proofs.Outcome
import PegGrammar.Proofs.Relayout.Documents

namespace PegGrammar

open Reader

def ByteRange.shift (n : Nat) (r : ByteRange) : ByteRange := ⟨r.start + n, r.stop + n⟩

variable {st st' : State} {e : Text} {r : Rule ByteRange} {rs : List (Rule ByteRange)}

namespace Reader

theorem takes_statementEnd_alone (h : statementEnd st = .matched () st') (he : st.Passes e st') :
    Takes statementEnd e (fun _ => True) [] ∧ Next (· = ';') (skipTrivia e) := by
  rcases statementEnd_cases h he with ⟨l, rfl, hl⟩ | ht | ⟨hrest, ht⟩
  · have hskip : skipTrivia (l ++ [';']) = [';'] := by
      rw [hl.blank (List.cons_ne_nil _ _)]
      exact skipTrivia_solid (by decide) []
    rw [hskip]
    exact ⟨takes_statementEnd_symbol hskip, next_cons rfl⟩
  · have hskip : skipTrivia e = [] := by
      rw [← List.append_nil e, blank_lineText ht, skipTrivia_nil]
    obtain ⟨r, hr, hnil⟩ := endsLine_lineText ht []
    rw [List.append_nil, hnil rfl] at hr
    rw [hskip]
    refine ⟨takes_statementEnd_of_endsLine ?_ hr, nofun⟩
    rw [hskip]
    exact nofun
  · have hskip : skipTrivia e = [] := by
      rw [← List.append_nil e, ht.skip]
    have hall : st.rest = e := by rw [he.1, hrest, List.append_nil]
    obtain ⟨r, hr⟩ := exists_statementEnd hskip
    obtain ⟨_, st₁, hmatch, -, hr₁⟩ := hr st hall
    rw [h] at hmatch
    cases hmatch
    rw [hskip]
    exact ⟨by rwa [← hr₁, hrest] at hr, nofun⟩

theorem next_of_rules (h : Runs (thenTrivia rule) st rs st') (hrest : st'.rest = []) :
    Next IsNameHead st.rest := by
  cases h with
  | nil hp =>
      rw [← hp.eq_rest, hrest]
      exact nofun
  | cons h =>
      obtain ⟨st₁, -, hrule, -⟩ := thenTrivia_eq_matched h
      obtain ⟨d, st₀, hd, -⟩ := rule_eq_defined hrule
      obtain ⟨t, u, st₂, ht, hu, hp, -⟩ := definition_eq_matched hd
      rw [hp.1, List.append_assoc, List.append_assoc]
      exact (SameHeader.mk ht hu []).next.1

/-- Behind each rule of a document the next one begins or the document ends. -/
theorem exists_rule_of_mem (h : Runs (thenTrivia rule) st rs st') (hrest : st'.rest = [])
    (hr : r ∈ rs) :
    ∃ s st₁ st₂, st.Passes s st₁ ∧ rule st₁ = .matched r st₂ ∧
      Next IsNameHead (skipTrivia st₂.rest) := by
  induction h with
  | nil => cases hr
  | cons h hs ih =>
      obtain ⟨st₁, l, hrule, hl, hpl⟩ := thenTrivia_eq_matched h
      rcases List.mem_cons.1 hr with rfl | hr
      · refine ⟨[], _, st₁, .refl _, hrule, ?_⟩
        rw [hpl.1, hl.skip]
        exact next_of_rules hs hrest
      · obtain ⟨s, st₂, st₃, hp, hrule', hnext⟩ := ih hrest hr
        obtain ⟨t, ht⟩ := (places_rule hrule).1
        exact ⟨_, st₂, st₃, (ht.trans hpl).trans hp, hrule', hnext⟩

end Reader

namespace Relayout

variable {C : Relayout} {s : Text}

theorem reads_document_alone (hC : C.blank = []) (h : rule st = .matched r st')
    (hp : st.Passes s st') (hnext : Next IsNameHead (skipTrivia st'.rest)) :
    C.Reads document st.offset s (fun g => g.topLevel = none ∧ g.perParse = none ∧
      ∃ r', g.rules = [r'] ∧ C.SameRule r r') st'.offset [] := by
  obtain ⟨d, st₀, hd, hend, rfl⟩ := rule_eq_defined h
  obtain ⟨e, -, he⟩ := statementEnd_eq_matched hend
  obtain ⟨t, ht, hpt, -⟩ := definition_passes hd
  obtain rfl := hp.unique (hpt.trans he)
  obtain ⟨htakes, hsemicolon⟩ := takes_statementEnd_alone hend he
  have hE : ExpressionEnd st₀.rest e := by
    have hE := expressionEnd_statement hend he (p := []) (y := []) nofun nofun hnext
    rw [List.append_nil, List.nil_append] at hE
    exact hE (.inl hsemicolon)
  obtain ⟨hdefinition, hheader⟩ := keeps_definition (C := C) hd hpt hE (.inl (.inl hC))
  rw [tight_of_clear (.inl hC)] at hdefinition hheader
  have hhead := hheader.next.2
  have hstatement : C.Reads statementEnd st₀.offset e (fun _ => True) st'.offset [] := by
    have hreads : C.Reads statementEnd st₀.offset (e ++ []) (fun _ => True)
        (st₀.offset + e.byteSize) [] :=
      reads_of_passes (by rwa [List.append_nil])
        fun h => (statementEnd_eq_matched h).imp fun _ h => h.2
    rwa [List.append_nil, ← he.2] at hreads
  have hrule := reads_rule hdefinition hstatement
  have hbrace : Next (· ≠ '{') (t ++ e) := hhead.imp fun c hc => hc.ne (by decide) (by decide)
  have htrivia (n : Nat) (x : Text) (hx : skipTrivia x = x) :
      C.Reads trivia n x (fun _ => True) n x :=
    reads_trivia_of_blank (l := []) .nil hx fun _ => rfl
  have hlength := List.length_pos_iff.2 ht
  have hmany := Reads.many (p := thenTrivia rule) (hrule.bind fun r' hr' =>
      (htrivia _ [] skipTrivia_nil).bind fun _ _ => reads_pure (n := st'.offset) hr')
    (by rw [List.length_nil, List.length_append]; omega)
    (reads_many_nil (refuses_rule_of_name rfl).bind)
  refine .located ((htrivia _ _ (skipTrivia_of_next hhead)).bind fun _ _ => ?_)
  refine (reads_optional_none (refuses_topLevel hbrace).bind).bind ?_
  rintro _ rfl
  refine (reads_optional_none (refuses_initializer hbrace).bind).bind ?_
  rintro _ rfl
  refine hmany.bind ?_
  rintro _ ⟨r', _, rfl, hsame, rfl⟩
  exact reads_pure fun _ _ => ⟨rfl, rfl, r', rfl, hsame⟩

end Relayout

/-- The text of a rule is a document with this rule alone, its locations as far from the start of the
text as those in the whole document are from the start of the rule. -/
theorem parse_rule_alone {source : String} {g : Grammar Span} {r : Rule Span}
    (h : parse source = .ok g) (hr : r ∈ g.rules) :
    ∃ s g' r',
      Text.slice? source.toList r.location.start.offset r.location.stop.offset = some s ∧
      parse (String.ofList s) = .ok g' ∧ g'.topLevel = none ∧ g'.perParse = none ∧
      g'.rules = [r'] ∧ r'.strip = r.strip ∧
      r'.map (fun l => l.range.shift r.location.start.offset) = r.map Span.range := by
  obtain ⟨st', hread, hrest⟩ := document_of_parseWith h
  obtain ⟨l, st₁, st₂, st₃, -, hp, htop, hinit, hrules, -⟩ := document_eq_matched hread
  obtain ⟨⟨t, ht⟩, -⟩ := places_optional places_topLevelInitializer htop
  obtain ⟨⟨u, hu⟩, -⟩ := places_optional places_initializer hinit
  obtain ⟨s, st₄, st₅, hs, hrule, hnext⟩ :=
    exists_rule_of_mem hrules hrest (List.mem_map_of_mem (f := Rule.map Span.range) hr)
  obtain ⟨v, hv⟩ := (places_rule hrule).1
  have hbefore := hp.trans (ht.trans (hu.trans hs))
  have hloc : r.location.range = ⟨st₄.offset, st₅.offset⟩ := by
    obtain ⟨d, _, -, -, heq⟩ := rule_eq_defined hrule
    exact congrArg Rule.location heq
  have hstart : r.location.start.offset = st₄.offset := congrArg ByteRange.start hloc
  have hstop : r.location.stop.offset = st₅.offset := congrArg ByteRange.stop hloc
  rw [hstart, hstop]
  let C : Relayout := ⟨0, [], st₄.offset, nofun⟩
  obtain ⟨g₀, st₆, hmatch, ⟨hnotop, hnoinit, r₀, hr₀, hsame⟩, hrest₆, -⟩ :=
    Relayout.reads_document_alone (C := C) rfl hrule hv hnext { rest := v } rfl
      fun _ => (Nat.zero_add _).symm
  obtain ⟨g', hg', rfl⟩ : ∃ g', parse (String.ofList v) = .ok g' ∧ g'.map Span.range = g₀ :=
    parseWith_of_document rfl (by rw [String.toList_ofList]; exact hmatch) hrest₆
  obtain ⟨r', hr', rfl⟩ := List.map_eq_singleton_iff.1 hr₀
  have hranges : r'.map (fun l => l.range.shift st₄.offset) = r.map Span.range := by
    have hold : C.old = id := funext fun x => if_pos rfl
    have hnew : C.new = ByteRange.shift st₄.offset := funext fun x => if_pos rfl
    rw [Relayout.SameRule, hold, hnew, Rule.map_id, Rule.map_map] at hsame
    exact hsame
  refine ⟨v, g', r', ?_, hg', Option.map_eq_none_iff.1 hnotop, Option.map_eq_none_iff.1 hnoinit,
    hr', Rule.strip_eq_of_map hranges, hranges⟩
  refine Text.slice?_append (hv.1 ▸ hbefore.1) ?_ hv.2.symm
  exact (hbefore.2.trans (Nat.zero_add _)).symm

theorem parse_rule_alone_last : ∃ g r, parse "{ x }\na = b\nc 'd'~ = (e f)* / // g\n" = .ok g ∧
    r ∈ g.rules ∧ r.name = "c" ∧ ∃ s g' r',
      Text.slice? "{ x }\na = b\nc 'd'~ = (e f)* / // g\n".toList r.location.start.offset
        r.location.stop.offset = some s ∧
      parse (String.ofList s) = .ok g' ∧ g'.topLevel = none ∧ g'.perParse = none ∧
      g'.rules = [r'] ∧ r'.strip = r.strip ∧
      r'.map (fun l => l.range.shift r.location.start.offset) = r.map Span.range := by
  have hnamed : (parse "{ x }\na = b\nc 'd'~ = (e f)* / // g\n").toOption.any (fun g =>
      g.rules.any (·.name == "c")) = true := by
    decide +kernel
  obtain ⟨g, h, hnamed⟩ := exists_of_any hnamed
  obtain ⟨r, hr, hname⟩ := List.any_eq_true.1 hnamed
  exact ⟨g, r, h, hr, beq_iff_eq.1 hname, parse_rule_alone h hr⟩

end PegGrammar
