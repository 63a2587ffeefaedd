import PegGrammar.Proofs.Endings
import PegGrammar.Proofs.Outcome
import PegGrammar.Proofs.Relayout.Documents

namespace PegGrammar

open Reader

variable {st st' st₁ : State} {s t e : Text} {r : Rule ByteRange} {rs : List (Rule ByteRange)}

namespace Reader

theorem passesApart_definition {d : Definition} (h : definition st = .matched d st') :
    PassesApart st st' := by
  obtain ⟨a, u, st₁, -, -, hphead, -, hbody⟩ := definition_eq_matched h
  have hequals : PassesApart st st₁ :=
    ⟨_, hphead, .append (.append (.single (by decide)) u) a⟩
  rcases passesApart_afterTrivia passesApart_expression hbody with hp | ⟨v, hv, hends⟩
  · exact hequals.passes hp (.inl rfl)
  · exact hequals.passes hv (.inr hends)

theorem document_eq_rules {g : Grammar ByteRange} (h : document st = .matched g st')
    (htop : g.topLevel = none) (hinit : g.perParse = none) :
    ∃ a st₁, Gap a st₁.rest ∧ st.Passes a st₁ ∧ Runs (thenTrivia rule) st₁ g.rules st' := by
  obtain ⟨a, st₁, st₂, st₃, ha, hp, hoptTop, hoptInit, hrules, -, -⟩ := document_eq_matched h
  rw [htop] at hoptTop
  rw [hinit] at hoptInit
  obtain ⟨_, ⟨⟩, -⟩ | ⟨-, hpt⟩ := optional_eq_matched hoptTop
  obtain ⟨_, ⟨⟩, -⟩ | ⟨-, hpi⟩ := optional_eq_matched hoptInit
  refine ⟨a, st₃, by rwa [hpi.eq_rest, hpt.eq_rest], ?_, hrules⟩
  simpa using hp.trans (hpt.trans hpi)

/-- The only rule of a document that ends with a semicolon on a line of its own ends with it. -/
theorem statementEnd_of_semicolon {st₀ : State} {p u : Text} (hend : statementEnd st₀ = .matched () st₁)
    (he : st₀.Passes e st₁) {d : Definition} (hd : definition st = .matched d st₀)
    (hp : st.Passes t st₀) {l : Text} {r : Text} (hl : TriviaText r l) (hrest : st₁.rest = l)
    (hsource : p ++ st.rest = u ++ ['\n', ';']) :
    l = [] ∧ ∃ k, e = k ++ [';'] ∧ Gap k [';'] := by
  have htext : p ++ (t ++ (e ++ l)) = u ++ ['\n', ';'] := by rw [← hsource, hp.1, he.1, hrest]
  obtain rfl : l = [] := eq_nil_of_semicolon (p := p ++ (t ++ e)) hl (by simpa using htext)
  refine ⟨rfl, ?_⟩
  rw [List.append_nil] at htext
  rcases statementEnd_cases hend he with ⟨k, rfl, hk⟩ | ⟨i, k, f, -, -, hf, rfl⟩ | ⟨-, hgap⟩
  · exact ⟨k, rfl, hrest ▸ hk⟩
  · -- the end of a line is no semicolon
    have hlast : ∃ v c, f = v ++ [c] ∧ isLineTerminator c = true := by
      cases hf with
      | crlf => exact ⟨['\r'], '\n', rfl, by decide⟩
      | single hc => exact ⟨[], _, rfl, hc⟩
    obtain ⟨v, c, rfl, hc⟩ := hlast
    have htext : p ++ (t ++ (i ++ (k ++ v))) ++ [c] = u ++ ['\n'] ++ [';'] := by simpa using htext
    obtain ⟨-, rfl⟩ := List.append_singleton_inj.1 htext
    cases hc
  · -- neither is the end of a definition
    obtain rfl : e = [] := eq_nil_of_semicolon (p := p ++ t) hgap.trivia (by simpa using htext)
    obtain ⟨v, hv, w, c, rfl, hc⟩ := passesApart_definition hd
    obtain rfl := hp.unique hv
    have htext : p ++ w ++ [c] = u ++ ['\n'] ++ [';'] := by simpa using htext
    obtain ⟨-, rfl⟩ := List.append_singleton_inj.1 htext
    exact (hc rfl).elim

end Reader

namespace Relayout

variable {C : Relayout}

theorem Reads.takes {α : Type} {q : Reader α} {V : α → Prop} {n m : Nat} (hblank : C.blank ≠ [])
    (h : C.Reads q n s V m t) : Takes q s V t := by
  intro st hst
  obtain ⟨a, st', hmatch, ha, hrest, -⟩ := h st hst fun hnil => (hblank hnil).elim
  exact ⟨a, st', hmatch, ha, hrest⟩

theorem takes_rules_of_document (hblank : C.blank ≠ []) {g : Grammar ByteRange}
    (h : document st = .matched g st') (hrest : st'.rest = []) (hplace : st'.offset < C.place)
    (htop : g.topLevel = none) (hinit : g.perParse = none) :
    Takes (many (thenTrivia rule)) (skipTrivia st.rest)
        (fun rs => rs.map (Rule.map C.new) = g.rules.map (Rule.map C.old)) [] ∧
      Next IsNameHead (skipTrivia st.rest) := by
  obtain ⟨l, st₁, hl, hp, hrules⟩ := document_eq_rules h htop hinit
  obtain ⟨⟨v, hv⟩, -⟩ := places_rules hrules
  have hskip : skipTrivia st.rest = st₁.rest := by rw [hp.1, hl.skip]
  have hbeyond : C.beyond st'.offset st₁ = st₁.rest := by
    have hsize : st₁.offset + Text.byteSize st₁.rest ≤ C.place := by
      rw [hv.1, hrest, List.append_nil, ← hv.2]
      exact hplace.le
    rw [beyond, pad_of_ne hplace.ne, List.append_nil, laid_of_outside (.inr (.inr hsize)),
      hl.skip_rest]
  obtain ⟨hmany, hheader⟩ := reads_rules hblank hrules hrest (.inl (.inr (.inr hplace)))
  rw [hbeyond] at hmany hheader
  rw [hskip]
  refine ⟨hmany.takes hblank, ?_⟩
  rcases hheader with hnil | hheader
  · rw [hnil]
    rintro c ⟨⟩
  · exact hheader.next.1

/-- The only rule of a document that ends with a semicolon on a line of its own is read as it was,
whatever follows. -/
theorem takes_rule_of_document (hblank : C.blank ≠ []) {g : Grammar ByteRange}
    (h : document st = .matched g st') (hrest : st'.rest = []) (hplace : st'.offset ≤ C.place)
    (htop : g.topLevel = none) (hinit : g.perParse = none) (hone : g.rules = [r]) {u : Text}
    (hsource : st.rest = u ++ ['\n', ';']) (s : Text) :
    Takes rule (skipTrivia (st.rest ++ s)) (C.SameRule r) s ∧
      Next IsNameHead (skipTrivia (st.rest ++ s)) := by
  obtain ⟨a, st₁, ha, hpa, hrules⟩ := document_eq_rules h htop hinit
  rw [hone] at hrules
  obtain ⟨_⟩ | ⟨hrule, ⟨hp⟩⟩ := hrules
  obtain ⟨st₂, l, hrule, hl, hpl⟩ := thenTrivia_eq_matched hrule
  obtain ⟨d, st₃, hd, hend, rfl⟩ := rule_eq_defined hrule
  obtain ⟨e, -, he⟩ := statementEnd_eq_matched hend
  obtain ⟨t, ht, hpd, -⟩ := definition_passes hd
  have hnil : st₂.rest = l := by rw [hpl.1, ← hp.eq_rest, hrest, List.append_nil]
  obtain ⟨rfl, k, rfl, hk⟩ := statementEnd_of_semicolon hend he hd hpd hl.trivia hnil
    (hpa.1.symm.trans hsource)
  have hblankEnd : skipTrivia (k ++ [';'] ++ s) = ';' :: s := by
    rw [List.append_assoc, hk.blank (List.cons_ne_nil _ _)]
    exact skipTrivia_solid (by decide) s
  have hE : ExpressionEnd st₃.rest (k ++ [';'] ++ s) := by
    refine expressionEnd_statement hend he (p := []) nofun (fun hnil => by simp at hnil) ?_
      (.inl (by rw [hblankEnd]; exact next_cons rfl))
    rw [hnil, skipTrivia_nil]
    exact nofun
  have hclear : C.Clear st₁.offset st₃.offset :=
    .inr (.inr ((he.trans (hpl.trans hp)).offset_le.trans hplace))
  obtain ⟨hdefinition, hheader⟩ := keeps_definition hd hpd hE (.inl hclear)
  have hdocument : st.rest ++ s = a ++ (t ++ (k ++ [';'] ++ s)) := by
    rw [hpa.1, hpd.1, he.1, hnil]
    simp
  rw [tight_of_clear (hpd.2 ▸ hclear)] at hdefinition hheader
  have hfilled : st₁.rest ≠ [] := hpd.1 ▸ List.append_ne_nil_of_left_ne_nil ht _
  rw [hdocument, ha.blank hfilled, skipTrivia_of_next hheader.next.2]
  refine ⟨(reads_rule hdefinition ?_).takes hblank, hheader.next.2⟩
  exact reads_of_takes (m := st₂.offset) hblank (takes_statementEnd_symbol hblankEnd)

theorem takes_document_append (hblank : C.blank ≠ []) {g g' : Grammar ByteRange} {st₀ st₀' : State}
    (h : document st = .matched g st') (hrest : st'.rest = []) (hplace : st'.offset ≤ C.place)
    (htop : g.topLevel = none) (hinit : g.perParse = none) (hone : g.rules = [r]) {u : Text}
    (hsource : st.rest = u ++ ['\n', ';'])
    (h' : document st₀ = .matched g' st₀') (hrest' : st₀'.rest = []) (hplace' : st₀'.offset < C.place)
    (htop' : g'.topLevel = none) (hinit' : g'.perParse = none) :
    Takes document (st.rest ++ st₀.rest) (fun x => x.topLevel = none ∧ x.perParse = none ∧
      x.rules.map (Rule.map C.new) = (r :: g'.rules).map (Rule.map C.old)) [] := by
  obtain ⟨hrule, hhead⟩ :=
    takes_rule_of_document hblank h hrest hplace htop hinit hone hsource st₀.rest
  obtain ⟨hrules, -⟩ := takes_rules_of_document hblank h' hrest' hplace' htop' hinit'
  have hbrace : Next (· ≠ '{') (skipTrivia (st.rest ++ st₀.rest)) :=
    hhead.imp fun c hc => hc.ne (by decide) (by decide)
  have hthen : Takes (thenTrivia rule) (skipTrivia (st.rest ++ st₀.rest)) (C.SameRule r)
      (skipTrivia st₀.rest) :=
    hrule.bind fun _ hsame => takes_trivia.bind fun _ _ => takes_pure hsame
  obtain ⟨x, st₁, hmatch, -, hrest₁⟩ :=
    hthen { rest := skipTrivia (st.rest ++ st₀.rest) } rfl
  have hlt := remaining_lt_of_rule hmatch
  rw [st₁.remaining_eq, hrest₁] at hlt
  refine .located (takes_trivia.bind fun _ _ => ?_)
  refine (Refuses.optional (refuses_topLevel hbrace).bind).bind ?_
  rintro _ rfl
  refine (Refuses.optional (refuses_initializer hbrace).bind).bind ?_
  rintro _ rfl
  refine (hthen.many hlt hrules).bind ?_
  rintro _ ⟨r', rs', rfl, hsame, hrs⟩
  exact takes_pure fun _ => ⟨rfl, rfl, congrArg₂ List.cons hsame hrs⟩

end Relayout

theorem Rule.map_strip_eq_of_map {τ : Type} {f h : Span → τ} {rs rs' : List (Rule Span)}
    (heq : rs'.map (Rule.map f) = rs.map (Rule.map h)) : rs'.map Rule.strip = rs.map Rule.strip := by
  have hstrip := congrArg (List.map (Rule.map fun _ : τ => ({} : Span))) heq
  simp only [List.map_map, Function.comp_def, Rule.map_map] at hstrip
  exact hstrip

/-- A rule whose text ends with a semicolon on a line of its own may be put in front of the rules of
another document. -/
theorem parse_append {r s : String} {g h : Grammar Span} {q : Rule Span}
    (hg : parse (r ++ "\n;") = .ok g) (hgt : g.topLevel = none) (hgp : g.perParse = none)
    (hq : g.rules = [q]) (hh : parse s = .ok h) (hht : h.topLevel = none) (hhp : h.perParse = none) :
    ∃ g', parse (r ++ "\n;" ++ s) = .ok g' ∧ g'.topLevel = none ∧ g'.perParse = none ∧
      g'.rules.map Rule.strip = q.strip :: h.rules.map Rule.strip := by
  obtain ⟨st, hread, hrest⟩ := document_of_parseWith hg
  obtain ⟨st', hread', hrest'⟩ := document_of_parseWith hh
  let C : Relayout :=
    ⟨st.offset + st'.offset + 1, [' '], 0, List.forall_mem_singleton.2 (.inl rfl)⟩
  have htakes := Relayout.takes_document_append (C := C) (List.cons_ne_nil _ _) hread hrest
    (by simp only [C]; omega) (by rw [Grammar.map, hgt]; rfl) (by rw [Grammar.map, hgp]; rfl)
    (by rw [Grammar.map, hq]; rfl) (String.toList_append ..) hread' hrest' (by simp only [C]; omega)
    (by rw [Grammar.map, hht]; rfl) (by rw [Grammar.map, hhp]; rfl)
  obtain ⟨g₀, st₀, hmatch, ⟨htop, hinit, hrules⟩, hrest₀⟩ :=
    htakes { rest := (r ++ "\n;").toList ++ s.toList } rfl
  rw [← String.toList_append] at hmatch
  obtain ⟨g', hparse, rfl⟩ : ∃ g', parse (r ++ "\n;" ++ s) = .ok g' ∧ g'.map Span.range = g₀ :=
    parseWith_of_document rfl hmatch hrest₀
  refine ⟨g', hparse, Option.map_eq_none_iff.1 htop, Option.map_eq_none_iff.1 hinit, ?_⟩
  rw [← List.map_cons]
  refine Rule.map_strip_eq_of_map (f := C.new ∘ Span.range) (h := C.old ∘ Span.range) ?_
  simpa only [Grammar.map, List.map_map, List.map_cons, Function.comp_def, Rule.map_map] using hrules

theorem parse_append_comment : ∃ g h, ∃ q : Rule Span, parse ("a = l:b / 'c' // d" ++ "\n;") = .ok g ∧
    parse "e = (f)?\ng = h" = .ok h ∧
    ∃ g', parse ("a = l:b / 'c' // d" ++ "\n;" ++ "e = (f)?\ng = h") = .ok g' ∧
      g'.topLevel = none ∧ g'.perParse = none ∧
      g'.rules.map Rule.strip = q.strip :: h.rules.map Rule.strip := by
  have hfirst : (parse ("a = l:b / 'c' // d" ++ "\n;")).toOption.any (fun g =>
      g.topLevel.isNone && g.perParse.isNone && g.rules.length == 1) = true := by
    decide +kernel
  have hsecond : (parse "e = (f)?\ng = h").toOption.any (fun g =>
      g.topLevel.isNone && g.perParse.isNone) = true := by
    decide +kernel
  obtain ⟨g, hg, hfirst⟩ := exists_of_any hfirst
  obtain ⟨h, hh, hsecond⟩ := exists_of_any hsecond
  simp only [Bool.and_eq_true, Option.isNone_iff_eq_none, beq_iff_eq] at hfirst hsecond
  obtain ⟨q, hq⟩ := List.length_eq_one_iff.1 hfirst.2
  exact ⟨g, h, q, hg, hh, parse_append hg hfirst.1.1 hfirst.1.2 hq hh hsecond.1 hsecond.2⟩

end PegGrammar
