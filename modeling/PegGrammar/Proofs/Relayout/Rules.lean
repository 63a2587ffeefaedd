import PegGrammar.Proofs.Relayout.Expressions
import PegGrammar.Proofs.Relayout.Headers
import PegGrammar.Proofs.Relayout.Statements

namespace PegGrammar

open Reader

variable {C : Relayout} {st st' st₀ st₁ st₂ : State} {s t u l e p x y H : Text} {n m k : Nat}
  {r : Rule ByteRange} {rs : List (Rule ByteRange)}

/-- A rule without the end of its statement. -/
structure Definition where
  name : Token String
  display : Option (String × Bool)
  body : Node

def Definition.rule (d : Definition) (range : ByteRange) : Rule ByteRange :=
  ⟨d.name.value, d.name.range,
    match d.display with
    | some (t, v) => .named t v d.body range
    | none => d.body, range⟩

namespace Reader

def definition : Reader Definition := do
  let (name, display) ← header
  let body ← afterTrivia expression
  return ⟨name, display, body⟩

theorem rule_eq : rule = located do
    let d ← definition
    statementEnd
    return d.rule := by
  simp only [rule, definition, bind_assoc, pure_bind]
  congr
  funext ⟨name, display⟩
  cases display <;> rfl

theorem rule_eq_defined (h : rule st = .matched r st') :
    ∃ d st₁, definition st = .matched d st₁ ∧ statementEnd st₁ = .matched () st' ∧
      r = d.rule ⟨st.offset, st'.offset⟩ := by
  rw [rule_eq] at h
  obtain ⟨f, hrun, rfl⟩ := located_eq_matched h
  obtain ⟨d, st₁, hd, hrun⟩ := bind_eq_matched.1 hrun
  obtain ⟨_, st₂, hend, hrun⟩ := bind_eq_matched.1 hrun
  obtain ⟨rfl, rfl⟩ := pure_eq_matched.1 hrun
  exact ⟨d, st₁, hd, hend, rfl⟩

theorem definition_eq_matched {d : Definition} (h : definition st = .matched d st') :
    ∃ t u st₁, NameFound t d.name.value (u ++ '=' :: st₁.rest) ∧
      HeaderFound u d.display ('=' :: st₁.rest) ∧ st.Passes (t ++ (u ++ ['='])) st₁ ∧
      d.name.range = ⟨st.offset, st.offset + t.byteSize⟩ ∧
      afterTrivia expression st₁ = .matched d.body st' := by
  obtain ⟨⟨name, display⟩, st₁, hheader, h⟩ := bind_eq_matched.1 h
  obtain ⟨body, st₂, hbody, h⟩ := bind_eq_matched.1 h
  obtain ⟨rfl, rfl⟩ := pure_eq_matched.1 h
  obtain ⟨t, u, st₀, hname, hpname, hrange, hfound, hpfound⟩ := header_eq_matched hheader
  rw [hpfound.1, List.append_assoc, List.singleton_append] at hname
  exact ⟨t, u, st₁, hname, hfound, hpname.trans hpfound, by rw [hrange, hpname.2], hbody⟩

theorem definition_passes {d : Definition} (h : definition st = .matched d st') :
    ∃ t, t ≠ [] ∧ st.Passes t st' ∧ StartWithin d.body.anchors st.offset st'.offset := by
  obtain ⟨a, u, st₁, -, -, hphead, -, hbody⟩ := definition_eq_matched h
  have hplaces := places_afterTrivia (fun _ _ _ => places_expression) hbody
  obtain ⟨v, hpv⟩ := hplaces.passes
  refine ⟨_, by simp, hphead.trans hpv, fun x hx => ?_⟩
  exact ⟨hphead.offset_le.trans (hplaces.startWithin x hx).1, (hplaces.startWithin x hx).2⟩

theorem remaining_lt_of_rule (h : thenTrivia rule st = .matched r st') :
    st'.remaining < st.remaining := by
  obtain ⟨st₁, l, hrule, -, hl⟩ := thenTrivia_eq_matched h
  obtain ⟨d, st₀, hd, hend, -⟩ := rule_eq_defined hrule
  obtain ⟨t, ht, hp, -⟩ := definition_passes hd
  obtain ⟨e, -, he⟩ := statementEnd_eq_matched hend
  have hlength := List.length_pos_iff.2 ht
  rw [(hp.trans (he.trans hl)).remaining_eq, List.length_append]
  omega

theorem rest_ne_nil_of_rule (h : thenTrivia rule st = .matched r st') : st.rest ≠ [] := by
  intro hnil
  have hlt := remaining_lt_of_rule h
  rw [st.remaining_eq, hnil] at hlt
  exact Nat.not_lt_zero _ hlt

end Reader

theorem Definition.mem_anchors {d : Definition} {range x : ByteRange}
    (h : x ∈ (d.rule range).anchors) : x = range ∨ x ∈ d.body.anchors := by
  obtain ⟨name, display, body⟩ := d
  cases display with
  | none => exact List.mem_cons.1 h
  | some d =>
      rcases List.mem_cons.1 h with h | h
      · exact .inl h
      · exact List.mem_cons.1 h

section Ends

variable (h : statementEnd st = .matched () st') (he : st.Passes e st')

include h he

theorem nameEnds_statement (hne : e ≠ []) (y : Text) : Name.Ends (e ++ y) := by
  rcases statementEnd_cases h he with ⟨l, rfl, hl⟩ | ht | ⟨-, ht⟩
  · rw [List.append_assoc]
    cases l with
    | nil => exact nameEnds_separator (by decide) y
    | cons c l => exact (hl.blank (List.cons_ne_nil _ _)).nameEnds _
  · obtain ⟨c, e, rfl⟩ := List.exists_cons_of_ne_nil hne
    exact (blank_lineText ht).nameEnds _
  · obtain ⟨c, e, rfl⟩ := List.exists_cons_of_ne_nil hne
    refine nameEnds_of_not_solid (fun hc => ?_) _
    have hskip := ht.skip
    rw [List.append_nil, skipTrivia_solid hc] at hskip
    cases hskip

theorem rest_of_statementEnd (hnil : e = []) : st'.rest = [] := by
  rcases statementEnd_cases h he with ⟨l, rfl, -⟩ | ⟨i, k, u, -, -, hu, rfl⟩ | ⟨hrest, -⟩
  · simp at hnil
  · cases hu <;> simp at hnil
  · exact hrest

/-- An expression ends in front of the end of its statement, also if something blank has been put in
there. -/
theorem expressionEnd_statement (hp : ∀ c ∈ p, isSpace c = true ∨ isLineTerminator c = true)
    (hnil : e = [] → ∀ c ∈ y, isSpace c = true ∨ isLineTerminator c = true)
    (hold : Next IsNameHead (skipTrivia st'.rest))
    (hnew : Next (· = ';') (skipTrivia (e ++ y)) ∨
      SameHeader (skipTrivia st.rest) (skipTrivia (e ++ y))) :
    ExpressionEnd st.rest (p ++ (e ++ y)) := by
  have hends : Name.Ends (e ++ y) := by
    by_cases hne : e = []
    · subst hne
      cases y with
      | nil => exact nofun
      | cons c y => exact (blank_of_forall (hnil rfl)).nameEnds []
    · exact nameEnds_statement h he hne y
  have hfront : SameFront st.rest (e ++ y) := by
    cases e with
    | nil =>
        intro c hc
        exact (hnil rfl c (List.mem_of_head? hc)).imp_right .inl
    | cons c e =>
        rw [he.1]
        exact sameFront_cons c _ _
  have hends' : Name.Ends (p ++ (e ++ y)) := by
    cases p with
    | nil => exact hends
    | cons c p => exact (blank_of_forall hp).nameEnds _
  have hfront' : SameFront st.rest (p ++ (e ++ y)) := by
    cases p with
    | nil => exact hfront
    | cons c p =>
        rintro _ ⟨⟩
        exact (hp c List.mem_cons_self).imp_right .inl
  rw [← blank_of_forall hp (e ++ y)] at hnew
  rcases hnew with hnew | hnew
  · refine expressionEnd_of_shut hfront' (fun _ => Name.nameChar_of_ends hends') ?_ hnew
    by_cases hs : Next (· ≠ ';') (skipTrivia st.rest)
    · rw [← skipTrivia_of_statementEnd h hs]
      exact hold.imp fun c hc => ⟨isFollow_of_opens (opens_of_isNameHead hc),
        hc.ne (by decide) (by decide)⟩
    · intro c hc
      have hc' : c = ';' := by
        by_contra hne
        exact hs fun d hd => by rwa [Option.mem_unique hd hc]
      subst hc'
      decide
  · exact expressionEnd_of_header hfront' (fun _ => Name.nameChar_of_ends hends') hnew

theorem takes_statementEnd_again (hp : ∀ c ∈ p, isSpace c = true ∨ isLineTerminator c = true)
    (hnew : Next (· ≠ ';') (skipTrivia y))
    (hlast : st'.rest = [] → Gap e [] → skipTrivia y = [] ∧ skipTrivia (e ++ y) = []) :
    ∃ r, Takes statementEnd (p ++ (e ++ y)) (fun _ => True) r ∧ skipTrivia r = skipTrivia y := by
  rcases statementEnd_cases h he with ⟨l, rfl, hl⟩ | ht | ⟨hrest, ht⟩
  · refine ⟨y, takes_statementEnd_symbol ?_, rfl⟩
    rw [blank_of_forall hp, List.append_assoc, hl.blank (List.cons_ne_nil _ _)]
    exact skipTrivia_solid (by decide) y
  · have hskip := blank_lineText ht y
    rw [← hskip] at hnew ⊢
    exact takes_statementEnd_blank hp (.inl ⟨_, ht⟩) hnew
  · obtain ⟨hy, hskip⟩ := hlast hrest ht
    rw [hy, ← hskip]
    refine takes_statementEnd_blank hp (.inr hskip) ?_
    rw [hskip]
    exact nofun

end Ends

namespace Relayout

structure SameDefinition (C : Relayout) (d d' : Definition) : Prop where
  name : d'.name.value = d.name.value
  range : C.new d'.name.range = C.old d.name.range
  display : d'.display = d.display
  body : C.Same d.body d'.body

def SameRule (C : Relayout) (r r' : Rule ByteRange) : Prop := r'.map C.new = r.map C.old

theorem SameDefinition.rule {d d' : Definition} {range range' : ByteRange}
    (h : C.SameDefinition d d') (hrange : C.new range' = C.old range) :
    C.SameRule (d.rule range) (d'.rule range') := by
  have hbody : d'.body.map C.new = d.body.map C.old := h.body
  simp only [SameRule, Rule.map, Definition.rule, h.name, h.range, h.display, hrange]
  cases d.display with
  | none => rw [hbody]
  | some => rw [Expr.map, Expr.map, hbody, hrange]

theorem keeps_definition {d : Definition} (h : definition st = .matched d st') (hp : st.Passes t st')
    (hE : ExpressionEnd st'.rest H) (hallow : C.Allows d.body.anchors st.offset st'.offset) :
    C.Reads definition st.offset (C.tight st.offset t ++ H) (C.SameDefinition d) st'.offset H ∧
      SameHeader st.rest (C.tight st.offset t ++ H) := by
  obtain ⟨a, u, st₁, ha, hu, hphead, hrange, hbody⟩ := definition_eq_matched h
  have hplaces := places_afterTrivia (fun _ _ _ => places_expression) hbody
  obtain ⟨v, hpv⟩ := hplaces.passes
  have hwithin := hplaces.startWithin
  obtain rfl := hp.unique (hphead.trans hpv)
  have hclear : C.Clear st.offset st₁.offset :=
    hallow.clear (Nat.le_refl _) hpv.offset_le fun x hx => .inr (hwithin x hx).1
  have hreads := Keeps.afterTrivia (E := ExpressionEnd)
    (fun _ st₂ _ => keeps_expression C st₂) hbody hpv hE
    (hallow.part hphead.offset_le (Nat.le_refl _) fun x hx => .inl hx)
  have htext : C.tight st.offset (a ++ (u ++ ['=']) ++ v) ++ H =
      a ++ (u ++ '=' :: (C.laid st₁.offset v ++ H)) := by
    rw [tight_passes hphead (by simp), tight_of_clear (hphead.2 ▸ hclear)]
    simp only [List.append_assoc, List.cons_append, List.nil_append]
  have hrest : st.rest = a ++ (u ++ '=' :: st₁.rest) := by simp [hphead.1]
  rw [htext, hrest]
  refine ⟨?_, .mk ha hu _⟩
  have hheader := reads_header (C := C) (ha.change hu (C.laid st₁.offset v ++ H)) (hu.change _) st.offset
  rw [← hphead.2] at hheader
  apply hheader.bind
  rintro ⟨name, display⟩ ⟨hname, hnames, rfl⟩
  exact hreads.bind fun body' hsame => reads_pure ⟨hname, hnames.trans (by rw [hrange]), rfl, hsame⟩

theorem reads_rule {d : Definition} (h : C.Reads definition n s (C.SameDefinition d) m t)
    (hend : C.Reads statementEnd m t (fun _ => True) k u) :
    C.Reads rule n s (C.SameRule (d.rule ⟨n, k⟩)) k u := by
  rw [rule_eq]
  exact .located (h.bind fun d' hsame => hend.bind fun _ _ =>
    reads_pure fun range hrange => hsame.rule hrange)

end Relayout

end PegGrammar
