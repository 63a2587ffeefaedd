import PegGrammar.Proofs.ShapeReading
import PegGrammar.Proofs.Spans

namespace PegGrammar

open PegGrammar.Expr (Every EveryList)

variable {source : Text}

namespace State

variable {st st₁ st₂ st' : State} {t u v : Text} {r s : ByteRange}

theorem Covers.start_le_stop (h : st.Covers r st') : r.start ≤ r.stop := by
  obtain ⟨a, b, c, -, rfl⟩ := h
  exact Nat.le_add_right _ _

theorem At.proper (hst : st.At source) (h : st.Covers r st') : r.Proper source := by
  have hinside := hst.inside h
  obtain ⟨rest, hstands⟩ := hinside.2
  exact ⟨hinside, h.start_le_stop, hstands.le_byteSize⟩

/-- The ranges lie one after another between two states. -/
structure Lines (st : State) (rs : List ByteRange) (st' : State) : Prop where
  passes : ∃ t, st.Passes t st'
  covers : ∀ r ∈ rs, st.Covers r st'
  ordered : rs.Pairwise ByteRange.Before

namespace Lines

variable {rs rs' : List ByteRange}

protected theorem nil (h : st.Passes t st') : st.Lines [] st' := ⟨⟨t, h⟩, nofun, .nil⟩

protected theorem one (h : st.Passes t st') (hr : st.Covers r st') : st.Lines [r] st' :=
  ⟨⟨t, h⟩, List.forall_mem_singleton.2 hr, List.pairwise_singleton _ _⟩

protected theorem append (h : st.Lines rs st₁) (h' : st₁.Lines rs' st') :
    st.Lines (rs ++ rs') st' := by
  obtain ⟨t, ht⟩ := h.passes
  obtain ⟨u, hu⟩ := h'.passes
  refine ⟨⟨_, ht.trans hu⟩, ?_, List.pairwise_append.2 ⟨h.ordered, h'.ordered, ?_⟩⟩
  · refine List.forall_mem_append.2 ⟨fun r hr => (h.covers r hr).passes hu, fun r hr => ?_⟩
    exact (h'.covers r hr).of_passes ht
  · exact fun r hr s hs => (h.covers r hr).stop_le.trans (h'.covers s hs).start_le.1

theorem row (h : st.Lines rs st') : ByteRange.Row ⟨st.offset, st'.offset⟩ rs :=
  ⟨fun r hr => ⟨(h.covers r hr).start_le.1, (h.covers r hr).stop_le⟩, h.ordered⟩

end Lines

theorem PassesBlock.lines {code : String} (h : st.PassesBlock code r st') : st.Lines [r] st' :=
  .one h.passes h.covers

theorem PassesLabel.lines {label : String} (h : st.PassesLabel label r st') : st.Lines [r] st' := by
  obtain ⟨t, ht, hcovers⟩ := h.covers
  exact .one ht hcovers

theorem At.slice (hst : st.At source) (hp : st.Passes (t ++ (u ++ v)) st') :
    source.slice? (st.offset + t.byteSize) (st.offset + t.byteSize + u.byteSize) = some u := by
  obtain ⟨before, hsource, hoffset⟩ := hst
  refine Text.slice?_append (s := before ++ t) (u := v ++ st'.rest) ?_ ?_ rfl
  · rw [hsource, hp.1]
    simp only [List.append_assoc]
  · rw [Text.byteSize_append, hoffset]

theorem At.slice_whole (hst : st.At source) (hp : st.Passes t st') :
    source.slice? st.offset st'.offset = some t := by
  have hslice := hst.slice (t := []) (u := t) (v := []) (by simpa using hp)
  rwa [Text.byteSize_nil, Nat.add_zero, ← hp.2] at hslice

theorem At.slice_block {code : String} (hst : st.At source) (h : st.PassesBlock code r st') :
    source.slice? r.start r.stop = some code.toList := by
  rw [h.range_eq]
  exact hst.slice (t := ['{']) h.passes

section

variable {α : Type} {recognize : Text → Option (Lexeme α)} {value : α}

theorem At.decodes (hst : st.At source) (hrest : st.rest = t ++ u)
    (hfound : recognize (t ++ u) = some ⟨value, t.length⟩) :
    source.Decodes recognize value ⟨st.offset, st.offset + t.byteSize⟩ := by
  refine ⟨t.length, st.rest, ?_, ?_⟩
  · rw [Text.recognizeAt, hst.dropBytes?, Option.bind_some, hrest, hfound]
    rfl
  · rw [Text.rangeAt, hrest, List.take_left]

theorem At.decodesFlagged {ignoreCase : Bool} (hst : st.At source)
    (hp : st.Passes (t ++ if ignoreCase then ['i'] else []) st')
    (hfound : recognize (t ++ ((if ignoreCase then ['i'] else []) ++ st'.rest)) =
      some ⟨value, t.length⟩)
    (hflag : ignoreCase = false → st'.rest.head? ≠ some 'i') :
    source.DecodesFlagged recognize value ignoreCase ⟨st.offset, st'.offset⟩ := by
  refine ⟨_, hst.decodes (by rw [hp.1, List.append_assoc]) hfound, ?_, fun h => ?_⟩
  · have hslice := hst.slice (t := t) (v := []) (by simpa using hp)
    rwa [Nat.add_assoc, ← Text.byteSize_append, ← hp.2] at hslice
  · rw [(hst.passes hp).dropBytes?]
    exact hflag h

end

theorem At.decodes_label {label : String} (hst : st.At source) (h : st.PassesLabel label r st') :
    source.Decodes Name.name label r := by
  obtain ⟨t, l, hfound, -, hp, rfl⟩ := h.passes
  exact hst.decodes (by simpa using hp.1) hfound.found

end State

namespace Reader

variable {inner : Reader Node} {st st₁ st₂ st' : State} {e : Node} {t u : Text}

theorem Places.lines (h : Places st e st') : st.Lines [e.location] st' := by
  obtain ⟨t, ht⟩ := h.passes
  exact .one ht (h.located fun _ hr => hr).location

/-- In its document, the tree lies between the states as it should. -/
structure Arranges (source : Text) (st : State) (e : Node) (st' : State) : Prop where
  places : Places st e st'
  every : st.At source → e.Every (Expr.Arranged source)

theorem Arranges.of_passes (hp : st.Passes t st₁) (h : Arranges source st₁ e st') :
    Arranges source st e st' :=
  ⟨.of_passes hp h.places, fun hst => h.every (hst.passes hp)⟩

theorem places_of_arranges {p : Reader Node}
    (hp : ∀ st e st', p st = .matched e st' → Arranges source st e st') (st : State) (e : Node)
    (st' : State) (h : p st = .matched e st') : Places st e st' :=
  (hp st e st' h).places

theorem arranges_afterTrivia {p : Reader Node}
    (hp : ∀ st e st', p st = .matched e st' → Arranges source st e st')
    (h : afterTrivia p st = .matched e st') : Arranges source st e st' := by
  refine ⟨places_afterTrivia (places_of_arranges hp) h, fun hst => ?_⟩
  rcases afterTrivia_eq_matched h with ⟨l, st₁, -, hl, h, -⟩ | ⟨rfl, -⟩
  · exact (hp _ _ _ h).every (hst.passes hl)
  · exact ⟨⟨ByteRange.row_nil, trivial⟩, trivial⟩

theorem arranges_runs {p : Reader Node}
    (hp : ∀ st e st', p st = .matched e st' → Arranges source st e st') {es : List Node}
    (h : Runs p st es st') : st.Lines (es.map Expr.location) st' ∧
      (st.At source → EveryList (Expr.Arranged source) es) := by
  induction h with
  | nil h => exact ⟨.nil h, fun _ => trivial⟩
  | cons h _ ih =>
      have he := hp _ _ _ h
      obtain ⟨t, ht⟩ := he.places.passes
      exact ⟨he.places.lines.append ih.1, fun hst => ⟨he.every hst, ih.2 (hst.passes ht)⟩⟩

theorem arranged_labeled {body : Node} {label : String} {range : ByteRange} {pick : Bool}
    {st₀ : State} (hst : st.At source) (hp₀ : st.Passes t st₀)
    (hlabel : st₀.PassesLabel label range st₁) (hp : st₁.Passes u st₂)
    (hbody : Arranges source st₂ body st') :
    (Expr.labeled (some label) range pick body ⟨st.offset, st'.offset⟩).Every
      (Expr.Arranged source) := by
  have hst₀ := hst.passes hp₀
  obtain ⟨w, hw, -⟩ := hlabel.covers
  have hlines := State.Lines.append (.nil hp₀) (hlabel.lines.append (.append (.nil hp) hbody.places.lines))
  exact ⟨⟨hlines.row, hst₀.decodes_label hlabel⟩, hbody.every ((hst₀.passes hw).passes hp)⟩

section

variable (hinner : ∀ st e st', inner st = .matched e st' → Arranges source st e st')

include hinner

theorem arranges_group (h : group inner st = .matched e st') : Arranges source st e st' := by
  refine ⟨places_group (places_of_arranges hinner) h, fun hst => ?_⟩
  obtain ⟨body, st₁, st₂, r, hopen, hbody, -, hclose, rfl⟩ := group_eq_matched h
  have hbody := arranges_afterTrivia hinner hbody
  have hlines := State.Lines.append (.nil hopen) (hbody.places.lines.append (.nil hclose))
  have hevery := hbody.every (hst.passes hopen)
  split
  · exact ⟨⟨hlines.row, trivial⟩, hevery⟩
  · exact hevery

theorem arranges_primary (h : primary inner st = .matched e st') : Arranges source st e st' := by
  refine ⟨places_primary (places_of_arranges hinner) h, fun hst => ?_⟩
  obtain ⟨st₀, hp, h⟩ := primary_eq_matched h
  have hst := hst.passes hp
  rcases h with h | h | h | h | h | h
  · obtain ⟨t, v, i, hfound, hflag, hp, rfl⟩ := literal_eq_matched h
    exact ⟨ByteRange.row_nil, hst.decodesFlagged hp hfound.found hflag⟩
  · obtain ⟨t, body, i, hfound, hflag, hp, rfl⟩ := charClass_eq_matched h
    refine ⟨ByteRange.row_nil, hst.decodesFlagged hp ?_ hflag⟩
    rw [ClassBody.ordered?, hfound.found]
  · obtain ⟨hp, rfl⟩ := any_eq_matched h
    exact ⟨ByteRange.row_nil, hst.slice_whole hp⟩
  · obtain ⟨t, n, hfound, hp, -, rfl⟩ := ruleRef_eq_matched h
    refine ⟨ByteRange.row_nil, ?_⟩
    rw [hp.2]
    exact hst.decodes hp.1 hfound.found
  · obtain ⟨p, l, st₁, code, range, -, hp, hcode, rfl⟩ := predicate_eq_matched h
    have hlines := State.Lines.append (.nil hp) hcode.lines
    exact ⟨hlines.row, (hst.passes hp).slice_block hcode⟩
  · exact (arranges_group hinner h).every hst

theorem arranges_suffixed (h : suffixed inner st = .matched e st') : Arranges source st e st' := by
  refine ⟨places_suffixed (places_of_arranges hinner) h, fun hst => ?_⟩
  obtain ⟨body, st₁, hbody, h⟩ := suffixed_eq_matched h
  have hbody := arranges_primary hinner hbody
  rcases h with ⟨rfl, -⟩ | ⟨op, l, -, hp, rfl⟩
  · exact hbody.every hst
  · have hlines := hbody.places.lines.append (.nil hp)
    exact ⟨⟨hlines.row, trivial⟩, hbody.every hst⟩

theorem arranges_prefixed (h : prefixed inner st = .matched e st') : Arranges source st e st' := by
  refine ⟨places_prefixed (places_of_arranges hinner) h, fun hst => ?_⟩
  rcases prefixed_eq_matched h with ⟨op, l, st₁, body, -, hp, hbody, rfl⟩ | ⟨st₀, hp, h, -⟩
  · have hbody := arranges_suffixed hinner hbody
    have hlines := State.Lines.append (.nil hp) hbody.places.lines
    exact ⟨⟨hlines.row, trivial⟩, hbody.every (hst.passes hp)⟩
  · exact (arranges_suffixed hinner h).every (hst.passes hp)

theorem arranges_pick (h : pick inner st = .matched e st') : Arranges source st e st' := by
  refine ⟨places_pick (places_of_arranges hinner) h, fun hst => ?_⟩
  obtain ⟨l, st₁, body, hbody, h⟩ := pick_eq_matched h
  have hbody := arranges_prefixed hinner hbody
  rcases h with ⟨-, hp, rfl⟩ | ⟨st₂, st₃, r, label, range, -, hp, hlabel, -, hp', rfl⟩
  · have hmark : st.Lines [⟨st.offset, st.offset + 1⟩] st₁ :=
      .one hp (State.covers_front (t := ['@']) hp)
    exact ⟨⟨(hmark.append hbody.places.lines).row, hst.slice (t := []) (u := ['@']) hp⟩,
      hbody.every (hst.passes hp)⟩
  · exact arranged_labeled hst hp hlabel hp' hbody

theorem arranges_labeled (h : labeled inner st = .matched e st') : Arranges source st e st' := by
  refine ⟨places_labeled (places_of_arranges hinner) h, fun hst => ?_⟩
  obtain ⟨st₀, hp₀, h⟩ := labeled_eq_matched h
  rcases h with h | ⟨st₁, st₂, r, label, range, body, hlabel, -, hp, hbody, rfl⟩ | h
  · exact (arranges_pick hinner h).every (hst.passes hp₀)
  · exact arranged_labeled hst hp₀ hlabel hp (arranges_prefixed hinner hbody)
  · exact (arranges_prefixed hinner h).every (hst.passes hp₀)

theorem arranges_element
    (h : (trivia >>= fun _ => labeled inner : Reader Node) st = .matched e st') :
    Arranges source st e st' := by
  obtain ⟨_, st₁, ht, h⟩ := bind_eq_matched.1 h
  obtain ⟨t, -, hp⟩ := trivia_eq_matched ht
  exact .of_passes hp (arranges_labeled hinner h)

theorem arranges_elements {es : List Node} (h : elements inner st = .matched es st') :
    st.Lines (es.map Expr.location) st' ∧
      (st.At source → EveryList (Expr.Arranged source) es) := by
  rcases elements_eq_matched h with ⟨rfl, hp⟩ | ⟨first, others, st₁, rfl, hfirst, hothers⟩
  · exact ⟨.nil hp, fun _ => trivial⟩
  · have hfirst := arranges_labeled hinner hfirst
    obtain ⟨t, ht⟩ := hfirst.places.passes
    obtain ⟨hlines, hevery⟩ := arranges_runs (fun _ _ _ => arranges_element hinner) hothers
    exact ⟨hfirst.places.lines.append hlines,
      fun hst => ⟨hfirst.every hst, hevery (hst.passes ht)⟩⟩

theorem arranges_sequence (h : sequence inner st = .matched e st') : Arranges source st e st' := by
  refine ⟨places_sequence (places_of_arranges hinner) h, fun hst => ?_⟩
  obtain ⟨es, hes, h⟩ := sequence_eq_matched h
  obtain ⟨hlines, hevery⟩ := arranges_elements hinner hes
  rcases h with ⟨rfl, -⟩ | ⟨-, rfl⟩
  · exact (hevery hst).1
  · exact ⟨⟨hlines.row, trivial⟩, hevery hst⟩

theorem arranges_action (h : action inner st = .matched e st') : Arranges source st e st' := by
  refine ⟨places_action (places_of_arranges hinner) h, fun hst => ?_⟩
  obtain ⟨body, st₁, hbody, h⟩ := action_eq_matched h
  have hbody := arranges_sequence hinner hbody
  rcases h with ⟨rfl, -⟩ | ⟨l, st₂, code, range, -, hp, hcode, rfl⟩
  · exact hbody.every hst
  · obtain ⟨t, ht⟩ := hbody.places.passes
    have hlines := hbody.places.lines.append (.append (.nil hp) hcode.lines)
    exact ⟨⟨hlines.row, (hst.passes (ht.trans hp)).slice_block hcode⟩, hbody.every hst⟩

theorem arranges_alternative (h : alternative inner st = .matched e st') :
    Arranges source st e st' := by
  obtain ⟨l, st₁, -, hp, h⟩ := alternative_eq_matched h
  exact .of_passes hp (arranges_afterTrivia (fun _ _ _ => arranges_action hinner) h)

theorem arranges_choice (h : choice inner st = .matched e st') : Arranges source st e st' := by
  refine ⟨places_choice (places_of_arranges hinner) h, fun hst => ?_⟩
  obtain ⟨first, others, st₁, hfirst, hothers, h⟩ := choice_eq_matched h
  have hfirst := arranges_action hinner hfirst
  rcases h with ⟨-, rfl⟩ | ⟨-, rfl⟩
  · exact hfirst.every hst
  · obtain ⟨t, ht⟩ := hfirst.places.passes
    obtain ⟨hlines, hevery⟩ := arranges_runs (fun _ _ _ => arranges_alternative hinner) hothers
    exact ⟨⟨(hfirst.places.lines.append hlines).row, trivial⟩, hfirst.every hst,
      hevery (hst.passes ht)⟩

end

theorem arranges_expression (h : expression st = .matched e st') : Arranges source st e st' :=
  expression_induction (fun _ hinner _ _ _ => arranges_choice hinner) st e st' h

section Documents

variable {r : Rule ByteRange} {rs : List (Rule ByteRange)} {i : Initializer ByteRange}

theorem arranged_rule (h : rule st = .matched r st') (hst : st.At source) : r.Arranged source := by
  obtain ⟨name, display, body, st₁, st₂, hheader, hbody, hend, rfl⟩ := rule_eq_matched h
  obtain ⟨n, u, st₀, hname, hpname, hrange, -, hphead⟩ := header_eq_matched hheader
  obtain ⟨t, -, ht⟩ := statementEnd_eq_matched hend
  have hshaped := (shaped_afterTrivia (N := fun _ => True)
    (fun _ _ _ => shaped_expression fun _ => trivial) hbody).1
  have hbody : Arranges source st₁ body st₂ :=
    arranges_afterTrivia (fun _ _ _ => arranges_expression) hbody
  have hrow : ByteRange.Row ⟨st.offset, st'.offset⟩ [name.range, body.location] := by
    rw [hrange]
    have hlines := State.Lines.append (.one hpname (State.covers_whole hpname))
      (.append (.nil hphead) (hbody.places.lines.append (.nil ht)))
    exact hlines.row
  have hdecodes : source.Decodes Name.name name.value name.range := by
    rw [hrange, hpname.2]
    exact hst.decodes hpname.1 hname.found
  have hevery := hbody.every (hst.passes (hpname.trans hphead))
  cases display with
  | none =>
      refine ⟨?_, hdecodes, fun n v e l he => ?_, hevery⟩
      · rwa [Rule.body_of_shaped hshaped]
      · have he : body = .named n v e l := he
        rw [he] at hshaped
        exact hshaped.elim
  | some d =>
      have hwhole : ByteRange.Row ⟨st.offset, st'.offset⟩ [body.location] :=
        ⟨fun r hr => hrow.within r (List.mem_cons_of_mem _ hr), List.pairwise_singleton _ _⟩
      refine ⟨hrow, hdecodes, fun n v e l he => ?_, ⟨hwhole, trivial⟩, hevery⟩
      cases he
      rfl

theorem arranged_rules (source : Text) (h : Runs (thenTrivia rule) st rs st') :
    st.Lines (rs.map Rule.location) st' ∧ (st.At source → ∀ r ∈ rs, r.Arranged source) := by
  induction h with
  | nil h => exact ⟨.nil h, nofun⟩
  | cons h _ ih =>
      obtain ⟨st₁, l, hrule, -, hl⟩ := thenTrivia_eq_matched h
      obtain ⟨⟨t, ht⟩, hlocated⟩ := places_rule hrule
      have hlines := State.Lines.append (.one ht (hlocated fun _ hr => hr).2.2) (.nil hl)
      refine ⟨hlines.append ih.1, fun hst => ?_⟩
      exact List.forall_mem_cons.2 ⟨arranged_rule hrule hst, ih.2 (hst.passes (ht.trans hl))⟩

theorem arranged_topLevelInitializer (h : topLevelInitializer st = .matched i st')
    (hst : st.At source) : i.Arranged source := by
  obtain ⟨st₁, st₂, st₃, hopen, hcode, hclose, hend, hloc⟩ := topLevelInitializer_eq_matched h
  obtain ⟨t, -, ht⟩ := statementEnd_eq_matched hend
  have hlines := State.Lines.append (.nil hopen) (hcode.lines.append (.nil (hclose.trans ht)))
  refine ⟨?_, (hst.passes hopen).slice_block hcode⟩
  rw [hloc]
  exact hlines.row.within _ List.mem_cons_self

theorem arranged_initializer (h : initializer st = .matched i st') (hst : st.At source) :
    i.Arranged source := by
  obtain ⟨st₁, hcode, hend, hloc⟩ := initializer_eq_matched h
  obtain ⟨t, -, ht⟩ := statementEnd_eq_matched hend
  refine ⟨?_, hst.slice_block hcode⟩
  rw [hloc]
  exact (hcode.lines.append (.nil ht)).row.within _ List.mem_cons_self

theorem arranged_optional (source : Text) {p : Reader (Initializer ByteRange)}
    (hplaces : ∀ {st i st'}, p st = .matched i st' → (∃ t, st.Passes t st') ∧
      ∀ {L : ByteRange → Prop}, (∀ range, st.Covers range st' → L range) → i.Located L)
    (hp : ∀ {st i st'}, p st = .matched i st' → st.At source → i.Arranged source)
    {o : Option (Initializer ByteRange)} (h : optional (thenTrivia p) st = .matched o st') :
    st.Lines (o.toList.map Initializer.location) st' ∧
      (st.At source → ∀ i ∈ o.toList, i.Arranged source) := by
  rcases optional_eq_matched h with ⟨i, rfl, hi⟩ | ⟨rfl, hpass⟩
  · obtain ⟨st₁, l, hi, -, hl⟩ := thenTrivia_eq_matched hi
    obtain ⟨⟨t, ht⟩, hlocated⟩ := hplaces hi
    exact ⟨State.Lines.append (.one ht (hlocated fun _ hr => hr).2) (.nil hl),
      fun hst => List.forall_mem_singleton.2 (hp hi hst)⟩
  · exact ⟨.nil hpass, nofun⟩

theorem arranged_document {g : Grammar ByteRange}
    (h : document { rest := source } = .matched g st') (hrest : st'.rest = []) :
    g.Arranged source := by
  have hst : State.At source { rest := source } := .start source
  have hproper := places_document h fun _ hr => hst.proper hr
  obtain ⟨l, st₁, st₂, st₃, -, hp, htop, hinit, hrules, -, hloc⟩ := document_eq_matched h
  obtain ⟨hltop, hatop⟩ := arranged_optional source places_topLevelInitializer
    arranged_topLevelInitializer htop
  obtain ⟨hlinit, hainit⟩ := arranged_optional source places_initializer
    arranged_initializer hinit
  obtain ⟨hlrules, harules⟩ := arranged_rules source hrules
  obtain ⟨t, ht⟩ := hltop.passes
  obtain ⟨u, hu⟩ := hlinit.passes
  have hst₁ := hst.passes hp
  have hlines := State.Lines.append (.nil hp) ((hltop.append hlinit).append hlrules)
  exact {
    proper := hproper
    whole := by
      obtain ⟨v, hv⟩ := hlines.passes
      rw [hloc, (hst.passes hv).eq_nil_iff.1 hrest]
    row := by
      rw [hloc, List.map_append]
      exact hlines.row
    initializers := List.forall_mem_append.2 ⟨hatop hst₁, hainit (hst₁.passes ht)⟩
    rules := harules ((hst₁.passes ht).passes hu) }

end Documents

end Reader

/-- The tree of a parsed document lies in it as it should. -/
theorem arranged_of_parseWith {options : ParseOptions} {source : String} {g : Grammar Span}
    (h : parseWith options source = .ok g) : (g.map Span.range).Arranged source.toList := by
  obtain ⟨st', hread, hrest⟩ := document_of_parseWith h
  exact Reader.arranged_document hread hrest

theorem arranged_of_parseWith_labels : ∃ g,
    parseWith {} "{ x }\né 'è'~ = @(n:\"ü\"i /) [a-z]+ { y }" = .ok g ∧
      (g.map Span.range).Arranged "{ x }\né 'è'~ = @(n:\"ü\"i /) [a-z]+ { y }".toList := by
  have hok : (parseWith {} "{ x }\né 'è'~ = @(n:\"ü\"i /) [a-z]+ { y }").toOption.any
      (fun _ => true) = true := by
    decide +kernel
  obtain ⟨g, h, -⟩ := exists_of_any hok
  exact ⟨g, h, arranged_of_parseWith h⟩

end PegGrammar
