import PegGrammar.Proofs.Offsets.Agreement
import PegGrammar.Proofs.SingleRule
import PegGrammar.Proofs.Spans

namespace PegGrammar

open Reader
open PegGrammar.Expr (Every EveryList)

inductive PastString : Text → Text → Prop
  | without (s : Text) : PastString s s
  | string {s : Text} {display : Lexeme String}
      (h : StringLiteral.stringLiteral s = some display) :
      PastString s (skipTrivia (s.drop display.length))

inductive PastTilde : Text → Text → Prop
  | without (s : Text) : PastTilde s s
  | tilde (s : Text) : PastTilde ('~' :: s) (skipTrivia s)

/-- A name in front of this text could be the name of a rule: after trivia, perhaps a string with
trivia and perhaps a `~` with trivia, an equals sign follows. -/
def CompletesHeader (s : Text) : Prop :=
  ∃ t u, PastString (skipTrivia s) t ∧ PastTilde t u ∧ u.head? = some '='

/-- A reference in the document is followed by nothing that could make it the name of a rule. -/
def Expr.NoHeader (source : Text) : Expr ByteRange → Prop
  | .ruleRef _ range => ∃ rest, source.dropBytes? range.stop = some rest ∧ ¬ CompletesHeader rest
  | _ => True

def Unmarked (s : Text) : Prop := Next (· ≠ '~') (skipTrivia s)

variable {α : Type} {source s t u l : Text} {st st₁ st' : State} {c : Char} {name : Lexeme String}

namespace Reader

section Lookahead

/-- What is left behind a display name at the front of a text, its mark and the trivia after it. -/
def pastDisplayName (s : Text) : Text :=
  match StringLiteral.stringLiteral s with
  | some display =>
    match skipTrivia (s.drop display.length) with
    | '~' :: t => skipTrivia t
    | t => t
  | none => s

theorem startsRule_eq_decide (s : Text) :
    startsRule s = decide ((pastDisplayName (skipTrivia s)).head? = some '=') := rfl

theorem takes_verboseMark (s : Text) :
    Takes (succeeds do
      symbol '~'
      trivia) s (fun _ => True) (match s with
      | '~' :: t => skipTrivia t
      | t => t) := by
  split
  next t =>
    have hmark := takes_succeeds (takes_symbol (c := '~') (s := t) |>.bind fun _ _ => takes_trivia)
    exact hmark.imp fun _ _ => trivial
  next hne =>
    refine (succeeds_not (Refuses.bind (refuses_symbol ?_))).imp fun _ _ => trivial
    rintro c hc rfl
    obtain ⟨t, ht⟩ := List.head?_eq_some_iff.1 hc
    exact hne t ht

theorem takes_optional_displayName (s : Text) :
    Takes (optional displayName) s (fun _ => True) (pastDisplayName s) := by
  rw [pastDisplayName]
  split
  next display hdisplay =>
    have hread : Takes displayName s (fun _ => True) _ :=
      (takes_lexeme hdisplay).bind fun _ _ => takes_trivia.bind fun _ _ =>
        (takes_verboseMark _).bind fun _ _ => takes_pure trivial
    exact hread.optional.imp fun _ _ => trivial
  next hnone => exact (Refuses.optional (refuses_lexeme hnone).bind).imp fun _ _ => trivial

theorem takes_header_of_startsRule (hname : Name.name s = some name)
    (h : startsRule (s.drop name.length) = true) : ∃ r, Takes header s (fun _ => True) r := by
  rw [startsRule_eq_decide, decide_eq_true_eq] at h
  obtain ⟨r, hr⟩ := List.head?_eq_some_iff.1 h
  refine ⟨r, (takes_lexeme hname).bind fun _ _ => takes_trivia.bind fun _ _ =>
    (takes_optional_displayName _).bind fun _ _ => ?_⟩
  rw [hr]
  exact takes_symbol.bind fun _ _ => takes_pure trivial

theorem refuses_header_of_startsRule (hname : Name.name s = some name)
    (h : startsRule (s.drop name.length) = false) : Refuses header s := by
  rw [startsRule_eq_decide, decide_eq_false_iff_not] at h
  refine (takes_lexeme hname).bind_refuses fun _ _ => takes_trivia.bind_refuses fun _ _ =>
    (takes_optional_displayName _).bind_refuses fun _ _ => Refuses.bind (refuses_symbol ?_)
  rintro c hc rfl
  exact h hc

theorem exists_matched_iff {p : Reader α} {b : Bool}
    (htakes : b = true → ∃ V r, Takes p st.rest V r) (hrefuses : b = false → Refuses p st.rest) :
    (∃ a st', p st = .matched a st') ↔ b = true := by
  cases b with
  | true =>
      obtain ⟨V, r, hr⟩ := htakes rfl
      obtain ⟨a, st', hmatch, -⟩ := hr st rfl
      exact iff_of_true ⟨a, st', hmatch⟩ rfl
  | false =>
      obtain ⟨f, hf⟩ := hrefuses rfl st rfl
      refine iff_of_false ?_ Bool.false_ne_true
      rintro ⟨a, st', h⟩
      rw [hf] at h
      cases h

theorem exists_header_iff (hname : Name.name st.rest = some name) :
    (∃ h st', header st = .matched h st') ↔ startsRule (st.rest.drop name.length) = true :=
  exists_matched_iff (fun h => ⟨_, takes_header_of_startsRule hname h⟩)
    (refuses_header_of_startsRule hname)

/-- Equals signs in comments and in display names are passed over. -/
example : startsRule " /* = */ \"x = \\\"\" // ~ =\n ~ = y".toList = true ∧
    startsRule " /* = */ \"x = \\\"\" // ~ =\n ~ y = ".toList = false := by
  decide +kernel

theorem exists_ruleRef_iff (hname : Name.name st.rest = some name) :
    (∃ e st', ruleRef st = .matched e st') ↔ startsRule (st.rest.drop name.length) = false := by
  rw [← Bool.not_eq_true']
  refine exists_matched_iff (fun h => ?_) (fun h => ?_)
  · rw [Bool.not_eq_true'] at h
    exact ⟨_, _, finds_ruleRef hname h⟩
  · rw [Bool.not_eq_false'] at h
    exact refuses_ruleRef_of_startsRule hname h

/-- A rule without a header leaves nothing behind but the failures. -/
theorem rule_eq_unmatched {f : Failures} (h : header st = .unmatched f) :
    rule st = .unmatched f := by
  change Reader.bind (Reader.bind header _) _ st = _
  rw [Reader.bind, Reader.bind, h]

theorem head?_pastDisplayName (hs : Next (· ≠ '~') s) (ht : PastString s t) (hu : PastTilde t u)
    (heq : u.head? = some '=') : (pastDisplayName s).head? = some '=' := by
  cases ht with
  | without =>
      cases hu with
      | without =>
          obtain ⟨r, rfl⟩ := List.head?_eq_some_iff.1 heq
          rfl
      | tilde => exact (hs '~' rfl rfl).elim
  | @string display hdisplay =>
      -- Behind a string the mark is passed here too, if there is one.
      rw [pastDisplayName, hdisplay]
      dsimp only
      generalize skipTrivia (s.drop display.length) = t at hu
      cases hu with
      | without =>
          obtain ⟨r, rfl⟩ := List.head?_eq_some_iff.1 heq
          rfl
      | tilde => exact heq

theorem not_completesHeader (h : startsRule s = false) (hs : Unmarked s) : ¬ CompletesHeader s := by
  rintro ⟨t, u, ht, hu, heq⟩
  rw [startsRule_eq_decide, decide_eq_false_iff_not] at h
  exact h (head?_pastDisplayName hs ht hu heq)

end Lookahead

section Follow

theorem unmarked_of_gap (hl : Gap l st₁.rest) (hp : st.Passes l st₁)
    (h : Next (· ≠ '~') st₁.rest) : Unmarked st.rest := by
  rwa [Unmarked, hp.1, hl.skip]

theorem unmarked_of_symbol (hl : Gap l (c :: st₁.rest)) (hp : st.Passes (l ++ [c]) st₁)
    (hc : c ≠ '~') : Unmarked st.rest := by
  rw [Unmarked, hp.1, List.append_assoc, List.singleton_append, hl.skip]
  exact next_cons hc

theorem unmarked_of_statementEnd (h : statementEnd st = .matched () st') (h' : Unmarked st'.rest) :
    Unmarked st.rest := by
  rintro c hc rfl
  -- Only a semicolon is no trivia at the end of a statement.
  have hsemicolon : Next (· ≠ ';') (skipTrivia st.rest) := by
    intro d hd
    obtain rfl := Option.mem_unique hc hd
    decide
  rw [← skipTrivia_of_statementEnd h hsemicolon] at hc
  exact h' '~' hc rfl

variable {inner : Reader Node} {e : Node}

theorem next_of_labeled (h : labeled inner st = .matched e st') :
    Next (opens · = true) st.rest := by
  intro c hc
  obtain ⟨s, hs⟩ := List.head?_eq_some_iff.1 hc
  cases hopens : opens c with
  | true => rfl
  | false =>
      have hshut : Next (opens · = false) (c :: s) := next_cons hopens
      obtain ⟨f, hf⟩ := refuses_labeled_shut hshut st hs
      rw [h] at hf
      cases hf

theorem unmarked_of_element
    (h : (trivia >>= fun _ => labeled inner : Reader Node) st = .matched e st') :
    Unmarked st.rest := by
  obtain ⟨_, st₁, ht, h⟩ := bind_eq_matched.1 h
  obtain ⟨t, hgap, hp⟩ := trivia_eq_matched ht
  exact unmarked_of_gap hgap hp
    ((next_of_labeled h).imp fun c hc => (isFollow_of_opens hc).ne (by decide))

theorem unmarked_of_alternative (h : alternative inner st = .matched e st') : Unmarked st.rest := by
  obtain ⟨l, st₁, hl, hp, -⟩ := alternative_eq_matched h
  exact unmarked_of_symbol hl hp (by decide)

end Follow

section References

variable {inner : Reader Node} {st₂ : State} {e : Node}

/-- No reference in the tree could be the name of a rule, provided that no `~` comes behind it. -/
structure Refers (source : Text) (st : State) (e : Node) (st' : State) : Prop where
  places : Places st e st'
  every : st.At source → Unmarked st'.rest → e.Every (Expr.NoHeader source)

theorem Refers.of_passes (hp : st.Passes t st₁) (h : Refers source st₁ e st') :
    Refers source st e st' :=
  ⟨.of_passes hp h.places, fun hst => h.every (hst.passes hp)⟩

theorem places_of_refers {p : Reader Node}
    (hp : ∀ st e st', p st = .matched e st' → Refers source st e st') (st : State) (e : Node)
    (st' : State) (h : p st = .matched e st') : Places st e st' :=
  (hp st e st' h).places

theorem refers_afterTrivia {p : Reader Node}
    (hp : ∀ st e st', p st = .matched e st' → Refers source st e st')
    (h : afterTrivia p st = .matched e st') : Refers source st e st' := by
  refine ⟨places_afterTrivia (places_of_refers hp) h, fun hst hnext => ?_⟩
  rcases afterTrivia_eq_matched h with ⟨l, st₁, -, hl, h, -⟩ | ⟨rfl, -⟩
  · exact (hp _ _ _ h).every (hst.passes hl) hnext
  · exact ⟨trivial, trivial⟩

/-- What comes next after one of several trees is the beginning of another one, or what comes next
after all of them. -/
theorem refers_runs {p : Reader Node}
    (hp : ∀ st e st', p st = .matched e st' → Refers source st e st')
    (hnext : ∀ st e st', p st = .matched e st' → Unmarked st.rest) {es : List Node}
    (h : Runs p st es st') (h' : Unmarked st'.rest) :
    Unmarked st.rest ∧ (st.At source → EveryList (Expr.NoHeader source) es) := by
  induction h with
  | nil h => exact ⟨h.eq_rest ▸ h', fun _ => trivial⟩
  | cons h _ ih =>
      obtain ⟨hunmarked, hes⟩ := ih h'
      have he := hp _ _ _ h
      obtain ⟨t, ht⟩ := he.places.passes
      exact ⟨hnext _ _ _ h, fun hst => ⟨he.every hst hunmarked, hes (hst.passes ht)⟩⟩

section

variable (hinner : ∀ st e st', inner st = .matched e st' → Refers source st e st')

include hinner

theorem refers_group (h : group inner st = .matched e st') : Refers source st e st' := by
  refine ⟨places_group (places_of_refers hinner) h, fun hst _ => ?_⟩
  obtain ⟨body, st₁, st₂, r, hopen, hbody, hr, hclose, rfl⟩ := group_eq_matched h
  have hnext : Unmarked st₂.rest := unmarked_of_symbol hr hclose (by decide)
  have hevery := (refers_afterTrivia hinner hbody).every (hst.passes hopen) hnext
  split
  · exact ⟨trivial, hevery⟩
  · exact hevery

theorem refers_primary (h : primary inner st = .matched e st') : Refers source st e st' := by
  refine ⟨places_primary (places_of_refers hinner) h, fun hst hnext => ?_⟩
  obtain ⟨st₀, hp, h⟩ := primary_eq_matched h
  have hst := hst.passes hp
  rcases h with h | h | h | h | h | h
  · obtain ⟨t, v, i, -, -, -, rfl⟩ := literal_eq_matched h
    trivial
  · obtain ⟨t, body, i, -, -, -, rfl⟩ := charClass_eq_matched h
    trivial
  · obtain ⟨-, rfl⟩ := any_eq_matched h
    trivial
  · obtain ⟨t, n, -, hp, hrule, rfl⟩ := ruleRef_eq_matched h
    exact ⟨st'.rest, (hst.passes hp).dropBytes?, not_completesHeader hrule hnext⟩
  · obtain ⟨p, l, st₁, code, range, -, -, -, rfl⟩ := predicate_eq_matched h
    trivial
  · exact (refers_group hinner h).every hst hnext

theorem refers_suffixed (h : suffixed inner st = .matched e st') : Refers source st e st' := by
  refine ⟨places_suffixed (places_of_refers hinner) h, fun hst hnext => ?_⟩
  obtain ⟨body, st₁, hbody, h⟩ := suffixed_eq_matched h
  have hbody := refers_primary hinner hbody
  rcases h with ⟨rfl, hp⟩ | ⟨op, l, hl, hp, rfl⟩
  · exact hbody.every hst (hp.eq_rest ▸ hnext)
  · exact ⟨trivial, hbody.every hst (unmarked_of_symbol hl hp (by cases op <;> decide))⟩

theorem refers_prefixed (h : prefixed inner st = .matched e st') : Refers source st e st' := by
  refine ⟨places_prefixed (places_of_refers hinner) h, fun hst hnext => ?_⟩
  rcases prefixed_eq_matched h with ⟨op, l, st₁, body, -, hp, hbody, rfl⟩ | ⟨st₀, hp, h, -⟩
  · exact ⟨trivial, (refers_suffixed hinner hbody).every (hst.passes hp) hnext⟩
  · exact (refers_suffixed hinner h).every (hst.passes hp) hnext

theorem refers_pick (h : pick inner st = .matched e st') : Refers source st e st' := by
  refine ⟨places_pick (places_of_refers hinner) h, fun hst hnext => ?_⟩
  obtain ⟨l, st₁, body, hbody, h⟩ := pick_eq_matched h
  have hbody := refers_prefixed hinner hbody
  rcases h with ⟨-, hp, rfl⟩ | ⟨st₂, st₃, r, label, range, -, hp, hlabel, -, hp', rfl⟩
  · exact ⟨trivial, hbody.every (hst.passes hp) hnext⟩
  · obtain ⟨t, ht, -⟩ := hlabel.covers
    exact ⟨trivial, hbody.every (((hst.passes hp).passes ht).passes hp') hnext⟩

theorem refers_labeled (h : labeled inner st = .matched e st') : Refers source st e st' := by
  refine ⟨places_labeled (places_of_refers hinner) h, fun hst hnext => ?_⟩
  obtain ⟨st₀, hp₀, h⟩ := labeled_eq_matched h
  have hst₀ := hst.passes hp₀
  rcases h with h | ⟨st₁, st₂, r, label, range, body, hlabel, -, hp, hbody, rfl⟩ | h
  · exact (refers_pick hinner h).every hst₀ hnext
  · obtain ⟨t, ht, -⟩ := hlabel.covers
    exact ⟨trivial, (refers_prefixed hinner hbody).every ((hst₀.passes ht).passes hp) hnext⟩
  · exact (refers_prefixed hinner h).every hst₀ hnext

theorem refers_element
    (h : (trivia >>= fun _ => labeled inner : Reader Node) st = .matched e st') :
    Refers source st e st' := by
  obtain ⟨_, st₁, ht, h⟩ := bind_eq_matched.1 h
  obtain ⟨t, -, hp⟩ := trivia_eq_matched ht
  exact .of_passes hp (refers_labeled hinner h)

theorem refers_elements {es : List Node} (h : elements inner st = .matched es st')
    (hst : st.At source) (hnext : Unmarked st'.rest) : EveryList (Expr.NoHeader source) es := by
  rcases elements_eq_matched h with ⟨rfl, hp⟩ | ⟨first, others, st₁, rfl, hfirst, hothers⟩
  · exact trivial
  · have hfirst := refers_labeled hinner hfirst
    obtain ⟨t, ht⟩ := hfirst.places.passes
    obtain ⟨hunmarked, hevery⟩ := refers_runs (fun _ _ _ => refers_element hinner)
      (fun _ _ _ => unmarked_of_element) hothers hnext
    exact ⟨hfirst.every hst hunmarked, hevery (hst.passes ht)⟩

theorem refers_sequence (h : sequence inner st = .matched e st') : Refers source st e st' := by
  refine ⟨places_sequence (places_of_refers hinner) h, fun hst hnext => ?_⟩
  obtain ⟨es, hes, h⟩ := sequence_eq_matched h
  have hevery := refers_elements hinner hes hst hnext
  rcases h with ⟨rfl, -⟩ | ⟨-, rfl⟩
  · exact hevery.1
  · exact ⟨trivial, hevery⟩

theorem refers_action (h : action inner st = .matched e st') : Refers source st e st' := by
  refine ⟨places_action (places_of_refers hinner) h, fun hst hnext => ?_⟩
  obtain ⟨body, st₁, hbody, h⟩ := action_eq_matched h
  have hbody := refers_sequence hinner hbody
  rcases h with ⟨rfl, hp⟩ | ⟨l, st₂, code, range, hl, hp, hcode, rfl⟩
  · exact hbody.every hst (hp.eq_rest ▸ hnext)
  · have hbrace : Next (· ≠ '~') st₂.rest := by
      rw [hcode.passes.1]
      exact next_cons (by decide)
    exact ⟨trivial, hbody.every hst (unmarked_of_gap hl hp hbrace)⟩

theorem refers_alternative (h : alternative inner st = .matched e st') :
    Refers source st e st' := by
  obtain ⟨l, st₁, -, hp, h⟩ := alternative_eq_matched h
  exact .of_passes hp (refers_afterTrivia (fun _ _ _ => refers_action hinner) h)

theorem refers_choice (h : choice inner st = .matched e st') : Refers source st e st' := by
  refine ⟨places_choice (places_of_refers hinner) h, fun hst hnext => ?_⟩
  obtain ⟨first, others, st₁, hfirst, hothers, h⟩ := choice_eq_matched h
  have hfirst := refers_action hinner hfirst
  obtain ⟨t, ht⟩ := hfirst.places.passes
  obtain ⟨hunmarked, hevery⟩ := refers_runs (fun _ _ _ => refers_alternative hinner)
    (fun _ _ _ => unmarked_of_alternative) hothers hnext
  rcases h with ⟨-, rfl⟩ | ⟨-, rfl⟩
  · exact hfirst.every hst hunmarked
  · exact ⟨trivial, hfirst.every hst hunmarked, hevery (hst.passes ht)⟩

end

theorem refers_expression (h : expression st = .matched e st') : Refers source st e st' :=
  expression_induction (fun _ hinner _ _ _ => refers_choice hinner) st e st' h

theorem every_noHeader_of_rule {r : Rule ByteRange} (h : rule st = .matched r st')
    (hst : st.At source) (hnext : Unmarked st'.rest) :
    r.expression.Every (Expr.NoHeader source) := by
  obtain ⟨name, display, body, st₁, st₂, hheader, hbody, hend, rfl⟩ := rule_eq_matched h
  obtain ⟨t, u, st₀, -, hpname, -, -, hphead⟩ := header_eq_matched hheader
  have hevery : body.Every (Expr.NoHeader source) :=
    (refers_afterTrivia (fun _ _ _ => refers_expression) hbody).every
      (hst.passes (hpname.trans hphead)) (unmarked_of_statementEnd hend hnext)
  cases display with
  | none => exact hevery
  | some d => exact ⟨trivial, hevery⟩

end References

end Reader

namespace Offsets

variable {d : Document} {pos stop : Nat} {n : String}

theorem standsAt_of_name (h : Offsets.name source pos = Checked.found (some (n, stop))) :
    ∃ s l, StandsAt source s pos ∧ Name.name s = some l ∧ stop = s.stopAt pos l.length := by
  by_cases hpos : Boundary source pos
  · obtain ⟨s, hs⟩ := hpos
    rw [name_agrees.there hs] at h
    obtain ⟨l, hl, heq⟩ := Option.map_eq_some_iff.1 (Except.ok.inj h)
    cases heq
    exact ⟨s, l, hs, hl, rfl⟩
  · rw [name_agrees.elsewhere hpos] at h
    cases h

theorem Reader.MirrorsAt.exists_matched_iff {α β : Type} {R : α → β → Prop} {k : Nat}
    {p : PegGrammar.Reader α} {q : Reader β} {lines : LineTable} (h : MirrorsAt d k R p q st)
    (hlines : lines.Exact d.source) :
    (∃ b c, q d ⟨st.offset, st.failures, lines⟩ = .ok (.matched b c)) ↔
      ∃ a st', p st = .matched a st' := by
  obtain ⟨o, ho, hend⟩ := h lines hlines
  rw [ho]
  generalize p st = r at hend
  cases hend with
  | matched => exact iff_of_true ⟨_, _, rfl⟩ ⟨_, _, rfl⟩
  | unmatched | disordered => exact iff_of_false nofun nofun

end Offsets

/-- In a document, looking ahead for the header of a rule agrees with reading one. -/
structure HeaderLookahead (source : String) : Prop where
  /-- Behind a name a rule starts exactly if the reading of a rule comes past its equals sign. -/
  startsRule_iff : ∀ {st : State} {name : Lexeme String}, st.At source.toList →
    Name.name st.rest = some name →
      (startsRule (st.rest.drop name.length) = true ↔ ∃ h st', header st = .matched h st')
  /-- Otherwise the reading of a rule ends in front of its equals sign. -/
  unmatched : ∀ {st : State} {name : Lexeme String}, st.At source.toList →
    Name.name st.rest = some name → startsRule (st.rest.drop name.length) = false →
      ∃ failures, header st = .unmatched failures ∧ rule st = .unmatched failures
  /-- The same at byte offsets. -/
  offsets : ∀ {pos stop : Nat} {n : String},
    Offsets.name source.toList pos = Offsets.Checked.found (some (n, stop)) →
      ∃ starts, Offsets.startsRule source.toList stop = .ok starts ∧
        ∀ tag failures lines, lines.Exact source.toList →
          (starts = true ↔ ∃ h c, Offsets.Reader.header ⟨source.toList, tag⟩
            ⟨pos, failures, lines⟩ = .ok (.matched h c))
  /-- A name is read as a reference or as the beginning of a header, and never as both. -/
  apart : ∀ {st st₁ : State} {name : Lexeme String}, st.At source.toList → st₁.At source.toList →
    st.offset = st₁.offset → Name.name st.rest = some name →
      ((∃ e st', ruleRef st = .matched e st') ↔ ¬ ∃ h st', header st₁ = .matched h st')
  /-- No reference in a parsed document is followed by the rest of a header. -/
  references : ∀ {options : ParseOptions} {g : Grammar Span}, parseWith options source = .ok g →
    ∀ r ∈ g.rules, (r.map Span.range).expression.Every (Expr.NoHeader source.toList)

theorem every_noHeader_of_parseWith {options : ParseOptions} {source : String} {g : Grammar Span}
    {r : Rule Span} (h : parseWith options source = .ok g) (hr : r ∈ g.rules) :
    (r.map Span.range).expression.Every (Expr.NoHeader source.toList) := by
  obtain ⟨st', hread, hrest⟩ := document_of_parseWith h
  obtain ⟨l, st₁, st₂, st₃, -, hp, htop, hinit, hrules, -⟩ := document_eq_matched hread
  obtain ⟨⟨t, ht⟩, -⟩ := places_optional places_topLevelInitializer htop
  obtain ⟨⟨u, hu⟩, -⟩ := places_optional places_initializer hinit
  obtain ⟨s, st₄, st₅, hs, hrule, hnext⟩ :=
    exists_rule_of_mem hrules hrest (List.mem_map_of_mem (f := Rule.map Span.range) hr)
  have hst : State.At source.toList { rest := source.toList } := .start source.toList
  exact every_noHeader_of_rule hrule (hst.passes (hp.trans (ht.trans (hu.trans hs))))
    (hnext.imp fun c hc => hc.ne (by decide) (by decide))

/-- The header of a rule is found ahead wherever it is read, and nowhere else. -/
theorem headerLookahead (source : String) : HeaderLookahead source where
  startsRule_iff _ hname := (exists_header_iff hname).symm
  unmatched _ hname hstarts := by
    obtain ⟨f, hf⟩ := refuses_header_of_startsRule hname hstarts _ rfl
    exact ⟨f, hf, rule_eq_unmatched hf⟩
  offsets {pos _ _} h := by
    obtain ⟨s, l, hs, hname, rfl⟩ := Offsets.standsAt_of_name h
    refine ⟨_, Offsets.Reader.Mirrors.startsRule_eq (hs.stopAt l.length), ?_⟩
    intro tag failures lines hlines
    let st : State := { rest := s, offset := pos, failures }
    have hname : Name.name st.rest = some l := hname
    have hheader := Offsets.Reader.Mirrors.header (d := ⟨source.toList, tag⟩) st le_rfl hs
    rw [hheader.exists_matched_iff hlines]
    exact (exists_header_iff hname).symm
  apart {st st₁ name} hst hst₁ hoffset hname := by
    have hrest : st.rest = st₁.rest := by
      have hdrop := hst.dropBytes?
      rw [hoffset, hst₁.dropBytes?] at hdrop
      exact (Option.some.inj hdrop).symm
    rw [exists_ruleRef_iff hname, exists_header_iff (hrest ▸ hname), hrest, Bool.not_eq_true]
  references h _ hr := every_noHeader_of_parseWith h hr

end PegGrammar
