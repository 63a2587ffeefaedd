import PegGrammar.Proofs.ConcreteSyntax
import PegGrammar.Proofs.Outcome
import PegGrammar.Proofs.Rounds

namespace PegGrammar

theorem Gap.noTrivia {l rest : Text} (h : Gap l rest) : NoTrivia rest := by
  have hno := Trivia.noTrivia_drop_skip (l ++ rest)
  rwa [show (l ++ rest).drop (Trivia.skip (l ++ rest)) = rest from h.skip] at hno

namespace State

variable {st st' : State}

theorem PassesBlock.written {code : String} {range : ByteRange}
    (h : st.PassesBlock code range st') : ∃ b, BlockSpelling b code ∧ st.Passes b st' :=
  ⟨_, .mk h.balanced, h.passes⟩

theorem PassesLabel.written {label : String} {range : ByteRange}
    (h : st.PassesLabel label range st') : ∃ m, LabelText st'.rest label m ∧ st.Passes m st' := by
  obtain ⟨t, l, hspell, hl, hp, -⟩ := h.passes
  exact ⟨_, .mk hspell.spelling hl.trivia, hp⟩

end State

namespace Reader

/-- The text passed between two states is a way to write the tree. -/
def Writes (st : State) (e : Node) (st' : State) : Prop :=
  ∃ t, st.Passes t st' ∧ e.Wrapped st'.rest t

variable {inner : Reader Node} {st st' st₁ : State} {e first : Node} {others : List Node}
  {S : Text → Text → Prop} {t : Text}

theorem Writes.of_passes (hp : st.Passes [] st₁) (h : Writes st₁ e st') : Writes st e st' := by
  obtain ⟨t, hp', he⟩ := h
  exact ⟨t, hp.trans hp', he⟩

theorem Writes.passes (h : Writes st e st₁) (hp : st₁.Passes [] st') : Writes st e st' := by
  obtain ⟨t, hp', he⟩ := h
  refine ⟨t, ?_, hp.eq_rest ▸ he⟩
  rw [← List.append_nil t]
  exact hp'.trans hp

/-- Each element after the first adds a separator and itself to the text. -/
theorem row_of_runs {p : Reader Node} (hp : ∀ st e st', p st = .matched e st' →
      ∃ s st₁, S st₁.rest s ∧ st.Passes s st₁ ∧ Writes st₁ e st')
    (hfirst : first.Wrapped st.rest t) (h : Runs p st others st') :
    ∃ u, st.Passes u st' ∧ Expr.Row S st'.rest (first :: others) (t ++ u) := by
  induction h generalizing first t with
  | nil h =>
      rw [← h.eq_rest] at hfirst
      exact ⟨[], h, by simpa using .single hfirst⟩
  | cons h _ ih =>
      obtain ⟨s, st₂, hs, hpass, w, hpass', he⟩ := hp _ _ _ h
      obtain ⟨u, hpass'', hrow⟩ := ih he
      have hpass' := hpass'.trans hpass''
      rw [hpass.1, hpass'.1] at hfirst
      rw [hpass'.1] at hs
      exact ⟨s ++ (w ++ u), hpass.trans hpass', .cons hfirst hs hrow⟩

theorem writes_afterTrivia {p : Reader Node}
    (hp : ∀ st e st', p st = .matched e st' → Writes st e st')
    (h : afterTrivia p st = .matched e st') :
    ∃ l st₁, TriviaText st₁.rest l ∧ st.Passes l st₁ ∧ Writes st₁ e st' := by
  rcases afterTrivia_eq_matched h with ⟨l, st₁, hl, hpass, h, -⟩ | ⟨rfl, hpass, -⟩
  · exact ⟨l, st₁, hl.trivia, hpass, hp _ _ _ h⟩
  · exact ⟨[], st, .nil, .refl st, [], hpass, .plain (.sequence .nil)⟩

section

variable (hinner : ∀ st e st', inner st = .matched e st' → Writes st e st')

include hinner

theorem writes_group (h : group inner st = .matched e st') : Writes st e st' := by
  obtain ⟨body, st₁, st₂, r, hopen, hbody, hr, hclose, he⟩ := group_eq_matched h
  obtain ⟨l, st₃, hl, hpass, t, hpass', hwrap⟩ := writes_afterTrivia hinner hbody
  -- what follows each part is the text that is passed behind it
  rw [hpass'.1, hclose.1] at hl
  rw [hclose.1] at hwrap
  simp only [List.append_assoc, List.singleton_append] at hl hwrap
  refine ⟨_, hopen.trans_cons (hpass.trans (hpass'.trans hclose)), ?_⟩
  subst he
  split
  next hlabels =>
    -- no parentheses of their own around a body with labels
    cases hwrap with
    | plain hwritten => exact .plain (.group hl hwritten hr.trivia)
    | parens hno => simp [hlabels] at hno
  next hlabels => exact .parens (by simpa using hlabels) hl hwrap hr.trivia

theorem writes_primary (h : primary inner st = .matched e st') : Writes st e st' := by
  obtain ⟨st₀, hp, h⟩ := primary_eq_matched h
  refine .of_passes hp ?_
  rcases h with h | h | h | h | h | h
  · obtain ⟨t, v, i, ht, -, hp, rfl⟩ := literal_eq_matched h
    exact ⟨_, hp, .plain (.literal ht.spelling)⟩
  · obtain ⟨t, body, i, ht, -, hp, rfl⟩ := charClass_eq_matched h
    exact ⟨_, hp, .plain (.charClass ht.spelling)⟩
  · obtain ⟨hp, rfl⟩ := any_eq_matched h
    exact ⟨_, hp, .plain .any⟩
  · obtain ⟨t, n, ht, hp, -, rfl⟩ := ruleRef_eq_matched h
    exact ⟨_, hp, .plain (.ruleRef ht.spelling)⟩
  · obtain ⟨p, l, st₁, code, range, hl, hp, hcode, rfl⟩ := predicate_eq_matched h
    obtain ⟨b, hb, hp'⟩ := hcode.written
    rw [hp'.1] at hl
    exact ⟨_, hp.trans hp', .plain (.predicate hl.trivia hb)⟩
  · exact writes_group hinner h

theorem writes_suffixed (h : suffixed inner st = .matched e st') : Writes st e st' := by
  obtain ⟨body, st₁, hbody, h⟩ := suffixed_eq_matched h
  have hwrites := writes_primary hinner hbody
  rcases h with ⟨rfl, hp⟩ | ⟨op, l, hl, hp, rfl⟩
  · exact hwrites.passes hp
  · obtain ⟨t, hpass, hwrap⟩ := hwrites
    rw [hp.1, List.append_assoc, List.singleton_append] at hwrap
    exact ⟨_, hpass.trans hp, .plain (.suffixed hwrap hl.trivia)⟩

theorem writes_prefixed (h : prefixed inner st = .matched e st') : Writes st e st' := by
  rcases prefixed_eq_matched h with ⟨op, l, st₁, body, hl, hp, hbody, rfl⟩ | ⟨st₀, hp, h, -⟩
  · obtain ⟨t, hpass, hwrap⟩ := writes_suffixed hinner hbody
    rw [hpass.1] at hl
    exact ⟨_, hp.trans hpass, .plain (.prefixed hl.trivia hwrap)⟩
  · exact .of_passes hp (writes_suffixed hinner h)

theorem writes_pick (h : pick inner st = .matched e st') : Writes st e st' := by
  obtain ⟨l, st₁, body, hbody, h⟩ := pick_eq_matched h
  obtain ⟨t, hpass, hwrap⟩ := writes_prefixed hinner hbody
  rcases h with ⟨hl, hp, rfl⟩ | ⟨st₂, st₃, r, label, range, hl, hp, hlabel, hr, hp', rfl⟩
  · rw [hpass.1] at hl
    exact ⟨_, hp.trans hpass, .plain (.pick hl.trivia hwrap)⟩
  · obtain ⟨m, hm, hpm⟩ := hlabel.written
    rw [hpm.1, hp'.1, hpass.1] at hl
    rw [hp'.1, hpass.1] at hm
    rw [hpass.1] at hr
    exact ⟨_, hp.trans (hpm.trans (hp'.trans hpass)), .plain (.pickLabeled hl.trivia hm hr.trivia hwrap)⟩

theorem writes_labeled (h : labeled inner st = .matched e st') : Writes st e st' := by
  obtain ⟨st₀, hp, h⟩ := labeled_eq_matched h
  refine .of_passes hp ?_
  rcases h with h | ⟨st₁, st₂, r, label, range, body, hlabel, hr, hp, hbody, rfl⟩ | h
  · exact writes_pick hinner h
  · obtain ⟨m, hm, hpm⟩ := hlabel.written
    obtain ⟨t, hpass, hwrap⟩ := writes_prefixed hinner hbody
    rw [hp.1, hpass.1] at hm
    rw [hpass.1] at hr
    exact ⟨_, hpm.trans (hp.trans hpass), .plain (.labeled hm hr.trivia hwrap)⟩
  · exact writes_prefixed hinner h

theorem writes_nextElement
    (h : (trivia >>= fun _ => labeled inner : Reader Node) st = .matched e st') :
    ∃ s st₁, TriviaText st₁.rest s ∧ st.Passes s st₁ ∧ Writes st₁ e st' := by
  obtain ⟨_, st₁, ht, h⟩ := bind_eq_matched.1 h
  obtain ⟨s, hs, hp⟩ := trivia_eq_matched ht
  exact ⟨s, st₁, hs.trivia, hp, writes_labeled hinner h⟩

theorem writes_elements {es : List Node} (h : elements inner st = .matched es st') :
    ∃ t, st.Passes t st' ∧ Expr.Row TriviaText st'.rest es t := by
  rcases elements_eq_matched h with ⟨rfl, hp⟩ | ⟨first, others, st₁, rfl, hfirst, hothers⟩
  · exact ⟨[], hp, .nil⟩
  · obtain ⟨t, hpass, hwrap⟩ := writes_labeled hinner hfirst
    obtain ⟨u, hpass', hrow⟩ := row_of_runs (fun _ _ _ => writes_nextElement hinner) hwrap hothers
    exact ⟨_, hpass.trans hpass', hrow⟩

theorem writes_sequence (h : sequence inner st = .matched e st') : Writes st e st' := by
  obtain ⟨es, hes, h⟩ := sequence_eq_matched h
  obtain ⟨t, hpass, hrow⟩ := writes_elements hinner hes
  rcases h with ⟨rfl, -⟩ | ⟨-, rfl⟩
  · cases hrow with
    | single hwrap => exact ⟨t, hpass, hwrap⟩
  · exact ⟨t, hpass, .plain (.sequence hrow)⟩

theorem writes_action (h : action inner st = .matched e st') : Writes st e st' := by
  obtain ⟨body, st₁, hbody, h⟩ := action_eq_matched h
  have hwrites := writes_sequence hinner hbody
  rcases h with ⟨rfl, hp⟩ | ⟨l, st₂, code, range, hl, hp, hcode, rfl⟩
  · exact hwrites.passes hp
  · obtain ⟨t, hpass, hwrap⟩ := hwrites
    obtain ⟨b, hb, hpb⟩ := hcode.written
    rw [hp.1, hpb.1] at hwrap
    rw [hpb.1] at hl
    exact ⟨_, hpass.trans (hp.trans hpb), .plain (.action hwrap hl.trivia hb)⟩

theorem writes_alternative (h : alternative inner st = .matched e st') :
    ∃ s st₁, SlashText st₁.rest s ∧ st.Passes s st₁ ∧ Writes st₁ e st' := by
  obtain ⟨l, st₁, hl, hp, h⟩ := alternative_eq_matched h
  obtain ⟨r, st₂, hr, hp', hw⟩ := writes_afterTrivia (fun _ _ _ => writes_action hinner) h
  rw [hp'.1] at hl
  refine ⟨l ++ '/' :: r, st₂, .mk hl.trivia hl.noTrivia hr, ?_, hw⟩
  simpa using hp.trans hp'

theorem writes_choice (h : choice inner st = .matched e st') : Writes st e st' := by
  obtain ⟨first, others, st₁, hfirst, hothers, h⟩ := choice_eq_matched h
  obtain ⟨t, hpass, hwrap⟩ := writes_action hinner hfirst
  rcases h with ⟨rfl, rfl⟩ | ⟨-, rfl⟩
  · cases hothers with
    | nil hp => exact Writes.passes ⟨t, hpass, hwrap⟩ hp
  · obtain ⟨u, hpass', hrow⟩ := row_of_runs (fun _ _ _ => writes_alternative hinner) hwrap hothers
    exact ⟨_, hpass.trans hpass', .plain (.choice hrow)⟩

end

theorem writes_expression (h : expression st = .matched e st') : Writes st e st' :=
  expression_induction (fun _ hinner _ _ _ => writes_choice hinner) st e st' h

theorem writes_rule {r : Rule ByteRange} (h : rule st = .matched r st') :
    ∃ t, st.Passes t st' ∧ r.Written st'.rest t := by
  obtain ⟨name, display, body, st₁, st₂, hheader, hbody, hend, rfl⟩ := rule_eq_matched h
  obtain ⟨s, hend, hp⟩ := statementEnd_eq_matched hend
  obtain ⟨t, u, st₀, hname, hpname, -, hhead, hphead⟩ := header_eq_matched hheader
  obtain ⟨l, st₃, hl, hpl, w, hpw, hwrap⟩ :=
    writes_afterTrivia (fun _ _ _ => writes_expression) hbody
  rw [hp.1] at hwrap
  rw [hpw.1, hp.1] at hl
  rw [hpl.1, hpw.1, hp.1] at hhead
  have hpass := hpname.trans (hphead.trans (hpl.trans (hpw.trans hp)))
  rw [List.append_assoc, List.singleton_append] at hpass
  refine ⟨_, hpass, ?_⟩
  cases display with
  | none => exact .plain hname.spelling hhead.text hl hwrap hend
  | some d => exact .named hname.spelling hhead.text hl hwrap hend

theorem writes_rules {rs : List (Rule ByteRange)} (h : Runs (thenTrivia rule) st rs st')
    (hrest : st'.rest = []) : Rule.AllWritten rs st.rest := by
  induction h with
  | nil h =>
      rw [← h.eq_rest, hrest]
      exact .nil
  | cons h _ ih =>
      obtain ⟨st₂, l, hr, hl, hp⟩ := thenTrivia_eq_matched h
      obtain ⟨t, hpass, hwritten⟩ := writes_rule hr
      rw [hp.1] at hwritten
      rw [hpass.1, hp.1]
      exact .cons hwritten hl.trivia (ih hrest)

theorem writes_optional {W : Text → Initializer ByteRange → Text → Prop}
    {p : Reader (Initializer ByteRange)}
    (hp : ∀ {st i st'}, p st = .matched i st' → ∃ t, st.Passes t st' ∧ W st'.rest i t)
    {o : Option (Initializer ByteRange)} (h : optional (thenTrivia p) st = .matched o st') :
    ∃ t, st.Passes t st' ∧ Initializer.Leading W st'.rest o t := by
  rcases optional_eq_matched h with ⟨i, rfl, hi⟩ | ⟨rfl, hpass⟩
  · obtain ⟨st₁, l, hi, hl, hpass⟩ := thenTrivia_eq_matched hi
    obtain ⟨t, hpt, hW⟩ := hp hi
    rw [hpass.1] at hW
    exact ⟨_, hpt.trans hpass, .some hW hl.trivia⟩
  · exact ⟨[], hpass, .none⟩

theorem writes_topLevelInitializer {i : Initializer ByteRange}
    (h : topLevelInitializer st = .matched i st') :
    ∃ t, st.Passes t st' ∧ i.TopLevelWritten st'.rest t := by
  obtain ⟨st₁, st₂, st₃, hopen, hcode, hclose, hend, -⟩ := topLevelInitializer_eq_matched h
  obtain ⟨s, hend, hp⟩ := statementEnd_eq_matched hend
  obtain ⟨b, hb, hpb⟩ := hcode.written
  exact ⟨_, hopen.trans_cons (hpb.trans (hclose.trans_cons hp)), .mk hb hend⟩

theorem writes_initializer {i : Initializer ByteRange} (h : initializer st = .matched i st') :
    ∃ t, st.Passes t st' ∧ i.Written st'.rest t := by
  obtain ⟨st₁, hcode, hend, -⟩ := initializer_eq_matched h
  obtain ⟨s, hend, hp⟩ := statementEnd_eq_matched hend
  obtain ⟨b, hb, hpb⟩ := hcode.written
  exact ⟨_, hpb.trans hp, .mk hb hend⟩

theorem writes_document {g : Grammar ByteRange} (h : document st = .matched g st')
    (hrest : st'.rest = []) : g.Written st.rest := by
  obtain ⟨l, st₁, st₂, st₃, hl, hp, htop, hinit, hrules, hne, -⟩ := document_eq_matched h
  obtain ⟨t, hpt, htop⟩ := writes_optional writes_topLevelInitializer htop
  obtain ⟨i, hpi, hinit⟩ := writes_optional writes_initializer hinit
  have hrules := writes_rules hrules hrest
  rw [hpi.1] at htop
  rw [hpt.1, hpi.1] at hl
  rw [hp.1, hpt.1, hpi.1]
  exact .mk hl.trivia htop hinit hne hrules

end Reader

/-- The document is the text of the tree, trivia and parentheses included: nothing was dropped or
made up on the way. -/
theorem written_of_parse (source : String) (g : Grammar Span) (h : parse source = .ok g) :
    g.Written source.toList := by
  obtain ⟨g₀, st', hread, hrest, hbare⟩ := readsAs_of_parseWith h
  exact (Reader.writes_document hread hrest).of_bare_eq hbare.symm

theorem written_of_parse_two_rules : ∃ g,
    parse "{ x }\na \"A\"~ = l:b* @$.{ y } // z\n / (!c)+;b=''i" = .ok g ∧
      g.Written "{ x }\na \"A\"~ = l:b* @$.{ y } // z\n / (!c)+;b=''i".toList := by
  have hok : (parse "{ x }\na \"A\"~ = l:b* @$.{ y } // z\n / (!c)+;b=''i").isOk = true := by
    decide +kernel
  cases h : parse "{ x }\na \"A\"~ = l:b* @$.{ y } // z\n / (!c)+;b=''i" with
  | error e =>
      rw [h] at hok
      cases hok
  | ok g => exact ⟨g, rfl, written_of_parse _ g h⟩

end PegGrammar
