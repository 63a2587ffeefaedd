import PegGrammar.Proofs.Boundary
import PegGrammar.Proofs.Productions.Document

namespace PegGrammar

variable {source : Text}

namespace State

/-- The range takes up a part of the text between two states. -/
def Covers (st : State) (range : ByteRange) (st' : State) : Prop :=
  ∃ t u v, st.Passes (t ++ (u ++ v)) st' ∧
    range = ⟨st.offset + t.byteSize, st.offset + t.byteSize + u.byteSize⟩

variable {st st' st₁ : State} {t u : Text} {r : ByteRange}

theorem Covers.of_passes (hp : st.Passes t st₁) (h : st₁.Covers r st') : st.Covers r st' := by
  obtain ⟨a, b, c, hpass, rfl⟩ := h
  refine ⟨t ++ a, b, c, ?_, ?_⟩
  · rw [List.append_assoc]
    exact hp.trans hpass
  · rw [hp.2, Text.byteSize_append, Nat.add_assoc]

theorem Covers.passes (h : st.Covers r st₁) (hp : st₁.Passes t st') : st.Covers r st' := by
  obtain ⟨a, b, c, hpass, rfl⟩ := h
  refine ⟨a, b, c ++ t, ?_, rfl⟩
  rw [← List.append_assoc b, ← List.append_assoc a]
  exact hpass.trans hp

theorem covers_front (h : st.Passes (t ++ u) st') :
    st.Covers ⟨st.offset, st.offset + t.byteSize⟩ st' :=
  ⟨[], t, u, h, rfl⟩

theorem covers_whole (h : st.Passes t st') : st.Covers ⟨st.offset, st'.offset⟩ st' := by
  rw [h.2]
  exact covers_front (u := []) (by rwa [List.append_nil])

theorem Covers.start_le (h : st.Covers r st') : st.offset ≤ r.start ∧ r.start ≤ st'.offset := by
  obtain ⟨a, b, c, hpass, rfl⟩ := h
  rw [hpass.2, Text.byteSize_append, Text.byteSize_append]
  exact ⟨Nat.le_add_right _ _, by simp only; omega⟩

theorem Covers.stop_le (h : st.Covers r st') : r.stop ≤ st'.offset := by
  obtain ⟨a, b, c, hpass, rfl⟩ := h
  rw [hpass.2, Text.byteSize_append, Text.byteSize_append]
  simp only
  omega

theorem PassesBlock.covers {code : String} (h : st.PassesBlock code r st') : st.Covers r st' := by
  refine ⟨['{'], code.toList, ['}'], h.passes, ?_⟩
  rw [h.range_eq]
  rfl

theorem PassesLabel.covers {label : String} (h : st.PassesLabel label r st') :
    ∃ t, st.Passes t st' ∧ st.Covers r st' := by
  obtain ⟨t, l, -, -, hpass, rfl⟩ := h.passes
  exact ⟨_, hpass, covers_front hpass⟩

def At (source : Text) (st : State) : Prop := StandsAt source st.rest st.offset

theorem At.passes (h : st.At source) (hp : st.Passes t st') : st'.At source := by
  obtain ⟨hrest, hoffset⟩ := hp
  rw [At, hoffset]
  rw [At, hrest] at h
  exact h.append

theorem At.inside (h : st.At source) (hr : st.Covers r st') : Inside source r := by
  obtain ⟨a, b, c, hpass, rfl⟩ := hr
  rw [At, hpass.1, List.append_assoc, List.append_assoc] at h
  exact ⟨h.append.boundary, h.append.append.boundary⟩

end State

namespace Reader

/-- Every location of the tree is on the way from one state to the other. -/
structure Places (st : State) (e : Node) (st' : State) : Prop where
  passes : ∃ t, st.Passes t st'
  located : ∀ {L : ByteRange → Prop}, (∀ r, st.Covers r st' → L r) → e.Located L

variable {inner : Reader Node} {st st' st₁ st₂ : State} {e : Node} {t u : Text}
  {L : ByteRange → Prop}

theorem Places.within (h : Places st₁ e st₂) (hp : st.Passes t st₁) (hp' : st₂.Passes u st')
    (hL : ∀ r, st.Covers r st' → L r) : e.Located L :=
  h.located fun r hr => hL r ((hr.of_passes hp).passes hp')

theorem Places.of_passes (hp : st.Passes t st₁) (h : Places st₁ e st') : Places st e st' := by
  obtain ⟨u, hu⟩ := h.passes
  exact ⟨⟨_, hp.trans hu⟩, h.within hp (.refl st')⟩

theorem Places.passes_nil (h : Places st e st₁) (hp : st₁.Passes t st') : Places st e st' := by
  obtain ⟨u, hu⟩ := h.passes
  exact ⟨⟨_, hu.trans hp⟩, h.within (.refl st) hp⟩

theorem places_runs {p : Reader Node} (hp : ∀ st e st', p st = .matched e st' → Places st e st')
    {es : List Node} (h : Runs p st es st') : (∃ t, st.Passes t st') ∧
      ∀ {L : ByteRange → Prop}, (∀ r, st.Covers r st' → L r) → Expr.LocatedList L es := by
  induction h with
  | nil h => exact ⟨⟨_, h⟩, fun _ => trivial⟩
  | cons h _ ih =>
      have he := hp _ _ _ h
      obtain ⟨⟨t, ht⟩, hes⟩ := ih
      obtain ⟨u, hu⟩ := he.passes
      exact ⟨⟨_, hu.trans ht⟩, fun hL => ⟨he.within (.refl _) ht hL,
        hes fun r hr => hL r (hr.of_passes hu)⟩⟩

theorem places_afterTrivia {p : Reader Node}
    (hp : ∀ st e st', p st = .matched e st' → Places st e st')
    (h : afterTrivia p st = .matched e st') : Places st e st' := by
  rcases afterTrivia_eq_matched h with ⟨l, st₁, -, hl, h, -⟩ | ⟨rfl, hpass, -⟩
  · exact .of_passes hl (hp _ _ _ h)
  · have hwhole := State.covers_whole hpass
    rw [hpass.2, Text.byteSize_nil, Nat.add_zero] at hwhole
    exact ⟨⟨_, hpass⟩, fun hL => ⟨trivial, hL _ hwhole⟩⟩

section

variable (hinner : ∀ st e st', inner st = .matched e st' → Places st e st')

include hinner

theorem places_group (h : group inner st = .matched e st') : Places st e st' := by
  obtain ⟨body, st₁, st₂, r, hopen, hbody, -, hclose, he⟩ := group_eq_matched h
  have hplaces := places_afterTrivia hinner hbody
  obtain ⟨t, ht⟩ := hplaces.passes
  have hpass := hopen.trans (ht.trans hclose)
  refine ⟨⟨_, hpass⟩, fun hL => ?_⟩
  have hloc := hplaces.within hopen hclose hL
  subst he
  split
  · exact ⟨hloc, hL _ (State.covers_whole hpass)⟩
  · exact hloc

theorem places_primary (h : primary inner st = .matched e st') : Places st e st' := by
  obtain ⟨st₀, hp, h⟩ := primary_eq_matched h
  refine .of_passes hp ?_
  rcases h with h | h | h | h | h | h
  · obtain ⟨t, v, i, -, -, hp, rfl⟩ := literal_eq_matched h
    exact ⟨⟨_, hp⟩, fun hL => hL _ (State.covers_whole hp)⟩
  · obtain ⟨t, body, i, -, -, hp, rfl⟩ := charClass_eq_matched h
    exact ⟨⟨_, hp⟩, fun hL => hL _ (State.covers_whole hp)⟩
  · obtain ⟨hp, rfl⟩ := any_eq_matched h
    exact ⟨⟨_, hp⟩, fun hL => hL _ (State.covers_whole hp)⟩
  · obtain ⟨t, n, -, hp, -, rfl⟩ := ruleRef_eq_matched h
    exact ⟨⟨_, hp⟩, fun hL => hL _ (State.covers_whole hp)⟩
  · obtain ⟨p, l, st₁, code, range, -, hp, hcode, rfl⟩ := predicate_eq_matched h
    have hpass := hp.trans hcode.passes
    exact ⟨⟨_, hpass⟩, fun hL => ⟨hL _ (hcode.covers.of_passes hp),
      hL _ (State.covers_whole hpass)⟩⟩
  · exact places_group hinner h

theorem places_suffixed (h : suffixed inner st = .matched e st') : Places st e st' := by
  obtain ⟨body, st₁, hbody, h⟩ := suffixed_eq_matched h
  have hplaces := places_primary hinner hbody
  rcases h with ⟨rfl, hp⟩ | ⟨op, l, -, hp, rfl⟩
  · exact hplaces.passes_nil hp
  · obtain ⟨t, ht⟩ := hplaces.passes
    exact ⟨⟨_, ht.trans hp⟩, fun hL => ⟨hplaces.within (.refl st) hp hL,
      hL _ (State.covers_whole (ht.trans hp))⟩⟩

theorem places_prefixed (h : prefixed inner st = .matched e st') : Places st e st' := by
  rcases prefixed_eq_matched h with ⟨op, l, st₁, body, -, hp, hbody, rfl⟩ | ⟨st₀, hp, h, -⟩
  · have hplaces := places_suffixed hinner hbody
    obtain ⟨t, ht⟩ := hplaces.passes
    exact ⟨⟨_, hp.trans ht⟩, fun hL => ⟨hplaces.within hp (.refl st') hL,
      hL _ (State.covers_whole (hp.trans ht))⟩⟩
  · exact .of_passes hp (places_suffixed hinner h)

theorem places_pick (h : pick inner st = .matched e st') : Places st e st' := by
  obtain ⟨l, st₁, body, hbody, h⟩ := pick_eq_matched h
  have hplaces := places_prefixed hinner hbody
  obtain ⟨t, ht⟩ := hplaces.passes
  rcases h with ⟨-, hp, rfl⟩ | ⟨st₂, st₃, r, label, range, -, hp, hlabel, -, hp', rfl⟩
  · have hpass := hp.trans ht
    have hmark := State.covers_front (t := ['@']) hpass
    exact ⟨⟨_, hpass⟩, fun hL => ⟨hL _ hmark, hplaces.within hp (.refl st') hL,
      hL _ (State.covers_whole hpass)⟩⟩
  · obtain ⟨u, hu, hcovers⟩ := hlabel.covers
    have hpass := hp.trans (hu.trans (hp'.trans ht))
    exact ⟨⟨_, hpass⟩, fun hL => ⟨hL _ ((hcovers.of_passes hp).passes (hp'.trans ht)),
      hplaces.within (hp.trans (hu.trans hp')) (.refl st') hL, hL _ (State.covers_whole hpass)⟩⟩

theorem places_labeled (h : labeled inner st = .matched e st') : Places st e st' := by
  obtain ⟨st₀, hp₀, h⟩ := labeled_eq_matched h
  rcases h with h | ⟨st₁, st₂, r, label, range, body, hlabel, -, hp, hbody, rfl⟩ | h
  · exact .of_passes hp₀ (places_pick hinner h)
  · have hplaces := places_prefixed hinner hbody
    obtain ⟨t, ht⟩ := hplaces.passes
    obtain ⟨u, hu, hcovers⟩ := hlabel.covers
    have hpass := hp₀.trans (hu.trans (hp.trans ht))
    exact ⟨⟨_, hpass⟩, fun hL => ⟨hL _ ((hcovers.of_passes hp₀).passes (hp.trans ht)),
      hplaces.within (hp₀.trans (hu.trans hp)) (.refl st') hL, hL _ (State.covers_whole hpass)⟩⟩
  · exact .of_passes hp₀ (places_prefixed hinner h)

theorem places_element (h : (trivia >>= fun _ => labeled inner : Reader Node) st = .matched e st') :
    Places st e st' := by
  obtain ⟨_, st₁, ht, h⟩ := bind_eq_matched.1 h
  obtain ⟨t, -, hp⟩ := trivia_eq_matched ht
  exact .of_passes hp (places_labeled hinner h)

theorem places_elements {es : List Node} (h : elements inner st = .matched es st') :
    (∃ t, st.Passes t st') ∧
      ∀ {L : ByteRange → Prop}, (∀ r, st.Covers r st' → L r) → Expr.LocatedList L es := by
  rcases elements_eq_matched h with ⟨rfl, hp⟩ | ⟨first, others, st₁, rfl, hfirst, hothers⟩
  · exact ⟨⟨_, hp⟩, fun _ => trivial⟩
  · have hplaces := places_labeled hinner hfirst
    obtain ⟨t, ht⟩ := hplaces.passes
    obtain ⟨⟨u, hu⟩, hlocs⟩ := places_runs (fun _ _ _ => places_element hinner) hothers
    exact ⟨⟨_, ht.trans hu⟩, fun hL => ⟨hplaces.within (.refl st) hu hL,
      hlocs fun r hr => hL r (hr.of_passes ht)⟩⟩

theorem places_sequence (h : sequence inner st = .matched e st') : Places st e st' := by
  obtain ⟨es, hes, h⟩ := sequence_eq_matched h
  obtain ⟨⟨t, ht⟩, hlocs⟩ := places_elements hinner hes
  rcases h with ⟨rfl, -⟩ | ⟨-, rfl⟩
  · exact ⟨⟨t, ht⟩, fun hL => (hlocs hL).1⟩
  · exact ⟨⟨t, ht⟩, fun hL => ⟨hlocs hL, hL _ (State.covers_whole ht)⟩⟩

theorem places_action (h : action inner st = .matched e st') : Places st e st' := by
  obtain ⟨body, st₁, hbody, h⟩ := action_eq_matched h
  have hplaces := places_sequence hinner hbody
  rcases h with ⟨rfl, hp⟩ | ⟨l, st₂, code, range, -, hp, hcode, rfl⟩
  · exact hplaces.passes_nil hp
  · obtain ⟨t, ht⟩ := hplaces.passes
    have hpass := ht.trans (hp.trans hcode.passes)
    exact ⟨⟨_, hpass⟩, fun hL => ⟨hplaces.within (.refl st) (hp.trans hcode.passes) hL,
      hL _ (hcode.covers.of_passes (ht.trans hp)), hL _ (State.covers_whole hpass)⟩⟩

theorem places_alternative (h : alternative inner st = .matched e st') : Places st e st' := by
  obtain ⟨l, st₁, -, hp, h⟩ := alternative_eq_matched h
  exact .of_passes hp (places_afterTrivia (fun _ _ _ => places_action hinner) h)

theorem places_choice (h : choice inner st = .matched e st') : Places st e st' := by
  obtain ⟨first, others, st₁, hfirst, hothers, h⟩ := choice_eq_matched h
  have hplaces := places_action hinner hfirst
  obtain ⟨t, ht⟩ := hplaces.passes
  obtain ⟨⟨u, hu⟩, hlocs⟩ := places_runs (fun _ _ _ => places_alternative hinner) hothers
  rcases h with ⟨-, rfl⟩ | ⟨-, rfl⟩
  · exact hplaces.passes_nil hu
  · exact ⟨⟨_, ht.trans hu⟩, fun hL => ⟨⟨hplaces.within (.refl st) hu hL,
      hlocs fun r hr => hL r (hr.of_passes ht)⟩, hL _ (State.covers_whole (ht.trans hu))⟩⟩

end

theorem places_expression (h : expression st = .matched e st') : Places st e st' :=
  expression_induction (fun _ hinner _ _ _ => places_choice hinner) st e st' h

section Documents

variable {r : Rule ByteRange} {i : Initializer ByteRange}

theorem places_rule (h : rule st = .matched r st') : (∃ t, st.Passes t st') ∧
    ∀ {L : ByteRange → Prop}, (∀ range, st.Covers range st' → L range) → r.Located L := by
  obtain ⟨name, display, body, st₁, st₂, hheader, hbody, hend, rfl⟩ := rule_eq_matched h
  obtain ⟨t, -, hp⟩ := statementEnd_eq_matched hend
  obtain ⟨n, u, st₀, -, hpname, hrange, -, hphead⟩ := header_eq_matched hheader
  have hplaces := places_afterTrivia (fun _ _ _ => places_expression) hbody
  obtain ⟨v, hv⟩ := hplaces.passes
  have hrest := hphead.trans (hv.trans hp)
  have hwhole := State.covers_whole (hpname.trans hrest)
  refine ⟨⟨_, hpname.trans hrest⟩, fun hL => ⟨?_, ?_, hL _ hwhole⟩⟩
  · rw [hrange]
    exact hL _ ((State.covers_whole hpname).passes hrest)
  · have hloc := hplaces.within (hpname.trans hphead) hp hL
    cases display with
    | none => exact hloc
    | some d => exact ⟨hloc, hL _ hwhole⟩

theorem places_rules {rs : List (Rule ByteRange)} (h : Runs (thenTrivia rule) st rs st') :
    (∃ t, st.Passes t st') ∧ ∀ {L : ByteRange → Prop}, (∀ range, st.Covers range st' → L range) →
      ∀ r ∈ rs, r.Located L := by
  induction h with
  | nil h => exact ⟨⟨_, h⟩, by simp⟩
  | cons h _ ih =>
      obtain ⟨st₁, t, hr, -, hp⟩ := thenTrivia_eq_matched h
      obtain ⟨⟨u, hu⟩, hloc⟩ := places_rule hr
      obtain ⟨⟨v, hv⟩, hlocs⟩ := ih
      refine ⟨⟨_, hu.trans (hp.trans hv)⟩, fun hL x hx => ?_⟩
      rcases List.mem_cons.1 hx with rfl | hx
      · exact hloc fun range hrange => hL range (hrange.passes (hp.trans hv))
      · exact hlocs (fun range hrange => hL range (hrange.of_passes (hu.trans hp))) x hx

theorem places_optional {p : Reader (Initializer ByteRange)}
    (hp : ∀ {st i st'}, p st = .matched i st' → (∃ t, st.Passes t st') ∧
      ∀ {L : ByteRange → Prop}, (∀ range, st.Covers range st' → L range) → i.Located L)
    {o : Option (Initializer ByteRange)} (h : optional (thenTrivia p) st = .matched o st') :
    (∃ t, st.Passes t st') ∧ ∀ {L : ByteRange → Prop}, (∀ range, st.Covers range st' → L range) →
      ∀ i ∈ o, i.Located L := by
  rcases optional_eq_matched h with ⟨i, rfl, hi⟩ | ⟨rfl, hpass⟩
  · obtain ⟨st₁, t, hi, -, hpass⟩ := thenTrivia_eq_matched hi
    obtain ⟨⟨u, hu⟩, hloc⟩ := hp hi
    refine ⟨⟨_, hu.trans hpass⟩, fun hL x hx => ?_⟩
    cases hx
    exact hloc fun range hrange => hL range (hrange.passes hpass)
  · exact ⟨⟨_, hpass⟩, by simp⟩

theorem places_topLevelInitializer (h : topLevelInitializer st = .matched i st') :
    (∃ t, st.Passes t st') ∧ ∀ {L : ByteRange → Prop}, (∀ range, st.Covers range st' → L range) →
      i.Located L := by
  obtain ⟨st₁, st₂, st₃, hopen, hcode, hclose, hend, hloc⟩ := topLevelInitializer_eq_matched h
  obtain ⟨t, -, hp⟩ := statementEnd_eq_matched hend
  have hrest := hclose.trans hp
  have hpass := hopen.trans (hcode.passes.trans hrest)
  refine ⟨⟨_, hpass⟩, fun hL => ⟨hL _ ((hcode.covers.of_passes hopen).passes hrest), ?_⟩⟩
  rw [hloc]
  exact hL _ (State.covers_whole hpass)

theorem places_initializer (h : initializer st = .matched i st') :
    (∃ t, st.Passes t st') ∧ ∀ {L : ByteRange → Prop}, (∀ range, st.Covers range st' → L range) →
      i.Located L := by
  obtain ⟨st₁, hcode, hend, hloc⟩ := initializer_eq_matched h
  obtain ⟨t, -, hp⟩ := statementEnd_eq_matched hend
  have hpass := hcode.passes.trans hp
  refine ⟨⟨_, hpass⟩, fun hL => ⟨hL _ (hcode.covers.passes hp), ?_⟩⟩
  rw [hloc]
  exact hL _ (State.covers_whole hpass)

theorem places_document {g : Grammar ByteRange} (h : document st = .matched g st')
    (hL : ∀ range, st.Covers range st' → L range) : g.Located L := by
  obtain ⟨l, st₁, st₂, st₃, -, hp, htop, hinit, hrules, -, hloc⟩ := document_eq_matched h
  obtain ⟨⟨t, ht⟩, htop⟩ := places_optional places_topLevelInitializer htop
  obtain ⟨⟨u, hu⟩, hinit⟩ := places_optional places_initializer hinit
  obtain ⟨⟨v, hv⟩, hrules⟩ := places_rules hrules
  refine ⟨htop fun range hr => ?_, hinit fun range hr => ?_, hrules fun range hr => ?_, ?_⟩
  · exact hL range ((hr.of_passes hp).passes (hu.trans hv))
  · exact hL range ((hr.of_passes (hp.trans ht)).passes hv)
  · exact hL range (hr.of_passes (hp.trans (ht.trans hu)))
  · rw [hloc]
    exact hL _ (State.covers_whole (hp.trans (ht.trans (hu.trans hv))))

/-- The locations of a document lie between its characters. -/
theorem inside_document {g : Grammar ByteRange} (h : document st = .matched g st')
    (hst : st.At source) : g.Located (Inside source) :=
  places_document h fun _ hr => hst.inside hr

end Documents

end Reader

end PegGrammar
