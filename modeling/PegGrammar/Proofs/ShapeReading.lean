import PegGrammar.Proofs.Outcome
import PegGrammar.Proofs.Shape

namespace PegGrammar

theorem NameSpelling.ne_empty {t : Text} {n : String} (h : NameSpelling t n) : n ≠ "" := by
  obtain ⟨hc, hs⟩ := h
  simp [← String.toList_inj]

theorem ClassPartsText.isOrdered {t : Text} {ps : List ClassPart} (h : ClassPartsText t ps) :
    ∀ p ∈ ps, p.isOrdered = true := by
  induction h with
  | nil => simp
  | char _ _ ih => simpa [ClassPart.isOrdered] using ih
  | range _ _ hle _ ih => simpa [ClassPart.isOrdered, hle] using ih
  | continued _ _ ih => exact ih

theorem ClassSpelling.isOrdered {t : Text} {body : ClassBody} (h : ClassSpelling t body) :
    ∀ p ∈ body.parts, p.isOrdered = true := by
  cases h with
  | plain h => exact h.isOrdered
  | inverted h => exact h.isOrdered

namespace Reader

open PegGrammar.Expr

variable {N : String → Prop} {inner : Reader Node} {st st' : State} {e : Node}

theorem shaped_runs {p : Reader Node} {P : Node → Prop}
    (hp : ∀ st e st', p st = .matched e st' → P e) {es : List Node} (h : Runs p st es st') :
    ∀ e ∈ es, P e := by
  induction h with
  | nil => simp
  | cons h _ ih => simpa using ⟨hp _ _ _ h, ih⟩

theorem shaped_afterTrivia {p : Reader Node}
    (hp : ∀ st e st', p st = .matched e st' → e.Shaped N ∧ e.isPick = false)
    (h : afterTrivia p st = .matched e st') : e.Shaped N ∧ e.isPick = false := by
  rcases afterTrivia_eq_matched h with ⟨l, st₁, -, -, h, -⟩ | ⟨rfl, -⟩
  · exact hp _ _ _ h
  · exact ⟨⟨by simp, by simp, trivial⟩, rfl⟩

section

variable (hN : ∀ {t n}, NameSpelling t n → N n)

include hN

theorem name_of_passesLabel {label : String} {range : ByteRange}
    (h : st.PassesLabel label range st') : N label := by
  obtain ⟨t, l, hspell, -⟩ := h.passes
  exact hN hspell.spelling

variable (hinner : ∀ st e st', inner st = .matched e st' → e.Shaped N ∧ e.isPick = false)

include hinner

omit hN in
theorem shaped_group (h : group inner st = .matched e st') :
    e.Shaped N ∧ e.hasLabels = false := by
  obtain ⟨body, st₁, st₂, r, -, hbody, -, -, he⟩ := group_eq_matched h
  obtain ⟨hshaped, hpick⟩ := shaped_afterTrivia hinner hbody
  subst he
  split
  next hlabels => exact ⟨⟨hlabels, hpick, hshaped⟩, rfl⟩
  next hlabels => exact ⟨hshaped, by simpa using hlabels⟩

theorem shaped_primary (h : primary inner st = .matched e st') :
    e.Shaped N ∧ e.hasLabels = false := by
  obtain ⟨st₀, hp, h⟩ := primary_eq_matched h
  rcases h with h | h | h | h | h | h
  · obtain ⟨t, v, i, -, -, -, rfl⟩ := literal_eq_matched h
    exact ⟨trivial, rfl⟩
  · obtain ⟨t, body, i, ht, -, -, rfl⟩ := charClass_eq_matched h
    exact ⟨ht.spelling.isOrdered, rfl⟩
  · obtain ⟨-, rfl⟩ := any_eq_matched h
    exact ⟨trivial, rfl⟩
  · obtain ⟨t, n, ht, -, -, rfl⟩ := ruleRef_eq_matched h
    exact ⟨hN ht.spelling, rfl⟩
  · obtain ⟨p, l, st₁, code, range, -, -, hcode, rfl⟩ := predicate_eq_matched h
    exact ⟨hcode.balanced, rfl⟩
  · exact shaped_group hinner h

theorem shaped_suffixed (h : suffixed inner st = .matched e st') :
    e.Shaped N ∧ e.hasLabels = false := by
  obtain ⟨body, st₁, hbody, h⟩ := suffixed_eq_matched h
  obtain ⟨hshaped, hlabels⟩ := shaped_primary hN hinner hbody
  rcases h with ⟨rfl, -⟩ | ⟨op, l, -, -, rfl⟩
  · exact ⟨hshaped, hlabels⟩
  · exact ⟨⟨hlabels, hshaped⟩, rfl⟩

theorem shaped_prefixed (h : prefixed inner st = .matched e st') :
    e.Shaped N ∧ e.hasLabels = false := by
  rcases prefixed_eq_matched h with ⟨op, l, st₁, body, -, -, hbody, rfl⟩ | ⟨st₀, -, h, -⟩
  · obtain ⟨hshaped, hlabels⟩ := shaped_suffixed hN hinner hbody
    exact ⟨⟨hlabels, hshaped⟩, rfl⟩
  · exact shaped_suffixed hN hinner h

theorem shaped_labeled (h : labeled inner st = .matched e st') :
    e.Shaped N ∧ e.isSequence = false := by
  obtain ⟨st₀, -, h⟩ := labeled_eq_matched h
  rcases h with h | ⟨st₁, st₂, r, label, range, body, hlabel, -, -, hbody, rfl⟩ | h
  · obtain ⟨l, st₁, body, hbody, h⟩ := pick_eq_matched h
    obtain ⟨hshaped, hlabels⟩ := shaped_prefixed hN hinner hbody
    rcases h with ⟨-, -, rfl⟩ | ⟨st₂, st₃, r, label, range, -, -, hlabel, -, -, rfl⟩
    · exact ⟨⟨by simp, by simp, hlabels, hshaped⟩, rfl⟩
    · exact ⟨⟨by simp, by simpa using name_of_passesLabel hN hlabel, hlabels, hshaped⟩, rfl⟩
  · obtain ⟨hshaped, hlabels⟩ := shaped_prefixed hN hinner hbody
    exact ⟨⟨by simp, by simpa using name_of_passesLabel hN hlabel, hlabels, hshaped⟩, rfl⟩
  · obtain ⟨hshaped, hlabels⟩ := shaped_prefixed hN hinner h
    exact ⟨hshaped, isSequence_eq_false_of_hasLabels hlabels⟩

theorem shaped_elements {es : List Node} (h : elements inner st = .matched es st') :
    ∀ e ∈ es, e.Shaped N ∧ e.isSequence = false := by
  rcases elements_eq_matched h with ⟨rfl, -⟩ | ⟨first, others, st₁, rfl, hfirst, hothers⟩
  · simp
  · have htail := shaped_runs (P := fun e => e.Shaped N ∧ e.isSequence = false)
      (fun st e st' h => by
        obtain ⟨_, st₁, -, h⟩ := bind_eq_matched.1 h
        exact shaped_labeled hN hinner h) hothers
    simpa using ⟨shaped_labeled hN hinner hfirst, htail⟩

theorem shaped_sequence (h : sequence inner st = .matched e st') :
    e.Shaped N ∧ e.isPick = false := by
  obtain ⟨es, hes, h⟩ := sequence_eq_matched h
  have hshaped := shaped_elements hN hinner hes
  rcases h with ⟨rfl, hpick⟩ | ⟨hsingle, rfl⟩
  · exact ⟨(hshaped e List.mem_cons_self).1, hpick⟩
  · exact ⟨⟨hsingle, fun x hx => (hshaped x hx).2,
      shapedList_iff.2 fun x hx => (hshaped x hx).1⟩, rfl⟩

theorem shaped_action (h : action inner st = .matched e st') :
    e.Shaped N ∧ e.isPick = false := by
  obtain ⟨body, st₁, hbody, h⟩ := action_eq_matched h
  obtain ⟨hshaped, hpick⟩ := shaped_sequence hN hinner hbody
  rcases h with ⟨rfl, -⟩ | ⟨l, st₂, code, range, -, -, hcode, rfl⟩
  · exact ⟨hshaped, hpick⟩
  · exact ⟨⟨hpick, hshaped, hcode.balanced⟩, rfl⟩

theorem shaped_choice (h : choice inner st = .matched e st') :
    e.Shaped N ∧ e.isPick = false := by
  obtain ⟨first, others, st₁, hfirst, hothers, h⟩ := choice_eq_matched h
  have hhead := shaped_action hN hinner hfirst
  have htail := shaped_runs (P := fun e => e.Shaped N ∧ e.isPick = false)
    (fun st e st' h => by
      obtain ⟨l, st₁, -, -, h⟩ := alternative_eq_matched h
      exact shaped_afterTrivia (fun _ _ _ => shaped_action hN hinner) h) hothers
  rcases h with ⟨-, rfl⟩ | ⟨hne, rfl⟩
  · exact hhead
  · have hall : ∀ x ∈ first :: others, x.Shaped N ∧ x.isPick = false := by
      simpa using ⟨hhead, htail⟩
    have hlength : 2 ≤ (first :: others).length := by
      have := List.length_pos_iff.2 hne
      rw [List.length_cons]
      omega
    exact ⟨⟨hlength, fun x hx => (hall x hx).2, shapedList_iff.2 fun x hx => (hall x hx).1⟩, rfl⟩

omit hinner

theorem shaped_expression (h : expression st = .matched e st') :
    e.Shaped N ∧ e.isPick = false :=
  expression_induction (P := fun _ e _ => e.Shaped N ∧ e.isPick = false)
    (fun _ hinner _ _ _ => shaped_choice hN hinner) st e st' h

theorem shaped_rule {r : Rule ByteRange} (h : rule st = .matched r st') : r.Shaped N := by
  obtain ⟨name, display, body, st₁, st₂, hheader, hbody, -, rfl⟩ := rule_eq_matched h
  obtain ⟨t, u, st₀, hname, -⟩ := header_eq_matched hheader
  obtain ⟨hshaped, hpick⟩ :=
    shaped_afterTrivia (fun _ _ _ => shaped_expression hN) hbody
  cases display with
  | some d => exact ⟨hN hname.spelling, hshaped, hpick⟩
  | none => exact .plain (hN hname.spelling) hshaped hpick

theorem shaped_rules {rs : List (Rule ByteRange)} (h : Runs (thenTrivia rule) st rs st') :
    ∀ r ∈ rs, r.Shaped N := by
  induction h with
  | nil => simp
  | cons h _ ih =>
      obtain ⟨st₁, t, hr, -⟩ := thenTrivia_eq_matched h
      simpa using ⟨shaped_rule hN hr, ih⟩

omit hN in
theorem balanced_optional {p : Reader (Initializer ByteRange)}
    (hp : ∀ {st i st'}, p st = .matched i st' → Balanced i.code.toList)
    {o : Option (Initializer ByteRange)} (h : optional (thenTrivia p) st = .matched o st') :
    ∀ i ∈ o, Balanced i.code.toList := by
  rcases optional_eq_matched h with ⟨i, rfl, hi⟩ | ⟨rfl, -⟩
  · obtain ⟨st₁, l, hi, -⟩ := thenTrivia_eq_matched hi
    simpa using hp hi
  · simp

theorem shaped_document {g : Grammar ByteRange} (h : document st = .matched g st') :
    g.Shaped N := by
  obtain ⟨l, st₁, st₂, st₃, -, -, htop, hinit, hrules, hne, -⟩ := document_eq_matched h
  refine ⟨hne, shaped_rules hN hrules, balanced_optional (fun h => ?_) htop,
    balanced_optional (fun h => ?_) hinit⟩
  · obtain ⟨st₁, st₂, st₃, -, hcode, -⟩ := topLevelInitializer_eq_matched h
    exact hcode.balanced
  · obtain ⟨st₁, hcode, -⟩ := initializer_eq_matched h
    exact hcode.balanced

end

end Reader

theorem shaped_of_parseWith {N : String → Prop} (hN : ∀ {t n}, NameSpelling t n → N n)
    {options : ParseOptions} {source : String} {g : Grammar Span}
    (h : parseWith options source = .ok g) : g.Shaped N := by
  obtain ⟨g₀, st', hread, -, hbare⟩ := readsAs_of_parseWith h
  exact (Reader.shaped_document hN hread).of_bare_eq hbare.symm

/-- Whatever is parsed has the shape of a tree that was read, and none of its names is empty. -/
theorem parsed_shape (options : ParseOptions) (source : String) (g : Grammar Span)
    (h : parseWith options source = .ok g) : g.Shaped (· ≠ "") :=
  shaped_of_parseWith NameSpelling.ne_empty h

theorem parsed_shape_group : ∃ g,
    parseWith { source := some "g.peg" } "a = l:(b / !'c' { d })*;" = .ok g ∧
      g.Shaped (· ≠ "") := by
  have hok : (parseWith { source := some "g.peg" } "a = l:(b / !'c' { d })*;").isOk = true := by
    decide +kernel
  cases h : parseWith { source := some "g.peg" } "a = l:(b / !'c' { d })*;" with
  | error e =>
      rw [h] at hok
      cases hok
  | ok g => exact ⟨g, rfl, parsed_shape _ _ g h⟩

end PegGrammar
