import PegGrammar.Proofs.Placement
import PegGrammar.Proofs.Relayout.Tokens
import PegGrammar.Proofs.Rereading.Operands

namespace PegGrammar

open Reader

variable {st st' st₁ : State} {e : Node} {s t rest F : Text} {n v : String} {c : Char}

def elementMarks : List Char := ['@', '&', '!', '(', '"', '\x27', '[', '.']

def Opening (s : Text) : Prop :=
  (∃ l, Name.name s = some l) ∨ ∃ c t, s = c :: t ∧ c ∈ elementMarks

theorem opens_of_mem_elementMarks (h : c ∈ elementMarks) : opens c = true :=
  forall_mem_of_all (P := (opens · = true)) (by decide +kernel) c h

theorem Opening.exists_cons (h : Opening s) : ∃ c t, s = c :: t ∧ opens c = true := by
  rcases h with ⟨l, hl⟩ | ⟨c, t, rfl, hc⟩
  · cases s with
    | nil => cases hl
    | cons c t => exact ⟨c, t, rfl, opens_of_isNameHead (next_of_name hl c rfl)⟩
  · exact ⟨c, t, rfl, opens_of_mem_elementMarks hc⟩

theorem Opening.next (h : Opening s) : Next (opens · = true) s := by
  obtain ⟨c, t, rfl, hc⟩ := h.exists_cons
  exact next_cons hc

theorem Opening.ne_nil (h : Opening s) : s ≠ [] := by
  obtain ⟨c, t, rfl, -⟩ := h.exists_cons
  exact List.cons_ne_nil c t

theorem Name.nameParts_of_name {l : Lexeme String} (h : Name.name s = some l) :
    (∃ w, Name.nameChar isNamePart s = some w) ∧ (Name.nameParts s).length = l.length := by
  obtain ⟨w, hw, rfl⟩ := Option.map_eq_some_iff.1 h
  have hpart : nameChar isNamePart s = some w := by
    cases s with
    | nil => cases hw
    | cons c s =>
        rw [nameChar] at hw ⊢
        by_cases hstart : isNameStart c = true
        · rw [if_pos hstart] at hw
          rwa [if_pos (isNamePart_of_isNameStart hstart)]
        · rw [if_neg hstart] at hw
          have hslash : c = '\\' := by
            by_contra hslash
            rw [if_neg hslash] at hw
            cases hw
          rwa [if_neg (by rw [hslash]; decide +kernel)]
  exact ⟨⟨w, hpart⟩, by rw [nameParts_of_some hpart]⟩

theorem Opening.mark (h : Opening s) (hs : Name.nameChar isNamePart s = none) :
    ∃ c t, s = c :: t ∧ c ∈ elementMarks := by
  rcases h with ⟨l, hl⟩ | h
  · obtain ⟨⟨w, hw⟩, -⟩ := Name.nameParts_of_name hl
    rw [hs] at hw
    cases hw
  · exact h

theorem NameFound.ne_nil (h : NameFound t n rest) : t ≠ [] := by
  cases h.spelling with
  | mk hchar _ => cases hchar <;> simp

theorem StringFound.exists_cons (h : StringFound t v rest) :
    ∃ q u, t = q :: u ∧ q ∈ elementMarks ∧ Reader.IsNoPrefix q := by
  cases h.spelling with
  | mk hquote _ =>
      refine ⟨_, _, rfl, ?_⟩
      rw [StringLiteral.isQuote, Bool.or_eq_true, beq_iff_eq, beq_iff_eq] at hquote
      rcases hquote with rfl | rfl <;> decide

theorem ClassFound.exists_cons {body : ClassBody} (h : ClassFound t body rest) :
    ∃ u, t = '[' :: u := by
  cases h.spelling <;> exact ⟨_, rfl⟩

namespace Reader

/-- Reading has passed an element. -/
structure Opened (st st' : State) : Prop where
  opening : Opening st.rest
  passes : ∃ t, t ≠ [] ∧ st.Passes t st'

theorem Opened.of_passes (hp : st.Passes [] st₁) (h : Opened st₁ st') : Opened st st' := by
  obtain ⟨t, ht, hpass⟩ := h.passes
  exact ⟨hp.eq_rest ▸ h.opening, t, ht, hp.trans hpass⟩

theorem Opened.append (h : Opened st st₁) (hp : st₁.Passes t st') : Opened st st' := by
  obtain ⟨u, hu, hpass⟩ := h.passes
  exact ⟨h.opening, _, List.append_ne_nil_of_left_ne_nil hu t, hpass.trans hp⟩

theorem opened_of_mark (hc : c ∈ elementMarks) (hp : st.Passes (c :: t) st') : Opened st st' :=
  ⟨.inr ⟨c, t ++ st'.rest, hp.1, hc⟩, _, List.cons_ne_nil c t, hp⟩

theorem opened_of_name (h : NameFound t n rest) (hp : st.Passes (t ++ s) st')
    (hrest : s ++ st'.rest = rest) : Opened st st' := by
  refine ⟨.inl ⟨⟨n, t.length⟩, ?_⟩, _, List.append_ne_nil_of_left_ne_nil h.ne_nil s, hp⟩
  rw [hp.1, List.append_assoc, hrest]
  exact h.found

theorem primary_cases (h : primary expression st = .matched e st') :
    (∃ t n, NameFound t n st'.rest ∧ st.Passes t st' ∧ startsRule st'.rest = false) ∨
      ∃ c t, c ∈ elementMarks ∧ st.Passes (c :: t) st' := by
  obtain ⟨st₀, hp₀, h⟩ := primary_eq_matched h
  rcases h with h | h | h | h | h | h
  · obtain ⟨t, v, i, hfound, -, hp, -⟩ := literal_eq_matched h
    obtain ⟨q, u, rfl, hq, -⟩ := hfound.exists_cons
    exact .inr ⟨q, _, hq, hp₀.trans hp⟩
  · obtain ⟨t, body, i, hfound, -, hp, -⟩ := charClass_eq_matched h
    obtain ⟨u, rfl⟩ := hfound.exists_cons
    exact .inr ⟨_, _, by decide, hp₀.trans hp⟩
  · exact .inr ⟨'.', [], by decide, hp₀.trans (any_eq_matched h).1⟩
  · obtain ⟨t, n, hfound, hp, hrule, -⟩ := ruleRef_eq_matched h
    exact .inl ⟨t, n, hfound, hp₀.trans hp, hrule⟩
  · obtain ⟨p, l, st₁, code, range, -, hp, hcode, -⟩ := predicate_eq_matched h
    exact .inr ⟨p.symbol, _, by cases p <;> decide, hp₀.trans (hp.trans hcode.passes)⟩
  · obtain ⟨body, st₁, st₂, r, hopen, hbody, -, hclose, -⟩ := group_eq_matched h
    obtain ⟨t, ht⟩ := (places_afterTrivia (fun _ _ _ => places_expression) hbody).passes
    exact .inr ⟨'(', _, by decide, hp₀.trans (hopen.trans_cons (ht.trans hclose))⟩

theorem opened_primary (h : primary expression st = .matched e st') : Opened st st' := by
  rcases primary_cases h with ⟨t, n, hfound, hp, -⟩ | ⟨c, t, hc, hp⟩
  · exact opened_of_name (s := []) hfound (by rwa [List.append_nil]) rfl
  · exact opened_of_mark hc hp

theorem opened_suffixed (h : suffixed expression st = .matched e st') : Opened st st' := by
  obtain ⟨body, st₁, hbody, h⟩ := suffixed_eq_matched h
  have hopened := opened_primary hbody
  rcases h with ⟨-, hp⟩ | ⟨op, l, -, hp, -⟩
  · exact hopened.append hp
  · exact hopened.append hp

theorem opened_op (op : PrefixOp) (hp : st.Passes (op.symbol :: t) st') : Opened st st' := by
  cases op with
  | text =>
      refine ⟨.inl ?_, _, List.cons_ne_nil _ t, hp⟩
      rw [hp.1]
      exact ⟨_, rfl⟩
  | and => exact opened_of_mark (by decide) hp
  | not => exact opened_of_mark (by decide) hp

theorem opened_prefixed (h : prefixed expression st = .matched e st') : Opened st st' := by
  rcases prefixed_eq_matched h with ⟨op, l, st₁, body, -, hp, hbody, -⟩ | ⟨st₀, hp, h, -⟩
  · obtain ⟨t, -, ht⟩ := (opened_suffixed hbody).passes
    exact opened_op op (hp.trans ht)
  · exact .of_passes hp (opened_suffixed h)

theorem opened_label {label : String} {range : ByteRange} (h : st.PassesLabel label range st₁)
    (hp : st₁.Passes t st') : Opened st st' := by
  obtain ⟨u, l, hfound, -, hpass, -⟩ := h.passes
  refine opened_of_name hfound (s := l ++ [':'] ++ t) ?_ ?_
  · rw [← List.append_assoc]
    exact hpass.trans hp
  · rw [hp.1]
    simp only [List.append_assoc, List.cons_append, List.nil_append]

theorem opened_labeled (h : labeled expression st = .matched e st') : Opened st st' := by
  obtain ⟨st₀, hp₀, h⟩ := labeled_eq_matched h
  refine .of_passes hp₀ ?_
  rcases h with h | ⟨st₁, st₂, r, label, range, body, hlabel, -, hp, hbody, -⟩ | h
  · obtain ⟨l, st₁, body, hbody, h⟩ := pick_eq_matched h
    obtain ⟨t, -, ht⟩ := (opened_prefixed hbody).passes
    rcases h with ⟨-, hp, -⟩ | ⟨st₂, st₃, r, label, range, -, hp, hlabel, -, hp', -⟩
    · exact opened_of_mark (by decide) (hp.trans ht)
    · obtain ⟨u, hu, -⟩ := hlabel.covers
      exact opened_of_mark (by decide) (hp.trans (hu.trans (hp'.trans ht)))
  · obtain ⟨t, -, ht⟩ := (opened_prefixed hbody).passes
    exact opened_label hlabel (hp.trans ht)
  · exact opened_prefixed h

/-- The character neither is an equals sign nor stands in front of one behind a display name. -/
def IsNoDefinition (c : Char) : Prop := c ≠ '~' ∧ c ≠ '='

theorem startsRule_of_mark (hc : c ∈ elementMarks) (hquote : StringLiteral.isQuote c = false)
    (h : st.rest = c :: s) : startsRule st.rest = false := by
  rw [h]
  exact Expr.startsRule_of_opens (opens_of_mem_elementMarks hc) hquote

theorem startsRule_of_name (h : NameFound t n rest) : startsRule (t ++ rest) = false := by
  have hhead := next_of_name h.found
  obtain ⟨c, s, hs⟩ := List.exists_cons_of_ne_nil (List.append_ne_nil_of_left_ne_nil h.ne_nil rest)
  rw [hs] at hhead ⊢
  exact Expr.startsRule_of_opens (opens_of_isNameHead (hhead c rfl))
    (Expr.isQuote_of_isNameHead (hhead c rfl))

theorem startsRule_of_primary (h : primary expression st = .matched e st')
    (hF : Next IsNoDefinition (skipTrivia st'.rest)) : startsRule st.rest = false := by
  obtain ⟨st₀, hp₀, h⟩ := primary_eq_matched h
  rw [← hp₀.eq_rest]
  rcases h with h | h | h | h | h | h
  · obtain ⟨t, v, i, hfound, -, hp, -⟩ := literal_eq_matched h
    obtain ⟨q, u, rfl, hq, -⟩ := hfound.exists_cons
    rw [hp.1, List.append_assoc]
    exact startsRule_string hfound.found
      (skipTrivia_solid (solid_of_opens (opens_of_mem_elementMarks hq)) _) (Expr.next_caseFlag i hF)
  · obtain ⟨t, body, i, hfound, -, hp, -⟩ := charClass_eq_matched h
    obtain ⟨u, rfl⟩ := hfound.exists_cons
    exact startsRule_of_mark (by decide) (by decide) hp.1
  · exact startsRule_of_mark (by decide) (by decide) (any_eq_matched h).1.1
  · obtain ⟨t, n, hfound, hp, -⟩ := ruleRef_eq_matched h
    rw [hp.1]
    exact startsRule_of_name hfound
  · obtain ⟨p, l, st₁, code, range, -, hp, -⟩ := predicate_eq_matched h
    exact startsRule_of_mark (c := p.symbol) (by cases p <;> decide) (by cases p <;> decide) hp.1
  · obtain ⟨body, st₁, st₂, r, hopen, -⟩ := group_eq_matched h
    exact startsRule_of_mark (by decide) (by decide) hopen.1

theorem startsRule_of_suffixed (h : suffixed expression st = .matched e st')
    (hF : Next IsNoDefinition (skipTrivia st'.rest)) : startsRule st.rest = false := by
  obtain ⟨body, st₁, hbody, h⟩ := suffixed_eq_matched h
  refine startsRule_of_primary hbody ?_
  rcases h with ⟨-, hp⟩ | ⟨op, l, hl, hp, -⟩
  · rwa [← hp.eq_rest]
  · rw [hp.1, List.append_assoc, List.singleton_append, hl.skip]
    exact next_cons (by cases op <;> exact ⟨by decide, by decide⟩)

theorem startsRule_of_prefixed (h : prefixed expression st = .matched e st')
    (hF : Next IsNoDefinition (skipTrivia st'.rest)) : startsRule st.rest = false := by
  rcases prefixed_eq_matched h with ⟨op, l, st₁, body, -, hp, -⟩ | ⟨st₀, hp, h, -⟩
  · rw [hp.1]
    exact Expr.startsRule_of_opens (c := op.symbol) (by cases op <;> decide) (by cases op <;> decide)
  · rw [← hp.eq_rest]
    exact startsRule_of_suffixed h hF

theorem startsRule_of_labeled (h : labeled expression st = .matched e st')
    (hF : Next IsNoDefinition (skipTrivia st'.rest)) : startsRule st.rest = false := by
  obtain ⟨st₀, hp₀, h⟩ := labeled_eq_matched h
  rw [← hp₀.eq_rest]
  rcases h with h | ⟨st₁, st₂, r, label, range, body, hlabel, -⟩ | h
  · obtain ⟨l, st₁, body, -, ⟨-, hp, -⟩ | ⟨st₂, st₃, r, label, range, -, hp, -⟩⟩ := pick_eq_matched h
    · exact startsRule_of_mark (by decide) (by decide) hp.1
    · exact startsRule_of_mark (by decide) (by decide) hp.1
  · obtain ⟨u, l, hfound, -, hpass, -⟩ := hlabel.passes
    rw [hpass.1]
    simpa only [List.append_assoc, List.cons_append, List.nil_append] using startsRule_of_name hfound
  · exact startsRule_of_prefixed h hF

end Reader

end PegGrammar
