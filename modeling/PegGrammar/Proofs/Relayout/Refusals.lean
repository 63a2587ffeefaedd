import PegGrammar.Proofs.Relayout.Blank
import PegGrammar.Proofs.Relayout.Opening
import PegGrammar.Proofs.Rereading.Labels

namespace PegGrammar

open Reader

variable {st st' st₁ : State} {e : Node} {s t rest F : Text} {n : String} {c : Char}

theorem Name.name_dollar {k : Nat} (h : Name.name s = some ⟨n, k⟩) :
    ∃ m, Name.name ('$' :: s) = some ⟨m, k + 1⟩ := by
  have hchar : nameChar isNameStart (['$'] ++ s) = some ⟨'$', ['$'].length⟩ := rfl
  have hname : Name.name ('$' :: s) = _ := name_append hchar
  rw [(nameParts_of_name h).2, Nat.add_comm] at hname
  exact ⟨_, hname⟩

namespace Reader

section Labels

theorem nameEnds_of_mem_elementMarks (hc : c ∈ elementMarks) (s : Text) : Name.Ends (c :: s) := by
  have hends : ∀ c ∈ elementMarks, isNamePart c = false ∧ c ≠ '\\' :=
    forall_mem_of_all (by decide +kernel)
  exact nameEnds_of_head (hends c hc).1 (hends c hc).2

theorem refuses_label_dollar_of_ends (hends : Name.Ends s)
    (hcolon : Next (· ≠ ':') (skipTrivia s)) : Refuses label ('$' :: s) :=
  refuses_label (name_dollar hends) hcolon

theorem refuses_label_of_mark (hc : c ∈ elementMarks) (s : Text) :
    Refuses label (c :: s) ∧ Refuses label ('$' :: c :: s) := by
  have hstart : ∀ c ∈ elementMarks, isNameStart c = false ∧ c ≠ '\\' :=
    forall_mem_of_all (by decide +kernel)
  refine ⟨refuses_label_char (hstart c hc).1 (hstart c hc).2,
    refuses_label_dollar_of_ends (nameEnds_of_mem_elementMarks hc s) ?_⟩
  rw [skipTrivia_solid (solid_of_opens (opens_of_mem_elementMarks hc))]
  exact next_cons (forall_mem_of_all (P := (· ≠ ':')) (by decide) c hc)

theorem refuses_label_of_name_found (h : NameFound t n rest)
    (hcolon : Next (· ≠ ':') (skipTrivia rest)) :
    Refuses label (t ++ rest) ∧ Refuses label ('$' :: (t ++ rest)) := by
  obtain ⟨m, hm⟩ := Name.name_dollar h.found
  refine ⟨refuses_label h.found ?_, refuses_label hm ?_⟩
  · rwa [List.drop_left]
  · rwa [List.drop_succ_cons, List.drop_left]

theorem refuses_label_of_primary (h : primary expression st = .matched e st')
    (hcolon : Next (· ≠ ':') (skipTrivia st'.rest)) :
    Refuses label st.rest ∧ Refuses label ('$' :: st.rest) := by
  rcases primary_cases h with ⟨t, n, hfound, hp, -⟩ | ⟨c, t, hc, hp⟩
  · rw [hp.1]
    exact refuses_label_of_name_found hfound hcolon
  · rw [hp.1]
    exact refuses_label_of_mark hc _

theorem refuses_label_of_suffixed (h : suffixed expression st = .matched e st')
    (hcolon : Next (· ≠ ':') (skipTrivia st'.rest)) :
    Refuses label st.rest ∧ Refuses label ('$' :: st.rest) := by
  obtain ⟨body, st₁, hbody, h⟩ := suffixed_eq_matched h
  refine refuses_label_of_primary hbody ?_
  rcases h with ⟨-, hp⟩ | ⟨op, l, hl, hp, -⟩
  · rwa [← hp.eq_rest]
  · rw [hp.1, List.append_assoc, List.singleton_append, hl.skip]
    exact next_cons (by cases op <;> decide)

theorem nameEnds_of_not_solid (h : ¬ Solid c) (s : Text) : Name.Ends (c :: s) := by
  refine nameEnds_of_head ?_ ?_
  · by_contra hpart
    exact h (solid_of_isNamePart (by simpa using hpart))
  · rintro rfl
    exact h (by decide)

theorem Blank.nameEnds {l : Text} (h : Blank (c :: l)) (s : Text) : Name.Ends (c :: s) :=
  nameEnds_of_not_solid h.not_solid s

theorem refuses_label_of_prefixed (h : prefixed expression st = .matched e st')
    (hcolon : Next (· ≠ ':') (skipTrivia st'.rest)) : Refuses label st.rest := by
  rcases prefixed_eq_matched h with ⟨op, l, st₁, body, hl, hp, hbody, -⟩ | ⟨st₀, hp, h, -⟩
  · have hopening := (opened_suffixed hbody).opening
    rw [hp.1]
    cases op with
    | text =>
        cases l with
        | nil => exact (refuses_label_of_suffixed hbody hcolon).2
        | cons c l =>
            refine refuses_label_dollar_of_ends ((hl.blank hopening.ne_nil).nameEnds _) ?_
            have hskip : skipTrivia (c :: (l ++ st₁.rest)) = st₁.rest := hl.skip
            change Next _ (skipTrivia (c :: (l ++ st₁.rest)))
            rw [hskip]
            exact hopening.next.imp fun d hd => (isFollow_of_opens hd).ne (by decide)
    | and => exact (refuses_label_of_mark (by decide) _).1
    | not => exact (refuses_label_of_mark (by decide) _).1
  · rw [← hp.eq_rest]
    exact (refuses_label_of_suffixed h hcolon).1

end Labels

section Operands

theorem takes_suffixed {inner : Reader Node} {b : Expr Unit} (h : Finds (primary inner) s b F) :
    ∃ e r, Finds (suffixed inner) s e r := by
  by_cases hop : ∃ op : SuffixOp, ∃ r, skipTrivia F = op.symbol :: r
  · obtain ⟨op, r, hskip⟩ := hop
    have hop : Takes (do trivia; operator SuffixOp.symbol SuffixOp.all) F (· = op) r := by
      refine takes_trivia.bind fun _ _ => ?_
      rw [hskip]
      exact takes_operator SuffixOp.symbol_injective (by cases op <;> decide)
    refine ⟨.suffixed op b (), r, .located (h.bind fun body hbody => hop.optional.bind ?_)⟩
    rintro _ ⟨_, rfl, rfl⟩
    exact takes_pure fun _ => by rw [← hbody]; rfl
  · refine ⟨b, F, finds_suffixed h fun c hc => ?_⟩
    obtain ⟨r, hr⟩ := List.head?_eq_some_iff.1 hc
    have hne (op : SuffixOp) : c ≠ op.symbol := fun heq => hop ⟨op, r, by rw [hr, heq]⟩
    exact ⟨hne .optional, hne .zeroOrMore, hne .oneOrMore⟩

theorem takes_suffixed_of_name {k : Nat} (h : Name.name s = some ⟨n, k⟩)
    (hrule : startsRule (s.drop k) = false) : ∃ e r, Finds (suffixed expression) s e r :=
  takes_suffixed (finds_primary_ruleRef h hrule)

/-- An operand behind a dollar sign is an operand with it: the sign is then part of a name. -/
theorem takes_suffixed_dollar (h : suffixed expression st = .matched e st')
    (hF : Next IsNoDefinition (skipTrivia st'.rest)) :
    ∃ e r, Finds (suffixed expression) ('$' :: st.rest) e r := by
  have hrule := startsRule_of_suffixed h hF
  obtain ⟨body, st₁, hbody, -⟩ := suffixed_eq_matched h
  rcases primary_cases hbody with ⟨t, n, hfound, hp, hnot⟩ | ⟨c, t, hc, hp⟩
  · obtain ⟨m, hm⟩ := Name.name_dollar hfound.found
    rw [hp.1]
    refine takes_suffixed_of_name hm ?_
    rwa [List.drop_succ_cons, List.drop_left]
  · rw [hp.1] at hrule ⊢
    exact takes_suffixed_of_name (name_dollar (nameEnds_of_mem_elementMarks hc _)) hrule

theorem takes_suffixed_text {l : Text} (hl : Gap l st.rest)
    (h : suffixed expression st = .matched e st') (hF : Next IsNoDefinition (skipTrivia st'.rest)) :
    ∃ e r, Finds (suffixed expression) ('$' :: (l ++ st.rest)) e r := by
  cases l with
  | nil => exact takes_suffixed_dollar h hF
  | cons c l =>
      have hends := (hl.blank (opened_suffixed h).opening.ne_nil).nameEnds (l ++ st.rest)
      refine takes_suffixed_of_name (name_dollar hends) ?_
      exact (startsRule_congr (hl.skip.trans hl.skip_rest.symm)).trans (startsRule_of_suffixed h hF)

theorem operand_cases {f : Failures} (h : labeled expression st = .matched e st')
    (hF : Next IsFollow (skipTrivia st'.rest)) (hrest : st₁.rest = st.rest)
    (hnone : suffixed expression st₁ = .unmatched f) :
    (∃ s, st.rest = '@' :: s) ∨
      (∃ op l st₂ body, op ≠ PrefixOp.text ∧ Gap l st₂.rest ∧ st.Passes (op.symbol :: l) st₂ ∧
        suffixed expression st₂ = .matched body st' ∧
        e = .prefixed op body ⟨st.offset, st'.offset⟩) ∨
      ∃ st₂ e', st₂.rest = st.rest ∧ suffixed expression st₂ = .matched e' st' := by
  have hdefinition : Next IsNoDefinition (skipTrivia st'.rest) :=
    hF.imp fun c hc => ⟨hc.ne (by decide), hc.ne (by decide)⟩
  have contra (h : ∃ e r, Finds (suffixed expression) st.rest e r) : False := by
    obtain ⟨_, _, hfinds⟩ := h
    obtain ⟨_, _, hmatch, -⟩ := hfinds st₁ hrest
    rw [hnone] at hmatch
    cases hmatch
  obtain ⟨st₀, hp₀, h⟩ := labeled_eq_matched h
  rw [← hp₀.eq_rest] at contra ⊢
  rw [← hp₀.eq_offset]
  rcases h with h | ⟨st₂, st₃, r, label, range, body, hlabel, -⟩ | h
  · obtain ⟨l, st₂, body, -, ⟨-, hp, -⟩ | ⟨st₃, st₄, r, label, range, -, hp, -⟩⟩ := pick_eq_matched h
    · exact .inl ⟨_, hp.1⟩
    · exact .inl ⟨_, hp.1⟩
  · obtain ⟨t, l, hfound, hl, hpass, -⟩ := hlabel.passes
    refine (contra ?_).elim
    have htext : st₀.rest = t ++ (l ++ ':' :: st₂.rest) := by simp [hpass.1]
    rw [htext]
    refine takes_suffixed_of_name hfound.found ?_
    rw [List.drop_left, startsRule_congr (hl.skip.trans hl.skip_rest.symm)]
    exact (ends_colon st₂.rest).rule
  · rcases prefixed_eq_matched h with ⟨op, l, st₂, body, hl, hp, hbody, he⟩ | ⟨st₂, hp, h, -⟩
    · cases op with
      | text =>
          refine (contra ?_).elim
          rw [hp.1]
          exact takes_suffixed_text hl hbody hdefinition
      | and => exact .inr (.inl ⟨.and, l, st₂, body, by decide, hl, hp₀.trans hp, hbody, he⟩)
      | not => exact .inr (.inl ⟨.not, l, st₂, body, by decide, hl, hp₀.trans hp, hbody, he⟩)
    · exact .inr (.inr ⟨st₂, e, hp.eq_rest, h⟩)

end Operands

end Reader

end PegGrammar
