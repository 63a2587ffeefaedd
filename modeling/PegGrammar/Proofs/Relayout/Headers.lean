import PegGrammar.Proofs.Relayout.Ends
import PegGrammar.Proofs.Relayout.Elements

namespace PegGrammar

open Reader PegGrammar.Expr

variable {C : Relayout} {s t u l r x y F H : Text} {n d : String} {v : Bool} {c : Char}
  {display : Option (String × Bool)}

theorem Gap.change (h : Gap l (c :: x)) (hc : Solid c) (y : Text) : Gap l (c :: y) :=
  .of_skip ((h.blank (List.cons_ne_nil c x) (c :: y)).trans (skipTrivia_solid hc y))

theorem Gap.nameEnds (h : Gap l s) (hs : Name.Ends s) (hne : s ≠ []) : Name.Ends (l ++ s) := by
  cases l with
  | nil => exact hs
  | cons c l => exact (h.blank hne).nameEnds _

namespace Reader.HeaderFound

theorem change (h : HeaderFound u display ('=' :: x)) (y : Text) :
    HeaderFound u display ('=' :: y) := by
  cases display with
  | none => exact Gap.change h (by decide) y
  | some d =>
      obtain ⟨d, v⟩ := d
      obtain ⟨k, s, l, r, rfl, hk, hs, hl, hr⟩ := h
      obtain ⟨q, s, rfl, hq, -⟩ := hs.exists_cons
      refine ⟨k, q :: s, l, r, rfl, hk.change (solid_of_opens (opens_of_mem_elementMarks hq)) _,
        ⟨StringLiteral.stringLiteral_append hs.found _⟩, ?_, hr.change (by decide) y⟩
      cases v with
      | true => exact Gap.change (c := '~') hl (by decide) _
      | false => exact Gap.change (c := '=') hl (by decide) _

theorem nameEnds (h : HeaderFound u display ('=' :: x)) : Name.Ends (u ++ '=' :: x) := by
  cases display with
  | none =>
      exact Gap.nameEnds h (nameEnds_of_head (by decide +kernel) (by decide)) (List.cons_ne_nil _ _)
  | some d =>
      obtain ⟨k, s, l, r, rfl, hk, hs, -, -⟩ := h
      obtain ⟨q, s, rfl, hq, -⟩ := hs.exists_cons
      have hends := Gap.nameEnds hk (nameEnds_of_mem_elementMarks hq _) (List.cons_ne_nil _ _)
      simpa using hends

theorem next (h : HeaderFound u display ('=' :: x)) :
    Next (· ≠ ':') (skipTrivia (u ++ '=' :: x)) := by
  cases display with
  | none =>
      rw [Gap.skip h]
      exact next_cons (by decide)
  | some d =>
      obtain ⟨k, s, l, r, rfl, hk, hs, -, -⟩ := h
      obtain ⟨q, s, rfl, hq, -⟩ := hs.exists_cons
      have hskip := hk.skip
      simp only [List.append_assoc] at hskip ⊢
      rw [hskip]
      exact next_cons ((isFollow_of_opens (opens_of_mem_elementMarks hq)).ne (by decide))

theorem startsRule (h : HeaderFound u display ('=' :: x)) :
    startsRule (u ++ '=' :: x) = true := by
  cases display with
  | none =>
      rw [Reader.startsRule, Gap.skip h]
      rfl
  | some d =>
      obtain ⟨d, v⟩ := d
      obtain ⟨k, s, l, r, rfl, hk, hs, hl, hr⟩ := h
      have hskip := hk.skip
      simp only [List.append_assoc] at hskip ⊢
      rw [Reader.startsRule, hskip, hs.found]
      simp only [List.drop_left, hl.skip]
      cases v with
      | true => simp [verboseMark, hr.skip]
      | false => rfl

end Reader.HeaderFound

namespace Relayout

variable {k m : Nat}

section Reading

theorem reads_succeeds {p : Reader Unit} (h : C.Reads p k s (fun _ => True) m r) :
    C.Reads (succeeds p) k s (· = true) m r :=
  .orElse (h.bind fun _ _ => reads_pure rfl)

theorem reads_succeeds_not {p : Reader Unit} (h : Refuses p s) :
    C.Reads (succeeds p) k s (· = false) k s :=
  .orElse_right h.bind (reads_pure rfl)

theorem reads_verbose (hr : Gap r ('=' :: y)) (k : Nat) :
    C.Reads (succeeds do
        symbol '~'
        trivia) k (verboseMark v r ++ '=' :: y) (· = v)
      (k + Text.byteSize (verboseMark v r)) ('=' :: y) := by
  cases v with
  | true =>
      have hoffset : k + Text.byteSize (verboseMark true r) = k + '~'.utf8Size + r.byteSize :=
        (Nat.add_assoc _ _ _).symm
      rw [hoffset]
      refine reads_succeeds ((reads_symbol k '~' (r ++ '=' :: y)).bind fun _ _ => ?_)
      exact reads_trivia_of_blank (hr.blank (List.cons_ne_nil _ _)) hr.skip_rest fun _ => rfl
  | false => exact reads_succeeds_not (refuses_symbol (next_cons (by decide))).bind

theorem reads_displayName (hs : StringFound s d (l ++ (verboseMark v r ++ '=' :: y)))
    (hl : Gap l (verboseMark v r ++ '=' :: y)) (hr : Gap r ('=' :: y)) (k : Nat) :
    C.Reads displayName k (s ++ (l ++ (verboseMark v r ++ '=' :: y))) (· = (d, v))
      (k + s.byteSize + l.byteSize + Text.byteSize (verboseMark v r)) ('=' :: y) := by
  refine (reads_lexeme hs.found k).bind fun token htoken => ?_
  refine (reads_trivia_of_blank (hl.blank (by simp)) hl.skip_rest fun _ => rfl).bind fun _ _ => ?_
  apply (reads_verbose hr _).bind
  rintro _ rfl
  exact reads_pure (by rw [htoken.1])

theorem reads_header (ht : NameFound t n (u ++ '=' :: y)) (hu : HeaderFound u display ('=' :: y))
    (k : Nat) :
    C.Reads header k (t ++ (u ++ '=' :: y))
      (fun h => h.1.value = n ∧ C.new h.1.range = C.old ⟨k, k + t.byteSize⟩ ∧ h.2 = display)
      (k + Text.byteSize (t ++ (u ++ ['=']))) y := by
  refine (reads_lexeme ht.found k).bind fun token htoken => ?_
  cases display with
  | none =>
      have hoffset : k + Text.byteSize (t ++ (u ++ ['='])) =
          k + t.byteSize + u.byteSize + '='.utf8Size := by
        simp [Nat.add_assoc]
      rw [hoffset]
      refine (reads_trivia_of_blank (Gap.blank hu (List.cons_ne_nil _ _)) (Gap.skip_rest hu)
        fun _ => rfl).bind fun _ _ => ?_
      have hnone : Refuses displayName ('=' :: y) := (refuses_lexeme rfl).bind
      apply (reads_optional_none hnone).bind
      rintro _ rfl
      exact (reads_symbol _ '=' y).bind fun _ _ => reads_pure ⟨htoken.1, htoken.2, rfl⟩
  | some d =>
      obtain ⟨d, v⟩ := d
      obtain ⟨l, s, l', r, rfl, hl, hs, hl', hr⟩ := hu
      have hoffset : k + Text.byteSize (t ++ (l ++ (s ++ (l' ++ verboseMark v r)) ++ ['='])) =
          k + t.byteSize + l.byteSize + s.byteSize + l'.byteSize +
            Text.byteSize (verboseMark v r) + '='.utf8Size := by
        simp [Nat.add_assoc]
      rw [hoffset]
      simp only [List.append_assoc]
      have hne : s ++ (l' ++ (verboseMark v r ++ '=' :: y)) ≠ [] := by simp
      refine (reads_trivia_of_blank (hl.blank hne) hl.skip_rest fun _ => rfl).bind fun _ _ => ?_
      apply (reads_displayName hs hl' hr _).optional.bind
      rintro _ ⟨_, rfl, rfl⟩
      exact (reads_symbol _ '=' y).bind fun _ _ => reads_pure ⟨htoken.1, htoken.2, rfl⟩

end Reading

end Relayout

section Refusals

theorem takes_literal {l : Lexeme String} (h : StringLiteral.stringLiteral s = some l) :
    ∃ e r, Finds literal s e r := by
  have accepts (s : Text) : ∃ b r, Takes (accepts 'i') s (· = b) r := by
    by_cases hi : Next (· ≠ 'i') s
    · exact ⟨false, s, accepts_not hi⟩
    · obtain ⟨c, hc, rfl⟩ : ∃ c, c ∈ s.head? ∧ c = 'i' := by simpa [Next] using hi
      obtain ⟨r, rfl⟩ := List.head?_eq_some_iff.1 hc
      exact ⟨true, r, takes_accepts⟩
  obtain ⟨b, r, haccepts⟩ := accepts (s.drop l.length)
  refine ⟨.literal l.value b (), r, .located ((takes_lexeme h).bind fun token htoken => ?_)⟩
  apply haccepts.bind
  rintro _ rfl
  exact takes_pure fun _ => by rw [htoken]; rfl

variable (ht : NameFound t n (u ++ '=' :: x)) (hu : HeaderFound u display ('=' :: x))

include ht hu

theorem NameFound.change (y : Text) : NameFound t n (u ++ '=' :: y) :=
  ht.append fun _ => Name.nameChar_of_ends (hu.change y).nameEnds

theorem refuses_suffixed_found : Refuses (suffixed expression) (t ++ (u ++ '=' :: x)) :=
  refuses_suffixed (refuses_primary_header ht.found (by rw [List.drop_left]; exact hu.startsRule))

theorem refuses_label_found : Refuses label (t ++ (u ++ '=' :: x)) :=
  refuses_label ht.found (by rw [List.drop_left]; exact hu.next)

omit ht hu in
/-- The name of a rule is taken for an operator in front of its display name. -/
theorem takes_labeled_display {d : String × Bool} (ht : NameFound ['$'] n (u ++ '=' :: x))
    (hu : HeaderFound u (some d) ('=' :: x)) :
    ∃ e r, Finds (labeled expression) ('$' :: (u ++ '=' :: x)) e r := by
  have hlabel := refuses_label_found ht hu
  obtain ⟨k, s, l, r, rfl, hk, hs, -, -⟩ := hu
  have hskip := hk.skip
  simp only [List.append_assoc] at hskip hlabel ⊢
  obtain ⟨e, m, hliteral⟩ := takes_literal hs.found
  obtain ⟨e, m, hoperand⟩ : ∃ e m, Finds (suffixed expression) _ e m :=
    takes_suffixed (.orElse hliteral)
  rw [← hskip] at hoperand
  exact ⟨_, m, finds_unlabeled (next_cons (by decide)) hlabel (finds_prefixed_op .text hoperand)⟩

/-- If no element is read where a header stands, none is read there in front of other text. -/
theorem refuses_labeled_found {st : State} {f : Failures} (hrest : st.rest = t ++ (u ++ '=' :: x))
    (hnone : labeled expression st = .unmatched f) (y : Text) :
    Refuses (labeled expression) (t ++ (u ++ '=' :: y)) := by
  have ht' := ht.change hu y
  have hu' := hu.change y
  have hhead := next_of_name ht'.found
  have hat : Next (· ≠ '@') (t ++ (u ++ '=' :: y)) :=
    hhead.imp fun c hc => hc.ne (by decide) (by decide)
  have hsuffixed := refuses_suffixed_found ht' hu'
  refine refuses_labeled hat (refuses_label_found ht' hu') ?_
  obtain ⟨c, nm, rfl⟩ := List.exists_cons_of_ne_nil ht'.ne_nil
  by_cases hc : c = '$'
  · subst hc
    refine refuses_prefixed_op .text (s := nm ++ (u ++ '=' :: y)) ?_ hsuffixed
    by_cases hnm : nm = []
    · subst hnm
      cases display with
      | none =>
          rw [List.nil_append, Gap.skip hu']
          exact refuses_suffixed_shut (next_cons (.inl (by decide)))
      | some d =>
          obtain ⟨_, _, hfinds⟩ := takes_labeled_display ht hu
          obtain ⟨_, _, hmatch, -⟩ := hfinds st hrest
          rw [hnone] at hmatch
          cases hmatch
    · rcases ht'.tail hnm with ⟨m, hm⟩ | ⟨c, t, rfl, hpart, hstart⟩
      · have hskip : skipTrivia (nm ++ (u ++ '=' :: y)) = nm ++ (u ++ '=' :: y) := by
          obtain ⟨c, t, rfl⟩ := List.exists_cons_of_ne_nil hnm
          exact skipTrivia_solid (solid_of_opens (opens_of_isNameHead (next_of_name hm c rfl))) _
        rw [hskip]
        exact refuses_suffixed_found ⟨hm⟩ hu'
      · rw [List.cons_append, skipTrivia_solid (solid_of_isNamePart hpart)]
        exact refuses_suffixed_shut (next_cons (.inl (opens_eq_false_of_inside hpart hstart)))
  · have hc' := hhead c rfl
    exact refuses_prefixed (next_cons ⟨hc, hc'.ne (by decide) (by decide),
      hc'.ne (by decide) (by decide)⟩) hsuffixed

end Refusals

/-- The header of the same rule stands here in both documents. -/
inductive SameHeader : Text → Text → Prop
  | mk {t u x : Text} {n : String} {display : Option (String × Bool)}
      (ht : NameFound t n (u ++ '=' :: x)) (hu : HeaderFound u display ('=' :: x)) (y : Text) :
      SameHeader (t ++ (u ++ '=' :: x)) (t ++ (u ++ '=' :: y))

theorem SameHeader.next (h : SameHeader x y) : Next IsNameHead x ∧ Next IsNameHead y := by
  cases h with
  | mk ht hu y => exact ⟨next_of_name ht.found, next_of_name (ht.change hu y).found⟩

theorem SameHeader.refuses_operand (h : SameHeader x y) : Refuses (suffixed expression) y := by
  cases h with
  | mk ht hu y => exact refuses_suffixed_found (ht.change hu y) (hu.change y)

theorem SameHeader.refuses_element {st : State} {f : Failures} (h : SameHeader x y)
    (hrest : st.rest = x) (hnone : labeled expression st = .unmatched f) :
    Refuses (labeled expression) y := by
  cases h with
  | mk ht hu y => exact refuses_labeled_found ht hu hrest hnone y

section Ends

variable (hfront : SameFront F H)
  (hname : Name.nameChar isNamePart F = none → Name.nameChar isNamePart H = none)

include hfront hname

theorem expressionEnd_of_shut (hold : Next (fun c => IsFollow c ∧ c ≠ '/') (skipTrivia F))
    (hnew : Next (· = ';') (skipTrivia H)) : ExpressionEnd F H where
  toSequenceEnd := by
    refine sequenceEnd_of_shut ⟨hfront, hname, fun _ => startsRule_of_next ?_⟩ ?_ ?_
    · refine hnew.imp ?_
      rintro _ rfl
      decide
    · exact hold.imp fun _ hc => hc.1
    · refine hnew.imp ?_
      rintro _ rfl
      decide +kernel
  code := by
    refine hnew.imp ?_
    rintro _ rfl
    decide
  slash := by
    refine hnew.imp ?_
    rintro _ rfl
    decide

/-- An expression ends in front of the header of the next rule. -/
theorem expressionEnd_of_header (h : SameHeader (skipTrivia F) (skipTrivia H)) :
    ExpressionEnd F H := by
  obtain ⟨hold, hnew⟩ := h.next
  refine ⟨⟨⟨⟨⟨hfront, hname, fun _ => startsRule_of_next ?_⟩, ?_, ?_, ?_⟩, ?_⟩, ?_⟩, ?_⟩
  · exact hnew.imp fun c hc => ⟨isQuote_of_isNameHead hc, hc.ne (by decide) (by decide)⟩
  · exact hold.imp fun c hc => isFollow_of_opens (opens_of_isNameHead hc)
  · exact hnew.imp fun c hc => isFollow_of_opens (opens_of_isNameHead hc)
  · exact fun _ _ _ _ => h.refuses_operand
  · exact fun _ _ hrest hnone => h.refuses_element hrest hnone
  · exact hnew.imp fun c hc => hc.ne (by decide) (by decide)
  · exact hnew.imp fun c hc => hc.ne (by decide) (by decide)

end Ends

end PegGrammar
