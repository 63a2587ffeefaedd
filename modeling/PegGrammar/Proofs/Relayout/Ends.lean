import PegGrammar.Proofs.Relayout.Layout
import PegGrammar.Proofs.Relayout.Refusals

namespace PegGrammar

open Reader

variable {C : Relayout} {m n : Nat} {c : Char} {s t u l x F H : Text}

/-- The new text begins as the old one does, unless something blank has been put in front. -/
def SameFront (F H : Text) : Prop :=
  ∀ c ∈ H.head?, isSpace c = true ∨ isLineTerminator c = true ∨ c ∈ F.head?

/-- A token ends in front of the new text as it does in front of the old one. -/
structure TokenEnd (F H : Text) : Prop where
  front : SameFront F H
  name : Name.nameChar isNamePart F = none → Name.nameChar isNamePart H = none
  rule : startsRule F = false → startsRule H = false

structure ElementEnd (F H : Text) : Prop extends TokenEnd F H where
  old : Next IsFollow (skipTrivia F)
  new : Next IsFollow (skipTrivia H)
  operand : ∀ st f, st.rest = skipTrivia F → suffixed expression st = .unmatched f →
    Refuses (suffixed expression) (skipTrivia H)

structure SequenceEnd (F H : Text) : Prop extends ElementEnd F H where
  element : ∀ st f, st.rest = skipTrivia F → labeled expression st = .unmatched f →
    Refuses (labeled expression) (skipTrivia H)

structure ActionEnd (F H : Text) : Prop extends SequenceEnd F H where
  code : Next (· ≠ '{') (skipTrivia H)

structure ExpressionEnd (F H : Text) : Prop extends ActionEnd F H where
  slash : Next (· ≠ '/') (skipTrivia H)

section Fronts

/-- What is not in front of the old text is not in front of the new one, unless it is blank. -/
theorem SameFront.next_ne (h : SameFront F H) (hspace : isSpace c = false)
    (hline : isLineTerminator c = false) (hF : Next (· ≠ c) F) : Next (· ≠ c) H := by
  rintro d hd rfl
  rcases h d hd with hd | hd | hd
  · rw [hspace] at hd
    cases hd
  · rw [hline] at hd
    cases hd
  · exact hF d hd rfl

theorem isSpace_or_isLineTerminator_of_mem_pad (h : c ∈ C.pad n) :
    isSpace c = true ∨ isLineTerminator c = true := by
  rw [Relayout.pad] at h
  split at h
  · exact C.isBlank c h
  · cases h

theorem sameFront_pad (C : Relayout) (n : Nat) (s : Text) : SameFront s (C.pad n ++ s) := by
  intro c hc
  rw [List.head?_append, Option.mem_def, Option.or_eq_some_iff] at hc
  rcases hc with hc | ⟨-, hc⟩
  · exact (isSpace_or_isLineTerminator_of_mem_pad (List.mem_of_head? hc)).imp_right .inl
  · exact .inr (.inr hc)

theorem SameFront.trans (h : SameFront F s) (h' : SameFront s H) : SameFront F H := by
  intro c hc
  rcases h' c hc with hc | hc | hc
  · exact .inl hc
  · exact .inr (.inl hc)
  · exact h c hc

theorem sameFront_cons (c : Char) (s t : Text) : SameFront (c :: s) (c :: t) :=
  fun _ hd => .inr (.inr hd)

theorem sameFront_laid_of_ne_nil (ht : t ≠ []) (n : Nat) (F H : Text) :
    SameFront (t ++ F) (C.laid n t ++ H) := by
  cases t with
  | nil => exact (ht rfl).elim
  | cons c t =>
      rw [Relayout.laid, List.append_assoc]
      exact (sameFront_cons c _ _).trans (sameFront_pad C n _)

theorem sameFront_laid (h : SameFront F H) (n : Nat) (t : Text) :
    SameFront (t ++ F) (C.laid n t ++ H) := by
  by_cases ht : t = []
  · rwa [ht]
  · exact sameFront_laid_of_ne_nil ht n F H

end Fronts

section Gaps

theorem nameChar_pad (h : Name.nameChar isNamePart s = none) (n : Nat) :
    Name.nameChar isNamePart (C.pad n ++ s) = none := by
  cases hpad : C.pad n with
  | nil => exact h
  | cons d p =>
      have hblank : Blank (d :: p) := hpad ▸ Relayout.blank_pad n
      exact Name.nameChar_of_ends (hblank.nameEnds _)

theorem nameChar_laid (hl : Blank (c :: l)) (n : Nat) (s : Text) :
    Name.nameChar isNamePart (C.laid n (c :: l) ++ s) = none := by
  rw [Relayout.laid, List.append_assoc]
  exact nameChar_pad (Name.nameChar_of_ends (hl.nameEnds _)) n

theorem tokenEnd_laid (hm : n + l.byteSize = m) (hl : Blank l) (hclear : C.Clear n m)
    (hu : u ≠ [])
    (hname : Name.nameChar isNamePart (u ++ F) = none →
      Name.nameChar isNamePart (C.tight m u ++ H) = none)
    (hrule : startsRule (u ++ F) = false →
      startsRule (C.tight m u ++ H) = false)  :
    TokenEnd (l ++ u ++ F) (C.laid n (l ++ u) ++ H) := by
  refine ⟨sameFront_laid_of_ne_nil (List.append_ne_nil_of_right_ne_nil l hu) n F H, fun h => ?_,
    fun h => ?_⟩
  · cases l with
    | nil =>
        obtain rfl : n = m := hm
        rw [List.nil_append, Relayout.laid_eq hu, List.append_assoc]
        exact nameChar_pad (hname h) n
    | cons c l =>
        rw [Relayout.laid_append, List.append_assoc]
        exact nameChar_laid hl n _
  · rw [startsRule_congr (Relayout.skipTrivia_laid hm hl hclear hu H)]
    apply hrule
    rwa [List.append_assoc, startsRule_congr (hl _)] at h

end Gaps

section Separators

def separators : List Char := ['?', '*', '+', ':', ')', '/', '{', ';']

theorem nameEnds_separator (hc : c ∈ separators) (s : Text) : Name.Ends (c :: s) := by
  have hends : ∀ c ∈ separators, isNamePart c = false ∧ c ≠ '\\' :=
    forall_mem_of_all (by decide +kernel)
  exact nameEnds_of_head (hends c hc).1 (hends c hc).2

theorem startsRule_separator (hc : c ∈ separators) (hskip : skipTrivia (c :: s) = c :: s) :
    startsRule (c :: s) = false := by
  apply startsRule_of_next
  rw [hskip]
  exact next_cons (forall_mem_of_all
    (P := fun c => StringLiteral.isQuote c = false ∧ c ≠ '=') (by decide) c hc)

theorem tokenEnd_separator (hc : c ∈ separators) (hm : n + l.byteSize = m) (hl : Blank l)
    (hclear : C.Clear n m)
    (hskip : skipTrivia (C.tight m (c :: t) ++ H) =
      C.tight m (c :: t) ++ H) :
    TokenEnd (l ++ c :: t ++ F) (C.laid n (l ++ c :: t) ++ H) :=
  tokenEnd_laid hm hl hclear (List.cons_ne_nil c t)
    (fun _ => Name.nameChar_of_ends (nameEnds_separator hc _))
    (fun _ => startsRule_separator hc hskip)

theorem sequenceEnd_of_shut (h : TokenEnd F H) (hold : Next IsFollow (skipTrivia F))
    (hnew : Next (fun c => opens c = false ∧ IsFollow c) (skipTrivia H)) : SequenceEnd F H where
  toTokenEnd := h
  old := hold
  new := hnew.imp fun _ hc => hc.2
  operand _ _ _ _ := refuses_suffixed_shut (hnew.imp fun _ hc => .inl hc.1)
  element _ _ _ _ := refuses_labeled_shut (hnew.imp fun _ hc => hc.1)

theorem sequenceEnd_separator (hc : c ∈ [')', '/', '{']) (hm : n + l.byteSize = m)
    (hl : Gap l (c :: t ++ F)) (hclear : C.Clear n m)
    (hskip : skipTrivia (C.tight m (c :: t) ++ H) =
      C.tight m (c :: t) ++ H) :
    SequenceEnd (l ++ c :: t ++ F) (C.laid n (l ++ c :: t) ++ H) := by
  have hshut : ∀ c ∈ [')', '/', '{'], c ∈ separators ∧ opens c = false ∧ IsFollow c :=
    forall_mem_of_all (by decide +kernel)
  obtain ⟨hmem, hopen, hfollow⟩ := hshut c hc
  have hblank := hl.blank (List.cons_ne_nil _ _)
  refine sequenceEnd_of_shut (tokenEnd_separator hmem hm hblank hclear hskip) ?_ ?_
  · rw [List.append_assoc, hl.skip]
    exact next_cons hfollow
  · rw [Relayout.skipTrivia_laid hm hblank hclear (List.cons_ne_nil c t), hskip]
    exact next_cons ⟨hopen, hfollow⟩

theorem expressionEnd_close (hm : n + l.byteSize = m) (hl : Gap l (')' :: F))
    (hclear : C.Clear n m) (H : Text) :
    ExpressionEnd (l ++ [')'] ++ F) (C.laid n (l ++ [')']) ++ H) := by
  have hskip : skipTrivia (C.tight m [')'] ++ H) = C.tight m [')'] ++ H :=
    skipTrivia_solid (by decide) _
  have hnew : skipTrivia (C.laid n (l ++ [')']) ++ H) = ')' :: H :=
    (Relayout.skipTrivia_laid hm (hl.blank (List.cons_ne_nil _ _)) hclear (by simp) H).trans hskip
  refine ⟨⟨sequenceEnd_separator (by decide) hm hl hclear hskip, ?_⟩, ?_⟩
  all_goals
    rw [hnew]
    exact next_cons (by decide)

end Separators

theorem elementEnd_element (hm : n + l.byteSize = m) (hl : Gap l (u ++ F))
    (hclear : C.Clear n m) (hu : u ≠ [])
    (hopening : Opening (u ++ F))
    (hrule : startsRule (C.tight m u ++ H) = false)
    (hoperand : ∀ st f, st.rest = u ++ F → suffixed expression st = .unmatched f →
      Refuses (suffixed expression) (C.tight m u ++ H)) :
    ElementEnd (l ++ u ++ F) (C.laid n (l ++ u) ++ H) := by
  have hblank := hl.blank hopening.ne_nil
  obtain ⟨c, t, rfl⟩ := List.exists_cons_of_ne_nil hu
  have hopen : opens c = true := hopening.next c rfl
  have hskip : skipTrivia (C.laid n (l ++ c :: t) ++ H) = C.tight m (c :: t) ++ H :=
    (Relayout.skipTrivia_laid hm hblank hclear hu H).trans (skipTrivia_solid (solid_of_opens hopen) _)
  refine ⟨tokenEnd_laid hm hblank hclear hu (fun hname => ?_) fun _ => hrule, ?_, ?_, ?_⟩
  · obtain ⟨d, v, hd, hmark⟩ := hopening.mark hname
    obtain rfl : c = d := (List.cons.inj hd).1
    exact Name.nameChar_of_ends (nameEnds_of_mem_elementMarks hmark _)
  · rw [List.append_assoc, hl.skip]
    exact next_cons (isFollow_of_opens hopen)
  · rw [hskip]
    exact next_cons (isFollow_of_opens hopen)
  · rw [hskip, List.append_assoc, hl.skip]
    exact hoperand

end PegGrammar
