import PegGrammar.Proofs.Relayout.Elements
import PegGrammar.Proofs.ShapeReading

namespace PegGrammar

open Reader

variable {st st' st₀ st₁ st₂ : State} {e : Node} {es : List Node} {s t u v l F H : Text} {n m : Nat}

namespace Reader

def element (inner : Reader Node) : Reader Node := do
  trivia
  labeled inner

theorem element_eq_matched (h : element expression st = .matched e st') :
    ∃ l st₁, Gap l st₁.rest ∧ st.Passes l st₁ ∧ labeled expression st₁ = .matched e st' := by
  obtain ⟨_, st₁, ht, h⟩ := bind_eq_matched.1 h
  obtain ⟨l, hl, hp⟩ := trivia_eq_matched ht
  exact ⟨l, st₁, hl, hp, h⟩

theorem remaining_lt_of_element (h : element expression st = .matched e st') :
    st'.remaining < st.remaining := by
  obtain ⟨l, st₁, -, hp, h⟩ := element_eq_matched h
  obtain ⟨u, hu, hpass⟩ := (opened_labeled h).passes
  have hlength := List.length_pos_iff.2 hu
  rw [(hp.trans hpass).remaining_eq, List.length_append]
  omega

theorem elements_stop (h : elements expression st = .matched es st')
    (hskip : skipTrivia st.rest = st.rest) :
    ∃ st₁ f, st₁.rest = skipTrivia st'.rest ∧ labeled expression st₁ = .unmatched f := by
  obtain ⟨o, st₁, ho, h⟩ := bind_eq_matched.1 h
  cases o with
  | none =>
      obtain ⟨rfl, rfl⟩ := pure_eq_matched.1 h
      obtain ⟨f, hnone⟩ := optional_eq_none ho
      rcases optional_eq_matched ho with ⟨_, ⟨⟩, -⟩ | ⟨-, hp⟩
      exact ⟨st, f, by rw [hp.eq_rest, hskip], hnone⟩
  | some first =>
      obtain ⟨others, st₂, hm, h⟩ := bind_eq_matched.1 h
      obtain ⟨rfl, rfl⟩ := pure_eq_matched.1 h
      obtain ⟨st₃, f, hrest, hnone⟩ := many_stops hm fun _ _ _ => remaining_lt_of_element
      obtain ⟨_, st₄, -, hskip, hnone⟩ := takes_trivia.unmatched_of_bind hrest hnone
      exact ⟨st₄, f, hskip, hnone⟩

theorem opened_sequence (h : sequence expression st = .matched e st') :
    Opened st st' ∨ st.Passes [] st' ∧ ∃ k, e = .sequence [] k := by
  obtain ⟨es, hes, he⟩ := sequence_eq_matched h
  rcases elements_eq_matched hes with ⟨rfl, hend⟩ | ⟨first, others, st₁, rfl, hfirst, hothers⟩
  · rcases he with ⟨⟨⟩, -⟩ | ⟨-, rfl⟩
    exact .inr ⟨hend, _, rfl⟩
  · obtain ⟨⟨v, hpv⟩, -⟩ :=
      places_runs (fun _ _ _ => places_element fun _ _ _ => places_expression) hothers
    exact .inl ((opened_labeled hfirst).append hpv)

end Reader

namespace Relayout

variable {C : Relayout} {f : Failures}

section Operands

/-- A layout of texts in front of `n` in which nothing is put in. Offsets are not compared. -/
def untouched (n : Nat) : Relayout where
  place := n
  blank := [' ']
  shift := 0
  isBlank := by simp; decide

/-- Whether an operand is read depends on the text ahead alone. -/
theorem suffixed_ne_unmatched (hkeeps : ∀ C, KeepsBelow C st)
    (h : suffixed expression st = .matched e st') (hF : Next IsFollow (skipTrivia st'.rest))
    (hrest : st₁.rest = st.rest) : suffixed expression st₁ ≠ .unmatched f := by
  obtain ⟨t, ht, hp⟩ := (opened_suffixed h).passes
  have hclear : (untouched st'.offset).Clear st.offset st'.offset := .inr (.inr (Nat.le_refl _))
  have hreads := keeps_suffixed (hkeeps (untouched st'.offset)) h hp
    ⟨fun _ hc => .inr (.inr hc), id, id⟩
    (hF.imp fun c hc => ⟨hc.ne (by decide), hc.ne (by decide), hc.ne (by decide)⟩) (.inl hclear)
  rw [tight_of_clear (hp.2 ▸ hclear), ← hp.1, ← hrest] at hreads
  obtain ⟨_, _, hmatch, -⟩ := hreads st₁ rfl (by simp [Meets, untouched])
  rw [hmatch]
  exact nofun

theorem refuses_suffixed_element (hkeeps : ∀ C, KeepsBelow C st)
    (h : labeled expression st = .matched e st') (hp : st.Passes t st') (hF : ElementEnd st'.rest H)
    (hallow : C.Allows e.anchors st.offset st'.offset) (hrest : st₁.rest = st.rest)
    (hnone : suffixed expression st₁ = .unmatched f) :
    Refuses (suffixed expression) (C.tight st.offset t ++ H) := by
  obtain ⟨v, hv, hpv⟩ := (opened_labeled h).passes
  obtain rfl := hp.unique hpv
  rcases operand_cases h hF.old hrest hnone with ⟨s, hs⟩ |
    ⟨op, l, st₂, body, hop, hl, hpl, hbody, rfl⟩ | ⟨st₂, e', hrest', hmatch⟩
  · have hat : Next (· = '@') st.rest := hs ▸ next_cons rfl
    exact refuses_suffixed_shut ((next_tight hat hp hv H).imp fun c hc => .inr hc)
  · obtain ⟨w, hw, hpw⟩ := (opened_suffixed hbody).passes
    obtain rfl := hp.unique (hpl.trans hpw)
    obtain ⟨hclear, -⟩ := hallow.of_prefixed hbody hpl
    have hm : st.offset + op.symbol.utf8Size + l.byteSize = st₂.offset := by
      rw [hpl.2, Text.byteSize_cons, Nat.add_assoc]
    have hskip := skipTrivia_laid hm (hl.blank (opened_suffixed hbody).opening.ne_nil) hclear hw H
    rw [skipTrivia_tight (opened_suffixed hbody) hpw] at hskip
    have hbrace : Next (· ≠ '{')
        (skipTrivia (C.laid (st.offset + op.symbol.utf8Size) (l ++ w) ++ H)) := by
      rw [hskip]
      refine (next_tight (opened_suffixed hbody).opening.next hpw hw H).imp ?_
      rintro c hc rfl
      exact absurd hc (by decide)
    cases op with
    | text => exact (hop rfl).elim
    | and => exact refuses_suffixed (refuses_primary_mark .positive hbrace)
    | not => exact refuses_suffixed (refuses_primary_mark .negative hbrace)
  · have hremaining : st₂.remaining = st.remaining := by
      rw [st₂.remaining_eq, st.remaining_eq, hrest']
    refine (suffixed_ne_unmatched (fun C st₃ hlt => hkeeps C st₃ (hremaining ▸ hlt)) hmatch hF.old
      (hrest.trans hrest'.symm) hnone).elim

theorem elementEnd_labeled (hkeeps : ∀ C, KeepsBelow C st₁)
    (h : labeled expression st₁ = .matched e st') (hl : Gap l st₁.rest) (hpl : st.Passes l st₁)
    (hu : st₁.Passes u st') (hF : ElementEnd st'.rest H)
    (hallow : C.Allows e.anchors st.offset st'.offset) (hmeets : ∃ k, C.Meets st₁.offset k) :
    ElementEnd st.rest (C.laid st.offset (l ++ u) ++ H) := by
  have hopened := opened_labeled h
  have hwithin := (places_labeled (fun _ _ _ => places_expression) h).startWithin
  obtain ⟨v, hv, hpv⟩ := hopened.passes
  obtain rfl := hu.unique hpv
  have hallow' : C.Allows e.anchors st₁.offset _ :=
    hallow.part hpl.offset_le (Nat.le_refl _) fun r hr => .inl hr
  have hclear : C.Clear st.offset st₁.offset :=
    hallow.clear (Nat.le_refl _) hu.offset_le fun r hr => .inr (hwithin r hr).1
  have hrule : startsRule (C.tight st₁.offset u ++ H) = false := by
    obtain ⟨st₂, e', st₃, hmatch, -, hrest, hrest'⟩ :=
      (keeps_labeled (hkeeps C) h hu hF hallow').exists_run hmeets
    rw [← hrest]
    refine startsRule_of_labeled hmatch ?_
    rw [hrest']
    exact hF.new.imp fun c hc => ⟨hc.ne (by decide), hc.ne (by decide)⟩
  rw [hpl.1, hu.1, ← List.append_assoc]
  refine elementEnd_element hpl.2.symm (hu.1 ▸ hl) hclear hv (hu.1 ▸ hopened.opening) hrule ?_
  intro st₂ f hrest hnone
  exact refuses_suffixed_element hkeeps h hu hF hallow' (hrest.trans hu.1.symm) hnone

end Operands

theorem reads_row (h : Runs (element expression) st es st') (hkeeps : ∀ C, KeepsBelow C st)
    (hp : st.Passes t st') (hF : SequenceEnd st'.rest H)
    (hstop : ∃ st₁ f, st₁.rest = skipTrivia st'.rest ∧ labeled expression st₁ = .unmatched f)
    (hallow : C.Allows (Expr.anchorsList es) st.offset st'.offset)
    (hmeets : ∃ k, C.Meets st.offset k) :
    C.Reads (many (element expression)) st.offset (C.laid st.offset t ++ H) (C.SameList es)
        st'.offset H ∧
      ElementEnd st.rest (C.laid st.offset t ++ H) := by
  induction h generalizing t with
  | nil hend =>
      obtain rfl := hp.unique hend
      obtain ⟨st₁, f, hrest, hnone⟩ := hstop
      have hrefuses : Refuses (element expression) H :=
        takes_trivia.bind_refuses fun _ _ => hF.element st₁ f hrest hnone
      rw [← hend.eq_rest, hend.eq_offset]
      refine ⟨(reads_many_nil hrefuses).imp ?_, hF.toElementEnd⟩
      rintro _ rfl
      rfl
  | @cons st st₂ st' e es h hs ih =>
      obtain ⟨l, st₁, hl, hpl, hmatch⟩ := element_eq_matched h
      have hopened := opened_labeled hmatch
      obtain ⟨u, hu, hpu⟩ := hopened.passes
      obtain ⟨⟨v, hpv⟩, -⟩ :=
        places_runs (fun _ _ _ => places_element fun _ _ _ => places_expression) hs
      have hfirst := (places_labeled (fun _ _ _ => places_expression) hmatch).startWithin
      have hothers := startWithin_runs
        (fun _ _ _ => places_element fun _ _ _ => places_expression) hs
      have hplu := hpl.trans hpu
      obtain rfl := hp.unique (hplu.trans hpv)
      obtain ⟨k, hk⟩ := hmeets
      have hmeets {st₂ : State} {w : Text} (hw : st.Passes w st₂) : ∃ k, C.Meets st₂.offset k :=
        ⟨_, hw.2 ▸ hk.add _⟩
      obtain ⟨hreads, hend⟩ := ih (fun C => (hkeeps C).passes hplu) hpv hF hstop
        (hallow.part hplu.offset_le (Nat.le_refl _) <| List.forall_mem_append.2
          ⟨fun r hr => .inr (.inl ((hfirst r hr).2)), fun r hr => .inl hr⟩) (hmeets hplu)
      have hallow' : C.Allows e.anchors st.offset st₂.offset :=
        hallow.part (Nat.le_refl _) hpv.offset_le <| List.forall_mem_append.2
          ⟨fun r hr => .inl hr, fun r hr => .inr (.inr (hothers r hr).1)⟩
      have helement := keeps_labeled (hkeeps C |>.passes hpl) hmatch hpu hend
        (hallow'.part hpl.offset_le (Nat.le_refl _) fun r hr => .inl hr)
      have hclear : C.Clear st.offset st₁.offset :=
        hallow'.clear (Nat.le_refl _) hpu.offset_le fun r hr => .inr (hfirst r hr).1
      rw [laid_passes hplu, List.append_assoc]
      refine ⟨?_, elementEnd_labeled (fun C => (hkeeps C).passes hpl) hmatch hl hpl hpu hend hallow'
        (hmeets hpl)⟩
      have htrivia := reads_trivia hpl.2.symm (hl.blank hopened.opening.ne_nil) hclear hu
        (skipTrivia_tight hopened hpu (C.laid st₂.offset v ++ H))
      refine ((htrivia.bind fun _ _ => helement).many ?_ hreads).imp ?_
      · have hlength := (List.length_pos_iff.2 (List.append_ne_nil_of_right_ne_nil l hu)).trans_le
          (length_le_length_laid (C := C) st.offset (l ++ u))
        simp only [List.length_append] at hlength ⊢
        omega
      · rintro _ ⟨e', es', rfl, hsame, hes⟩
        exact congrArg₂ List.cons hsame hes

theorem keeps_elements (hkeeps : ∀ C, KeepsBelow C st) (h : elements expression st = .matched es st')
    (hp : st.Passes t st') (ht : t ≠ []) (hskip : skipTrivia st.rest = st.rest)
    (hF : SequenceEnd st'.rest H) (hallow : C.Allows (Expr.anchorsList es) st.offset st'.offset) :
    C.Reads (elements expression) st.offset (C.tight st.offset t ++ H) (C.SameList es) st'.offset H ∧
      Opened st st' := by
  have hstop := elements_stop h hskip
  rcases elements_eq_matched h with ⟨rfl, hend⟩ | ⟨first, others, st₁, rfl, hfirst, hothers⟩
  · exact (ht (hp.unique hend)).elim
  have hopened := opened_labeled hfirst
  obtain ⟨u, hu, hpu⟩ := hopened.passes
  obtain ⟨⟨v, hpv⟩, -⟩ :=
    places_runs (fun _ _ _ => places_element fun _ _ _ => places_expression) hothers
  have hwithin := (places_labeled (fun _ _ _ => places_expression) hfirst).startWithin
  have hwithin' := startWithin_runs
    (fun _ _ _ => places_element fun _ _ _ => places_expression) hothers
  obtain rfl := hp.unique (hpu.trans hpv)
  refine ⟨reads_of_meets fun ⟨k, hk⟩ => ?_, hopened.append hpv⟩
  obtain ⟨hmany, hend⟩ := reads_row (H := H) hothers (fun C => (hkeeps C).passes hpu) hpv hF hstop
    (hallow.part hpu.offset_le (Nat.le_refl _) <| List.forall_mem_append.2
      ⟨fun r hr => .inr (.inl (hwithin r hr).2), fun r hr => .inl hr⟩) ⟨_, hpu.2 ▸ hk.add _⟩
  have hreads := keeps_labeled (hkeeps C) hfirst hpu hend
    (hallow.part (Nat.le_refl _) hpv.offset_le <| List.forall_mem_append.2
      ⟨fun r hr => .inl hr, fun r hr => .inr (.inr (hwithin' r hr).1)⟩)
  rw [tight_passes hpu hu, List.append_assoc]
  apply hreads.optional.bind
  rintro _ ⟨e, rfl, hsame⟩
  exact hmany.bind fun es hes => reads_pure (congrArg₂ List.cons hsame hes)

/-- What becomes of the elements in a row, laid out anew. -/
theorem reads_sequence {es : List Node} {s r : Text}
    (h : C.Reads (elements expression) n s (C.SameList es) m r)
    (he : (es = [e] ∧ e.isPick = false) ∨
      ((∀ x, es = [x] → x.isPick = true) ∧ e = .sequence es ⟨n, m⟩)) :
    C.Reads (sequence expression) n s (C.Same e) m r := by
  refine .located (h.bind fun es' hes => ?_)
  rw [SameList, Expr.mapList_eq_map, Expr.mapList_eq_map] at hes
  split
  next x' =>
    obtain ⟨x, rfl, hx⟩ := List.map_eq_singleton_iff.1 hes.symm
    have hpick : x'.isPick = x.isPick := by
      rw [← Expr.isPick_map C.new, ← hx, Expr.isPick_map]
    refine reads_pure fun range hrange => ?_
    rw [hpick]
    rcases he with ⟨hsingle, hnone⟩ | ⟨hall, rfl⟩
    · obtain rfl := (List.cons.inj hsingle).1
      rw [if_neg (by simp [hnone])]
      exact hx.symm
    · rw [if_pos (hall x rfl), Same, Expr.map, Expr.map, Expr.mapList_eq_map, Expr.mapList_eq_map,
        hes, hrange]
  next es' hne =>
    have hmany (x : Node) : es ≠ [x] := by
      rintro rfl
      obtain ⟨x', rfl, -⟩ := List.map_eq_singleton_iff.1 hes
      exact hne x' rfl
    rcases he with ⟨hsingle, -⟩ | ⟨-, rfl⟩
    · exact (hmany e hsingle).elim
    · refine reads_pure fun range hrange => ?_
      rw [Same, Expr.map, Expr.map, Expr.mapList_eq_map, Expr.mapList_eq_map, hes, hrange]

theorem keeps_sequence (hkeeps : ∀ C, KeepsBelow C st) :
    Keeps C SequenceEnd (sequence expression) st where
  places := places_sequence fun _ _ _ => places_expression
  filled h hp ht hskip hE hallow := by
    obtain ⟨es, hes, he⟩ := sequence_eq_matched h
    obtain ⟨hreads, hopened⟩ := keeps_elements hkeeps hes hp ht hskip hE (by
      rcases he with ⟨rfl, -⟩ | ⟨-, rfl⟩
      · simpa [Expr.anchorsList] using hallow
      · exact hallow.part (Nat.le_refl _) (Nat.le_refl _) <| List.forall_mem_cons.2
          ⟨.inr (.inl (Nat.le_refl _)), fun r hr => .inl hr⟩)
    exact ⟨reads_sequence hreads he, skipTrivia_tight hopened hp _⟩
  empty h hp hrest hE := by
    obtain ⟨es, hes, he⟩ := sequence_eq_matched h
    obtain ⟨st₁, f, hrest', hnone⟩ := elements_stop hes (by rw [hrest, skipTrivia_skipTrivia])
    rw [hp.eq_rest, hrest, skipTrivia_skipTrivia] at hrest'
    rcases elements_eq_matched hes with ⟨rfl, -⟩ | ⟨first, others, st₂, rfl, hfirst, hothers⟩
    · rcases he with ⟨⟨⟩, -⟩ | ⟨-, rfl⟩
      have hnil : ∀ x : Node, [] = [x] → x.isPick = true := nofun
      refine ⟨by rw [hp.eq_offset], fun n => reads_sequence ?_ (.inr ⟨hnil, rfl⟩)⟩
      apply (reads_optional_none (hE.element st₁ f hrest' hnone)).bind
      rintro _ rfl
      exact reads_pure rfl
    · obtain ⟨u, hu, hpu⟩ := (opened_labeled hfirst).passes
      obtain ⟨⟨v, hpv⟩, -⟩ :=
        places_runs (fun _ _ _ => places_element fun _ _ _ => places_expression) hothers
      exact (hu (hpu.eq_nil hpv hp).1).elim
  nil h := by
    obtain ⟨es, hes, he⟩ := sequence_eq_matched h
    rcases elements_eq_matched hes with ⟨rfl, hend⟩ | ⟨first, others, st₂, rfl, hfirst, -⟩
    · exact hend
    · rcases he with ⟨⟨⟩, -⟩ | ⟨-, ⟨⟩⟩
      have hsequence := (shaped_labeled (N := fun _ => True) (fun _ => trivial)
        (fun _ _ _ => shaped_expression fun _ => trivial) hfirst).2
      cases hsequence

end Relayout

end PegGrammar
