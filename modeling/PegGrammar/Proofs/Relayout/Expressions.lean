import PegGrammar.Proofs.Relayout.Rows

namespace PegGrammar

open Reader

variable {C : Relayout} {st st' st₀ st₁ st₂ : State} {e : Node} {es : List Node}
  {s t u v l F H G : Text} {n m : Nat}

namespace Relayout

section Actions

theorem reads_block {code : String} {range : ByteRange} (h : st.PassesBlock code range st')
    (H : Text) : C.Reads codeBlock st.offset (Printer.block code ++ H)
      (fun token => token.value = code ∧ C.new token.range = C.old range) st'.offset H := by
  rw [h.range_eq, h.passes.2]
  exact reads_codeBlock h.balanced _ H

theorem refuses_code (hF : Next (· ≠ '{') (skipTrivia F)) :
    Refuses (do trivia; codeBlock) F :=
  takes_trivia.bind_refuses fun _ _ => refuses_codeBlock hF

theorem keeps_action_plain (hkeeps : ∀ C, KeepsBelow C st)
    (h : sequence expression st = .matched e st₁) (hend : st₁.Passes [] st') (hp : st.Passes t st')
    (ht : t ≠ []) (hskip : skipTrivia st.rest = st.rest) (hF : ActionEnd st'.rest H)
    (hallow : C.Allows e.anchors st.offset st'.offset) :
    C.Reads (action expression) st.offset (C.tight st.offset t ++ H) (C.Same e) st'.offset H ∧
      skipTrivia (C.tight st.offset t ++ H) = C.tight st.offset t ++ H := by
  obtain ⟨u, hu⟩ := (places_sequence (fun _ _ _ => places_expression) h).passes
  obtain rfl := hp.unique (List.append_nil u ▸ hu.trans hend)
  rw [hend.eq_rest] at hF
  rw [hend.eq_offset] at hallow ⊢
  obtain ⟨hreads, hskip⟩ := (keeps_sequence hkeeps).filled h hu ht hskip hF.toSequenceEnd hallow
  refine ⟨.located (hreads.bind fun e' hsame => ?_), hskip⟩
  apply (reads_optional_none (refuses_code hF.code)).bind
  rintro _ rfl
  exact reads_pure fun _ _ => hsame

theorem reads_action_code {body : Node} {code : String} {range : ByteRange} {X Y : Text}
    (hbody : C.Reads (sequence expression) n X (C.Same body) m Y)
    (hcode : C.Reads (do trivia; codeBlock) m Y
      (fun token => token.value = code ∧ C.new token.range = C.old range) st'.offset H) :
    C.Reads (action expression) n X
      (C.Same (.action body code range ⟨n, st'.offset⟩)) st'.offset H := by
  refine .located (hbody.bind fun body' hsame => ?_)
  apply hcode.optional.bind
  rintro _ ⟨token, rfl, rfl, htoken⟩
  refine reads_pure fun range hrange => ?_
  rw [Same, Expr.map, Expr.map, hsame, htoken, hrange]

theorem keeps_action_code {body : Node} {code : String} {range : ByteRange}
    (hkeeps : ∀ C, KeepsBelow C st)
    (h : sequence expression st = .matched body st₁) (hl : Gap l st₂.rest) (hpl : st₁.Passes l st₂)
    (hcode : st₂.PassesBlock code range st') (hp : st.Passes t st')
    (hskip : skipTrivia st.rest = st.rest)
    (hallow : C.Allows (Expr.action body code range ⟨st.offset, st'.offset⟩).anchors
      st.offset st'.offset) (H : Text) :
    C.Reads (action expression) st.offset (C.tight st.offset t ++ H)
        (C.Same (.action body code range ⟨st.offset, st'.offset⟩)) st'.offset H ∧
      skipTrivia (C.tight st.offset t ++ H) = C.tight st.offset t ++ H := by
  have hplaces := places_sequence (fun _ _ _ => places_expression) h
  obtain ⟨u, hu⟩ := hplaces.passes
  have hblock : st₂.Passes (Printer.block code) st' := hcode.passes
  obtain rfl := hp.unique (hu.trans (hpl.trans hblock))
  have hclear : C.Clear st₁.offset st'.offset :=
    hallow.clear hu.offset_le (Nat.le_refl _) <| List.forall_mem_cons.2
      ⟨.inl hu.offset_le, fun r hr => .inl (hplaces.startWithin r hr).2⟩
  have hbrace : skipTrivia (C.tight st₂.offset (Printer.block code) ++ H) =
      C.tight st₂.offset (Printer.block code) ++ H := skipTrivia_solid (c := '{') (by decide) _
  have hblank : Blank l := hl.blank (by simp [hblock.1, Printer.block])
  have hgap : C.Clear st₁.offset st₂.offset := hclear.mono (Nat.le_refl _) hblock.offset_le
  have htight : C.tight st₂.offset (Printer.block code) = Printer.block code :=
    tight_of_clear (hblock.2 ▸ hclear.mono hpl.offset_le (Nat.le_refl _))
  have hend : SequenceEnd st₁.rest (C.laid st₁.offset (l ++ Printer.block code) ++ H) := by
    rw [hpl.1, hblock.1, ← List.append_assoc]
    exact sequenceEnd_separator (c := '{') (by decide) hpl.2.symm (hblock.1 ▸ hl) hgap hbrace
  by_cases hempty : u = []
  · subst hempty
    obtain rfl : l = [] := hl.eq_nil (by rw [← hpl.1, hu.eq_rest, hskip])
    have hrest : st.rest = skipTrivia st₁.rest := by rw [hu.eq_rest, hskip]
    obtain ⟨rfl, hreads⟩ := (keeps_sequence (C := C) hkeeps).empty h hu hrest hend
    have hskip' := skipTrivia_laid hpl.2.symm hblank hgap (t := Printer.block code) (List.cons_ne_nil _ _) H
    rw [hbrace, htight] at hskip'
    rw [htight] at hbrace
    rw [hskip'] at hreads
    rw [List.nil_append, List.nil_append, ← hu.eq_offset, ← hpl.eq_offset, htight, hpl.eq_offset,
      hu.eq_offset]
    refine ⟨reads_action_code (hreads _) ?_, hbrace⟩
    rw [← hu.eq_offset, ← hpl.eq_offset]
    exact (reads_trivia_of_blank (l := []) .nil hbrace fun _ => rfl).bind fun _ _ =>
      reads_block hcode H
  · obtain ⟨hreads, hskip⟩ := (keeps_sequence hkeeps).filled h hu hempty hskip hend
      (hallow.part (Nat.le_refl _) (hpl.trans hblock).offset_le <| List.forall_mem_cons.2
        ⟨.inr (.inl (Nat.le_refl _)), fun r hr => .inl hr⟩)
    have htrivia := reads_trivia hpl.2.symm hblank hgap (t := Printer.block code) (List.cons_ne_nil _ _)
      hbrace
    rw [htight] at htrivia
    rw [tight_passes hu hempty, List.append_assoc]
    exact ⟨reads_action_code hreads (htrivia.bind fun _ _ => reads_block hcode H), hskip⟩

theorem keeps_action (hkeeps : ∀ C, KeepsBelow C st) :
    Keeps C ActionEnd (action expression) st where
  places := places_action fun _ _ _ => places_expression
  filled h hp ht hskip hE hallow := by
    obtain ⟨body, st₁, hbody, ⟨rfl, hend⟩ | ⟨l, st₂, code, range, hl, hpl, hcode, rfl⟩⟩ :=
      action_eq_matched h
    · exact keeps_action_plain hkeeps hbody hend hp ht hskip hE hallow
    · exact keeps_action_code hkeeps hbody hl hpl hcode hp hskip hallow _
  empty h hp hrest hE := by
    obtain ⟨body, st₁, hbody, ⟨rfl, hend⟩ | ⟨l, st₂, code, range, -, hpl, hcode, rfl⟩⟩ :=
      action_eq_matched h
    · obtain ⟨u, hu⟩ := (places_sequence (fun _ _ _ => places_expression) hbody).passes
      obtain ⟨rfl, -⟩ := hu.eq_nil hend hp
      obtain ⟨he, hreads⟩ := (keeps_sequence (C := C) hkeeps).empty hbody hu hrest hE.toSequenceEnd
      refine ⟨he, fun n => .located ((hreads n).bind fun e' hsame => ?_)⟩
      apply (reads_optional_none (refuses_code (by rw [skipTrivia_skipTrivia]; exact hE.code))).bind
      rintro _ rfl
      exact reads_pure fun _ _ => hsame
    · obtain ⟨u, hu⟩ := (places_sequence (fun _ _ _ => places_expression) hbody).passes
      cases ((hu.trans hpl).eq_nil hcode.passes hp).2
  nil h := by
    obtain ⟨body, st₁, hbody, ⟨rfl, hend⟩ | ⟨l, st₂, code, range, -, -, -, ⟨⟩⟩⟩ := action_eq_matched h
    exact ((keeps_sequence (C := C) hkeeps).nil hbody).trans hend

end Actions

section Alternatives

theorem next_isFollow_of_action (h : afterTrivia (action expression) st = .matched e st')
    (hF : Next IsFollow (skipTrivia st'.rest)) : Next IsFollow (skipTrivia st.rest) := by
  rcases afterTrivia_eq_matched h with ⟨l, st₁, hl, hpl, hmatch, hne⟩ | ⟨rfl, hpass, -⟩
  · rw [hpl.1, hl.skip]
    obtain ⟨body, st₂, hbody, h⟩ := action_eq_matched hmatch
    rcases opened_sequence hbody with hopened | ⟨hend, k, rfl⟩
    · exact hopened.opening.next.imp fun _ => isFollow_of_opens
    · rcases h with ⟨rfl, -⟩ | ⟨r, st₃, code, range, hr, hpr, hcode, -⟩
      · exact (hne k rfl).elim
      · obtain rfl := hr.eq_nil (by rw [← hpr.1, hend.eq_rest, hl.skip_rest])
        rw [← hend.eq_rest, hpr.1, hcode.passes.1]
        exact next_cons (by decide)
  · rwa [hpass.eq_rest] at hF

/-- A slash in front of an alternative opens no comment in the new document. -/
theorem skipTrivia_slash_action (hgap : skipTrivia ('/' :: st.rest) = '/' :: st.rest)
    (h : afterTrivia (action expression) st = .matched e st')
    (hF : Next IsFollow (skipTrivia st'.rest)) (hfront : SameFront st.rest G) :
    skipTrivia ('/' :: G) = '/' :: G := by
  have hstar : Next (· ≠ '*') st.rest := by
    rintro c hc rfl
    obtain ⟨s, hs⟩ := List.head?_eq_some_iff.1 hc
    have hfollow := next_isFollow_of_action h hF
    rw [hs, skipTrivia_solid (by decide)] at hfollow
    exact absurd (hfollow '*' rfl) (by decide)
  have hslash : Next (· ≠ '/') st.rest := ne_slash_of_skipTrivia hgap
  have hslash' := hfront.next_ne (by decide) (by decide) hslash
  have hstar' := hfront.next_ne (by decide) (by decide) hstar
  exact skipTrivia_slash_of_next fun c hc => ⟨hslash' c hc, hstar' c hc⟩

theorem reads_slash {x : Text} (hl : Gap l ('/' :: x)) (hclear : C.Clear n (n + l.byteSize))
    (hskip : skipTrivia ('/' :: G) = '/' :: G) :
    C.Reads trivia n (C.laid n (l ++ ['/']) ++ G) (fun _ => True) (n + l.byteSize) ('/' :: G) ∧
      ActionEnd (l ++ ['/'] ++ x) (C.laid n (l ++ ['/']) ++ G) ∧
      skipTrivia (C.laid n (l ++ ['/']) ++ G) = '/' :: G := by
  have hblank : Blank l := hl.blank (List.cons_ne_nil _ _)
  have htight : skipTrivia (C.tight (n + l.byteSize) ['/'] ++ G) =
      C.tight (n + l.byteSize) ['/'] ++ G := hskip
  have hlaid : skipTrivia (C.laid n (l ++ ['/']) ++ G) = '/' :: G :=
    (skipTrivia_laid rfl hblank hclear (by simp) G).trans hskip
  refine ⟨reads_trivia rfl hblank hclear (by simp) htight, ⟨?_, ?_⟩, hlaid⟩
  · exact sequenceEnd_separator (by decide) rfl hl hclear htight
  · rw [hlaid]
    exact next_cons (by decide)

theorem reads_alternatives_cons {k p : Nat} {X Y : Text}
    (htrivia : C.Reads trivia n X (fun _ => True) k ('/' :: G))
    (haction : C.Reads (afterTrivia (action expression)) (k + '/'.utf8Size) G (C.Same e) m Y)
    (hmany : C.Reads (many (alternative expression)) m Y (C.SameList es) p H)
    (hlt : Y.length < X.length) :
    C.Reads (many (alternative expression)) n X (C.SameList (e :: es)) p H := by
  have halternative : C.Reads (alternative expression) n X (C.Same e) m Y :=
    htrivia.bind fun _ _ => (reads_symbol k '/' G).bind fun _ _ => haction
  refine (halternative.many hlt hmany).imp ?_
  rintro _ ⟨e', es', rfl, hsame, hes⟩
  exact congrArg₂ List.cons hsame hes

theorem reads_alternatives (h : Runs (alternative expression) st es st')
    (hkeeps : ∀ C, KeepsBelow C st) (hp : st.Passes t st') (hF : ExpressionEnd st'.rest H)
    (hallow : C.Allows (Expr.anchorsList es) st.offset st'.offset) :
    C.Reads (many (alternative expression)) st.offset (C.laid st.offset t ++ H) (C.SameList es)
        st'.offset H ∧
      ActionEnd st.rest (C.laid st.offset t ++ H) ∧
      (t ≠ [] → skipTrivia st.rest = st.rest →
        C.Reads (many (alternative expression)) st.offset (C.tight st.offset t ++ H)
            (C.SameList es) st'.offset H ∧
          skipTrivia (C.laid st.offset t ++ H) = C.tight st.offset t ++ H) := by
  induction h generalizing t with
  | nil hend =>
      obtain rfl := hp.unique hend
      have hrefuses : Refuses (alternative expression) H :=
        takes_trivia.bind_refuses fun _ _ => (refuses_symbol hF.slash).bind
      rw [← hend.eq_rest, hend.eq_offset]
      refine ⟨(reads_many_nil hrefuses).imp ?_, hF.toActionEnd, fun hne => (hne rfl).elim⟩
      rintro _ rfl
      rfl
  | @cons st st₂ st' e es h hs ih =>
      obtain ⟨l, st₁, hl, hpl, hmatch⟩ := alternative_eq_matched h
      have hplaces := places_afterTrivia
        (fun _ _ _ => places_action fun _ _ _ => places_expression) hmatch
      obtain ⟨u, hu⟩ := hplaces.passes
      obtain ⟨⟨v, hpv⟩, -⟩ :=
        places_runs (fun _ _ _ => places_alternative fun _ _ _ => places_expression) hs
      have hothers := startWithin_runs
        (fun _ _ _ => places_alternative fun _ _ _ => places_expression) hs
      have hplu := hpl.trans hu
      obtain rfl := hp.unique (hplu.trans hpv)
      obtain ⟨hmany, hend, -⟩ := ih (fun C => (hkeeps C).passes hplu) hpv hF
        (hallow.part hplu.offset_le (Nat.le_refl _) <| List.forall_mem_append.2
          ⟨fun r hr => .inr (.inl ((hplaces.startWithin r hr).2)), fun r hr => .inl hr⟩)
      have haction := Keeps.afterTrivia (E := ActionEnd)
        (fun r st₃ hpr => keeps_action fun C => (hkeeps C).passes (hpl.trans hpr)) hmatch hu hend
        (hallow.part hpl.offset_le hpv.offset_le <| List.forall_mem_append.2
          ⟨fun r hr => .inl hr, fun r hr => .inr (.inr (hothers r hr).1)⟩)
      generalize hG : C.laid st₁.offset u ++ (C.laid st₂.offset v ++ H) = G at haction
      have hskip : skipTrivia ('/' :: G) = '/' :: G := by
        refine skipTrivia_slash_action hl.skip_rest hmatch hend.old ?_
        rw [← hG, hu.1]
        exact sameFront_laid hend.front st₁.offset u
      have hm : st.offset + l.byteSize ≤ st₁.offset := by
        rw [hpl.2, Text.byteSize_append]
        omega
      have hclear : C.Clear st.offset (st.offset + l.byteSize) :=
        hallow.clear (Nat.le_refl _) (hm.trans (hu.trans hpv).offset_le) <|
          List.forall_mem_append.2 ⟨fun r hr => .inr (hm.trans (hplaces.startWithin r hr).1),
            fun r hr => .inr ((hm.trans hu.offset_le).trans (hothers r hr).1)⟩
      have hoffset : st.offset + l.byteSize + '/'.utf8Size = st₁.offset := by
        rw [hpl.2, Text.byteSize_append, Nat.add_assoc]
        rfl
      have hlength : (C.laid st₂.offset v ++ H).length ≤ G.length := by
        rw [← hG]
        exact (List.sublist_append_right _ _).length_le
      rw [← hoffset] at haction
      obtain ⟨htrivia, hend', hlaid⟩ := reads_slash hl hclear hskip
      have htext : C.laid st.offset (l ++ ['/'] ++ u ++ v) ++ H = C.laid st.offset (l ++ ['/']) ++ G := by
        rw [laid_passes hplu, laid_passes hpl, ← hG]
        simp only [List.append_assoc]
      rw [htext]
      refine ⟨reads_alternatives_cons htrivia haction hmany ?_, hpl.1 ▸ hend', fun _ hfixed => ?_⟩
      · have hle := length_le_length_laid (C := C) st.offset (l ++ ['/'])
        simp only [List.length_append, List.length_singleton] at hle ⊢
        rw [List.length_append] at hlength
        omega
      · obtain rfl : l = [] := hl.eq_nil (by simpa [hpl.1] using hfixed)
        have htight : C.tight st.offset ([] ++ ['/'] ++ u ++ v) ++ H = '/' :: G := by
          rw [tight_passes hplu (by simp), tight_passes hpl (by simp), ← hG]
          simp [tight, laid]
        rw [htight]
        refine ⟨reads_alternatives_cons ?_ haction hmany (Nat.lt_succ_of_le hlength), hlaid⟩
        exact reads_trivia_of_blank (l := []) .nil hskip fun _ => rfl

end Alternatives

section Choices

theorem alternatives_eq_nil (h : Runs (alternative expression) st es st') (hp : st.Passes [] st') :
    es = [] := by
  cases h with
  | nil => rfl
  | @cons _ st₁ _ e es h hs =>
      obtain ⟨l, st₂, -, hpl, hmatch⟩ := alternative_eq_matched h
      obtain ⟨u, hu⟩ := (places_afterTrivia
        (fun _ _ _ => places_action fun _ _ _ => places_expression) hmatch).passes
      obtain ⟨⟨v, hv⟩, -⟩ :=
        places_runs (fun _ _ _ => places_alternative fun _ _ _ => places_expression) hs
      have hempty := (hpl.eq_nil (hu.trans hv) hp).1
      simp at hempty

theorem reads_choice {first : Node} {k : Nat} {X Y Z : Text}
    (hfirst : C.Reads (action expression) n X (C.Same first) m Y)
    (hothers : C.Reads (many (alternative expression)) m Y (C.SameList es) k Z)
    (he : (es = [] ∧ e = first) ∨ (es ≠ [] ∧ e = .choice (first :: es) ⟨n, k⟩)) :
    C.Reads (choice expression) n X (C.Same e) k Z := by
  refine .located (hfirst.bind fun first' hsame => hothers.bind fun es' hes => ?_)
  split
  next =>
    have hnil : es = [] := by
      cases es with
      | nil => rfl
      | cons => cases hes
    rcases he with ⟨-, rfl⟩ | ⟨hne, -⟩
    · exact reads_pure fun _ _ => hsame
    · exact (hne hnil).elim
  next hne =>
    rcases he with ⟨rfl, -⟩ | ⟨-, rfl⟩
    · rw [SameList, Expr.mapList_eq_map, Expr.mapList, List.map_eq_nil_iff] at hes
      exact (hne hes).elim
    · refine reads_pure fun range hrange => ?_
      rw [Same, Expr.map, Expr.map, Expr.mapList, Expr.mapList, hsame, hes, hrange]

theorem keeps_choice (hkeeps : ∀ C, KeepsBelow C st) :
    Keeps C ExpressionEnd (choice expression) st where
  places := places_choice fun _ _ _ => places_expression
  filled := by
    intro e st' t H h hp ht hskip hE hallow
    obtain ⟨first, others, st₁, hfirst, hothers, he⟩ := choice_eq_matched h
    have hplaces := places_action (fun _ _ _ => places_expression) hfirst
    obtain ⟨u, hu⟩ := hplaces.passes
    obtain ⟨⟨v, hv⟩, -⟩ :=
      places_runs (fun _ _ _ => places_alternative fun _ _ _ => places_expression) hothers
    have hwithin := startWithin_runs
      (fun _ _ _ => places_alternative fun _ _ _ => places_expression) hothers
    obtain rfl := hp.unique (hu.trans hv)
    have hanchors : ∀ r ∈ e.anchors,
        r ∈ first.anchors ∨ r ∈ Expr.anchorsList others ∨ r.start ≤ st.offset := by
      intro r hr
      rcases he with ⟨-, rfl⟩ | ⟨-, rfl⟩
      · exact .inl hr
      · rcases List.mem_cons.1 hr with rfl | hr
        · exact .inr (.inr (Nat.le_refl _))
        · exact (List.mem_append.1 hr).imp_right .inl
    obtain ⟨hmany, hend, htight⟩ := reads_alternatives hothers (fun C => (hkeeps C).passes hu) hv hE
      (hallow.part hu.offset_le (Nat.le_refl _) fun r hr => by
        rcases hanchors r hr with hr | hr | hr
        · exact .inr (.inl (hplaces.startWithin r hr).2)
        · exact .inl hr
        · exact .inr (.inl (hr.trans hu.offset_le)))
    by_cases hempty : u = []
    · subst hempty
      have hfixed : skipTrivia st₁.rest = st₁.rest := by rw [hu.eq_rest, hskip]
      obtain ⟨rfl, hreads⟩ := (keeps_action (C := C) hkeeps).empty hfirst hu
        (hu.eq_rest.symm.trans hfixed.symm) hend
      obtain ⟨hmany, hlaid⟩ := htight ht hfixed
      rw [hlaid] at hreads
      rw [hu.eq_offset] at hmany hreads hlaid
      refine ⟨reads_choice (hreads _) hmany he, ?_⟩
      rw [List.nil_append, ← hlaid, skipTrivia_skipTrivia]
    · obtain ⟨hreads, hskip⟩ := (keeps_action hkeeps).filled hfirst hu hempty hskip hend
        (hallow.part (Nat.le_refl _) hv.offset_le fun r hr => by
          rcases hanchors r hr with hr | hr | hr
          · exact .inl hr
          · exact .inr (.inr (hwithin r hr).1)
          · exact .inr (.inl hr))
      rw [tight_passes hu hempty, List.append_assoc]
      exact ⟨reads_choice hreads hmany he, hskip⟩
  empty := by
    intro e st' F H h hp hrest hE
    obtain ⟨first, others, st₁, hfirst, hothers, he⟩ := choice_eq_matched h
    obtain ⟨u, hu⟩ := (places_action (fun _ _ _ => places_expression) hfirst).passes
    obtain ⟨⟨v, hv⟩, -⟩ :=
      places_runs (fun _ _ _ => places_alternative fun _ _ _ => places_expression) hothers
    obtain ⟨rfl, rfl⟩ := hu.eq_nil hv hp
    obtain rfl := alternatives_eq_nil hothers hv
    obtain ⟨-, rfl⟩ : [] = [] ∧ _ = first := he.resolve_right fun h => h.1 rfl
    obtain ⟨he, hreads⟩ := (keeps_action (C := C) hkeeps).empty hfirst hu hrest hE.toActionEnd
    have hslash := hE.slash
    rw [← skipTrivia_skipTrivia] at hslash
    have hmany {n : Nat} : C.Reads (many (alternative expression)) n (skipTrivia H)
        (C.SameList []) n (skipTrivia H) := by
      refine (reads_many_nil (takes_trivia.bind_refuses fun _ _ =>
        (refuses_symbol hslash).bind)).imp ?_
      rintro _ rfl
      rfl
    exact ⟨he, fun n => reads_choice (hreads n) hmany (.inl ⟨rfl, rfl⟩)⟩
  nil h := by
    obtain ⟨first, others, st₁, hfirst, hothers, ⟨rfl, rfl⟩ | ⟨-, ⟨⟩⟩⟩ := choice_eq_matched h
    cases hothers with
    | nil hend => exact ((keeps_action (C := C) hkeeps).nil hfirst).trans hend

end Choices

/-- Every expression is read in the new document as it was in the old one. -/
theorem keeps_expression (C : Relayout) (st : State) : Keeps C ExpressionEnd expression st := by
  induction hn : st.remaining using Nat.strong_induction_on generalizing C st with
  | _ k ih =>
      have hkeeps : Keeps C ExpressionEnd (choice expression) st :=
        keeps_choice fun C st₁ hlt => ih _ (hn ▸ hlt) C st₁ rfl
      rwa [← expression_eq_choice] at hkeeps

end Relayout

end PegGrammar
