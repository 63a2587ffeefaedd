import PegGrammar.Proofs.Relayout.Operands

namespace PegGrammar

open Reader

variable {st st' st₀ st₁ : State} {e body : Node} {s t u v l nm rest H : Text} {n : String} {c : Char}

/-- What comes behind the dollar sign at the front of a name is a name too, unless its first
character can only stand inside one. -/
theorem NameFound.tail (h : NameFound ('$' :: nm) n rest) (hnm : nm ≠ []) :
    (∃ m, Name.name (nm ++ rest) = some ⟨m, nm.length⟩) ∨
      ∃ c t, nm = c :: t ∧ isNamePart c = true ∧ isNameStart c = false := by
  have hchar : Name.nameChar isNameStart (['$'] ++ (nm ++ rest)) = some ⟨'$', ['$'].length⟩ := rfl
  have hname : Name.name ('$' :: (nm ++ rest)) = _ := Name.name_append hchar
  rw [← List.cons_append, h.found, Option.some_inj, Lexeme.mk.injEq] at hname
  have hlength : (Name.nameParts (nm ++ rest)).length = nm.length := by
    have := hname.2
    rw [List.length_cons, List.length_singleton] at this
    omega
  cases hl : Name.name (nm ++ rest) with
  | some l =>
      obtain ⟨m, k⟩ := l
      rw [(Name.nameParts_of_name hl).2] at hlength
      obtain rfl : k = nm.length := hlength
      exact .inl ⟨m, rfl⟩
  | none =>
      obtain ⟨c, t, rfl⟩ := List.exists_cons_of_ne_nil hnm
      have hstart : Name.nameChar isNameStart (c :: (t ++ rest)) = none := by
        simpa [Name.name] using hl
      have hpart : Name.nameChar isNamePart (c :: (t ++ rest)) ≠ none := by
        intro hnone
        rw [List.cons_append, Name.nameParts_of_nameChar hnone] at hlength
        cases hlength
      refine .inr ⟨c, t, rfl, ?_⟩
      rw [Name.nameChar] at hstart hpart
      split at hstart
      next => cases hstart
      next hc =>
        refine ⟨?_, by simpa using hc⟩
        by_contra hpart'
        rw [if_neg hpart'] at hpart
        exact hpart hstart

theorem opens_eq_false_of_inside (hpart : isNamePart c = true) (hstart : isNameStart c = false) :
    opens c = false := by
  rw [opens, hstart, Bool.false_or, Bool.eq_false_iff]
  intro hc
  have hmarks : ∀ c ∈ ['\\', '@', '&', '!', '(', '"', '\x27', '[', '.'], isNamePart c = false :=
    forall_mem_of_all (by decide +kernel)
  rw [hmarks c (List.contains_iff_mem.1 hc)] at hpart
  cases hpart

namespace Reader

theorem primary_operators (h : primary expression st = .matched e st') :
    Next IsNoPrefix st.rest ∨
      (∃ nm n, NameFound ('$' :: nm) n st'.rest ∧ st.Passes ('$' :: nm) st' ∧
        startsRule st'.rest = false ∧ e = .ruleRef n ⟨st.offset, st'.offset⟩) ∨
      ∃ p l st₁ code range, st.Passes (Polarity.symbol p :: l) st₁ ∧ Gap l st₁.rest ∧
        st₁.PassesBlock code range st' ∧ e = .predicate p code range ⟨st.offset, st'.offset⟩ := by
  obtain ⟨st₀, hp₀, h⟩ := primary_eq_matched h
  rw [← hp₀.eq_rest, ← hp₀.eq_offset]
  rcases h with h | h | h | h | h | h
  · obtain ⟨t, v, i, hfound, -, hp, -⟩ := literal_eq_matched h
    obtain ⟨q, u, rfl, -, hq⟩ := hfound.exists_cons
    exact .inl (hp.1 ▸ next_cons hq)
  · obtain ⟨t, body, i, hfound, -, hp, -⟩ := charClass_eq_matched h
    obtain ⟨u, rfl⟩ := hfound.exists_cons
    exact .inl (hp.1 ▸ next_cons (by decide))
  · exact .inl ((any_eq_matched h).1.1 ▸ next_cons (by decide))
  · obtain ⟨t, n, hfound, hp, hrule, he⟩ := ruleRef_eq_matched h
    obtain ⟨c, t, rfl⟩ := List.exists_cons_of_ne_nil hfound.ne_nil
    by_cases hc : c = '$'
    · subst hc
      exact .inr (.inl ⟨t, n, hfound, hp₀.trans hp, hrule, he⟩)
    · have hhead := next_of_name hfound.found c rfl
      exact .inl (hp.1 ▸ next_cons ⟨hc, hhead.ne (by decide) (by decide),
        hhead.ne (by decide) (by decide)⟩)
  · obtain ⟨p, l, st₁, code, range, hl, hp, hcode, he⟩ := predicate_eq_matched h
    exact .inr (.inr ⟨p, l, st₁, code, range, hp₀.trans hp, hl, hcode, he⟩)
  · obtain ⟨body, st₁, st₂, r, hopen, -⟩ := group_eq_matched h
    exact .inl (hopen.1 ▸ next_cons (by decide))

theorem exists_unmatched_operand {op : PrefixOp} {f : Failures} (hst : st.rest = op.symbol :: s)
    (h : operated expression st = .unmatched f) :
    ∃ st₁ f', st₁.rest = skipTrivia s ∧ suffixed expression st₁ = .unmatched f' := by
  obtain ⟨_, st₁, rfl, hrest, h⟩ :=
    (takes_prefixOp op).unmatched_of_bind hst (located_eq_unmatched h)
  obtain ⟨_, st₂, -, hskip, h⟩ := takes_trivia.unmatched_of_bind hrest h
  rcases bind_eq_unmatched.1 h with h | ⟨_, _, -, h⟩
  · exact ⟨st₂, f, hskip, h⟩
  · cases h

theorem next_ne_at_of_prefixed (h : prefixed expression st = .matched e st') :
    Next (· ≠ '@') st.rest := by
  rintro c hc rfl
  obtain ⟨s, hs⟩ := List.head?_eq_some_iff.1 hc
  have hrefuses : Refuses (prefixed expression) ('@' :: s) :=
    refuses_prefixed (next_cons (by decide)) (refuses_suffixed_shut (next_cons (.inr rfl)))
  obtain ⟨_, hnone⟩ := hrefuses st hs
  rw [h] at hnone
  cases hnone

end Reader

namespace Relayout

variable {C : Relayout} {f : Failures}

theorem next_tight {P : Char → Prop} (h : Next P st.rest) (hp : st.Passes t st') (ht : t ≠ [])
    (H : Text) : Next P (C.tight st.offset t ++ H) := by
  obtain ⟨c, t, rfl⟩ := List.exists_cons_of_ne_nil ht
  rw [hp.1] at h
  exact next_cons (h c rfl)

theorem skipTrivia_tight (h : Opened st st') (hp : st.Passes t st') (H : Text) :
    skipTrivia (C.tight st.offset t ++ H) = C.tight st.offset t ++ H := by
  obtain ⟨u, hu, hpass⟩ := h.passes
  obtain rfl := hp.unique hpass
  have hnext := next_tight (C := C) h.opening.next hp hu H
  obtain ⟨c, t, rfl⟩ := List.exists_cons_of_ne_nil hu
  exact skipTrivia_solid (solid_of_opens (hnext c rfl)) _

/-- What is read as a name or a predicate is not read as an operator and its operand, provided that
no operand comes behind a name that is the operator alone. -/
theorem refuses_operated_primary (h : primary expression st = .matched e st') (hp : st.Passes t st')
    (hrest : st₀.rest = st.rest) (hnone : operated expression st₀ = .unmatched f)
    (hallow : C.Allows e.anchors st.offset st'.offset)
    (hoperand : ∀ st₁ f', st₁.rest = skipTrivia st'.rest → suffixed expression st₁ = .unmatched f' →
      Refuses (suffixed expression) (skipTrivia H)) :
    Refuses (operated expression) (C.tight st.offset t ++ H) := by
  rcases primary_operators h with hhead | ⟨nm, n, hfound, hpass, hrule, rfl⟩ |
    ⟨p, l, st₁, code, range, hpl, hl, hcode, rfl⟩
  · obtain ⟨v, hv, hpv⟩ := (opened_primary h).passes
    obtain rfl := hp.unique hpv
    exact .located (refuses_prefixOp (next_tight hhead hp hv H)).bind
  · obtain rfl := hp.unique hpass
    rw [tight_leaf hp hallow]
    have hmark : st₀.rest = PrefixOp.text.symbol :: _ := hrest.trans hp.1
    obtain ⟨st₂, f', hrest₂, hnone⟩ := exists_unmatched_operand hmark hnone
    refine refuses_operated .text (s := nm ++ H) ?_
    by_cases hnm : nm = []
    · subst hnm
      exact hoperand st₂ f' hrest₂ hnone
    rcases hfound.tail hnm with ⟨m, hm⟩ | ⟨c, t, rfl, hpart, hstart⟩
    · obtain ⟨c, t, rfl⟩ := List.exists_cons_of_ne_nil hnm
      have hskip : skipTrivia (c :: t ++ st'.rest) = c :: t ++ st'.rest :=
        skipTrivia_solid (solid_of_opens (opens_of_isNameHead (next_of_name hm c rfl))) _
      obtain ⟨_, _, hfinds⟩ := takes_suffixed_of_name hm (by rwa [List.drop_left])
      obtain ⟨_, _, hmatch, -⟩ := hfinds st₂ (hrest₂.trans hskip)
      rw [hnone] at hmatch
      cases hmatch
    · rw [List.cons_append, skipTrivia_solid (solid_of_isNamePart hpart)]
      exact refuses_suffixed_shut (next_cons (.inl (opens_eq_false_of_inside hpart hstart)))
  · obtain rfl := hp.unique (hpl.trans hcode.passes)
    rw [tight_leaf hp hallow]
    have hblank : Blank l := hl.blank (by simp [hcode.passes.1])
    have hskip : skipTrivia (l ++ '{' :: (code.toList ++ ['}']) ++ H) =
        '{' :: (code.toList ++ ['}']) ++ H := by
      rw [List.append_assoc, hblank]
      exact skipTrivia_solid (by decide) _
    have hbrace : Refuses (suffixed expression)
        (skipTrivia (l ++ '{' :: (code.toList ++ ['}']) ++ H)) := by
      rw [hskip]
      exact refuses_suffixed_shut (next_cons (.inl (by decide)))
    cases p with
    | positive => exact refuses_operated .and hbrace
    | negative => exact refuses_operated .not hbrace

theorem refuses_operated_suffixed (h : suffixed expression st = .matched e st')
    (hp : st.Passes t st') (hrest : st₀.rest = st.rest)
    (hnone : operated expression st₀ = .unmatched f)
    (hallow : C.Allows e.anchors st.offset st'.offset) (hF : ElementEnd st'.rest H) :
    Refuses (operated expression) (C.tight st.offset t ++ H) := by
  obtain ⟨body, st₁, hbody, h⟩ := suffixed_eq_matched h
  obtain ⟨v, hv, hpv⟩ := (opened_primary hbody).passes
  rcases h with ⟨rfl, hend⟩ | ⟨op, l, hl, hop, rfl⟩
  · obtain rfl := hp.unique (List.append_nil v ▸ hpv.trans hend)
    rw [hend.eq_offset] at hallow
    refine refuses_operated_primary hbody hpv hrest hnone hallow ?_
    rw [← hend.eq_rest]
    exact hF.operand
  · obtain rfl := hp.unique (hpv.trans hop)
    obtain ⟨hclear, hallow⟩ := hallow.of_suffixed hbody hpv hop
    rw [tight_passes hpv hv, List.append_assoc]
    refine refuses_operated_primary hbody hpv hrest hnone hallow fun _ _ _ _ => ?_
    rw [skipTrivia_laid rfl (hl.blank (List.cons_ne_nil _ _)) hclear (List.cons_ne_nil _ _)]
    have hskip : skipTrivia (C.tight (st₁.offset + l.byteSize) [op.symbol] ++ H) =
        op.symbol :: H := skipTrivia_solid (solid_suffix op) _
    rw [hskip]
    exact refuses_suffixed_shut (next_cons (.inl (by cases op <;> decide)))

theorem Allows.of_prefixed {op : PrefixOp} (hbody : suffixed expression st₁ = .matched body st')
    (hpl : st.Passes (op.symbol :: l) st₁)
    (hallow : C.Allows (Expr.prefixed op body ⟨st.offset, st'.offset⟩).anchors st.offset st'.offset) :
    C.Clear (st.offset + op.symbol.utf8Size) st₁.offset ∧
      C.Allows body.anchors st₁.offset st'.offset := by
  have hplaces := places_suffixed (fun _ _ _ => places_expression) hbody
  obtain ⟨v, hpv⟩ := hplaces.passes
  refine ⟨hallow.clear (Nat.le_add_right _ _) hpv.offset_le ?_,
    hallow.part hpl.offset_le (Nat.le_refl _) ?_⟩
  · exact List.forall_mem_cons.2
      ⟨.inl (Nat.le_add_right _ _), fun x hx => .inr (hplaces.startWithin x hx).1⟩
  · exact List.forall_mem_cons.2 ⟨.inr (.inl hpl.offset_le), fun x hx => .inl hx⟩

theorem reads_label {name : String} {range : ByteRange} (h : st.PassesLabel name range st₁)
    (hp : st.Passes u st₁) (H : Text) :
    C.Reads label st.offset (u ++ H)
      (fun token => token.value = name ∧ C.new token.range = C.old range) st₁.offset H := by
  obtain ⟨t, l, hfound, hl, hpass, rfl⟩ := h.passes
  obtain rfl := hp.unique hpass
  have hblank : Blank l := hl.blank (List.cons_ne_nil _ _)
  have hname : NameFound t name (l ++ (':' :: H)) := by
    refine hfound.append fun _ => Name.nameChar_of_ends ?_
    cases l with
    | nil => exact nameEnds_separator (by decide) H
    | cons c l => exact hblank.nameEnds _
  have htext : t ++ (l ++ [':']) ++ H = t ++ (l ++ (':' :: H)) := by simp
  have hoffset : st₁.offset = st.offset + t.byteSize + l.byteSize + ':'.utf8Size := by
    rw [hp.2, Text.byteSize_append, Text.byteSize_append]
    simp [Nat.add_assoc]
  rw [htext, hoffset]
  refine (reads_lexeme hname.found _).bind fun token htoken => ?_
  refine (reads_trivia_of_blank hblank (skipTrivia_solid (by decide) _) fun _ => rfl).bind fun _ _ => ?_
  exact (reads_symbol _ ':' H).bind fun _ _ => reads_pure htoken

theorem keeps_label {name : String} {range : ByteRange} {r : Text}
    (hlabel : st.PassesLabel name range st₁) (hu : st.Passes u st₁) (hr : Gap r st₂.rest)
    (hpr : st₁.Passes r st₂) (hbody : prefixed expression st₂ = .matched body st')
    (hpv : st₂.Passes v st') (hallow : C.Allows (range :: body.anchors) st.offset st'.offset)
    (H : Text) :
    C.Reads label st.offset (C.tight st.offset (u ++ (r ++ v)) ++ H)
        (fun token => token.value = name ∧ C.new token.range = C.old range) st₁.offset
        (C.laid st₁.offset (r ++ v) ++ H) ∧
      C.Reads trivia st₁.offset (C.laid st₁.offset (r ++ v) ++ H) (fun _ => True) st₂.offset
        (C.tight st₂.offset v ++ H) ∧
      C.Allows body.anchors st₂.offset st'.offset := by
  have hopened := opened_prefixed hbody
  have hwithin := (places_prefixed (fun _ _ _ => places_expression) hbody).startWithin
  have hv : v ≠ [] := by
    obtain ⟨w, hw, hpw⟩ := hopened.passes
    rwa [hpv.unique hpw]
  have hrange : range.start = st.offset := by
    obtain ⟨_, _, -, -, -, rfl⟩ := hlabel.passes
    rfl
  have hne : u ≠ [] := by
    obtain ⟨t, l, hfound, -, hpass, -⟩ := hlabel.passes
    rw [hu.unique hpass]
    exact List.append_ne_nil_of_left_ne_nil hfound.ne_nil _
  have hclear {a b : Nat} (ha : st.offset ≤ a) (hb : b ≤ st₂.offset) : C.Clear a b :=
    hallow.clear ha (hb.trans hpv.offset_le) <| List.forall_mem_cons.2
      ⟨.inl (hrange.trans_le ha), fun x hx => .inr (hb.trans (hwithin x hx).1)⟩
  refine ⟨?_, ?_, hallow.part (hu.trans hpr).offset_le (Nat.le_refl _) <| List.forall_mem_cons.2
    ⟨.inr (.inl (hrange.trans_le (hu.trans hpr).offset_le)), fun x hx => .inl hx⟩⟩
  · rw [tight_passes hu hne, List.append_assoc,
      tight_of_clear (hu.2 ▸ hclear (Nat.le_refl _) hpr.offset_le)]
    exact reads_label hlabel hu _
  · exact reads_trivia hpr.2.symm (hr.blank hopened.opening.ne_nil)
      (hclear hu.offset_le (Nat.le_refl _)) hv (skipTrivia_tight hopened hpv H)

theorem reads_mark (n : Nat) (s : Text) :
    C.Reads (located do
      symbol '@'
      return id) n ('@' :: s) (fun mark => C.new mark = C.old ⟨n, n + 1⟩) (n + 1) s :=
  .located ((reads_symbol n '@' s).bind fun _ _ => reads_pure fun _ hrange => hrange)

section Elements

variable (hkeeps : KeepsBelow C st)

include hkeeps

theorem keeps_prefixed (h : prefixed expression st = .matched e st') (hp : st.Passes t st')
    (hF : ElementEnd st'.rest H) (hallow : C.Allows e.anchors st.offset st'.offset) :
    C.Reads (prefixed expression) st.offset (C.tight st.offset t ++ H) (C.Same e) st'.offset H := by
  have hnext : Next IsNoSuffix (skipTrivia H) := hF.new.imp fun c hc =>
    ⟨hc.ne (by decide), hc.ne (by decide), hc.ne (by decide)⟩
  rcases prefixed_eq_matched h with ⟨op, l, st₁, body, hl, hpl, hbody, rfl⟩ |
    ⟨st₀, hp₀, h, f, hnone⟩
  · have hopened := opened_suffixed hbody
    obtain ⟨v, hv, hpv⟩ := hopened.passes
    obtain rfl := hp.unique (hpl.trans hpv)
    obtain ⟨hclear, hallow⟩ := hallow.of_prefixed hbody hpl
    have hreads := keeps_suffixed (C := C) (H := H) (hkeeps.passes hpl) hbody hpv hF.toTokenEnd
      hnext hallow
    have hm : st.offset + op.symbol.utf8Size + l.byteSize = st₁.offset := by
      rw [hpl.2, Text.byteSize_cons, Nat.add_assoc]
    refine .orElse (.located ((reads_operator PrefixOp.symbol_injective
      (by cases op <;> decide) _ _).bind ?_))
    rintro _ rfl
    refine (reads_trivia hm (hl.blank hopened.opening.ne_nil) hclear hv
      (skipTrivia_tight hopened hpv H)).bind fun _ _ => hreads.bind fun body' hsame => ?_
    refine reads_pure fun range hrange => ?_
    rw [Same, Expr.map, Expr.map, hsame, hrange]
  · have hu : st₀.Passes t st' := hp₀.of_nil hp
    rw [← hp₀.eq_offset] at hallow ⊢
    refine .orElse_right (refuses_operated_suffixed h hu hp₀.eq_rest.symm hnone hallow hF) ?_
    exact keeps_suffixed (hkeeps.passes hp₀) h hu hF.toTokenEnd hnext hallow

theorem keeps_pick (h : pick expression st = .matched e st') (hp : st.Passes t st')
    (hF : ElementEnd st'.rest H) (hallow : C.Allows e.anchors st.offset st'.offset) :
    C.Reads (pick expression) st.offset (C.tight st.offset t ++ H) (C.Same e) st'.offset H := by
  obtain ⟨l, st₁, body, hbody, h⟩ := pick_eq_matched h
  have hopened := opened_prefixed hbody
  obtain ⟨v, hv, hpv⟩ := hopened.passes
  have hwithin := (places_prefixed (fun _ _ _ => places_expression) hbody).startWithin
  have hskip := skipTrivia_tight (C := C) hopened hpv H
  rcases h with ⟨hl, hpl, rfl⟩ | ⟨st₂, st₃, r, name, range, hl, hpl, hlabel, hr, hpr, rfl⟩
  · obtain rfl := hp.unique (hpl.trans hpv)
    have hstart : st.offset + 1 + l.byteSize = st₁.offset := by
      rw [hpl.2, Text.byteSize_cons, ← Nat.add_assoc]
      rfl
    have hclear : C.Clear (st.offset + 1) st₁.offset :=
      hallow.clear (Nat.le_succ _) hpv.offset_le <| List.forall_mem_cons.2
        ⟨.inl (Nat.le_succ _), List.forall_mem_cons.2 ⟨.inl (Nat.le_succ _),
          fun x hx => .inr (hwithin x hx).1⟩⟩
    have hreads := keeps_prefixed (C := C) (H := H) (hkeeps.passes hpl) hbody hpv hF
      (hallow.part hpl.offset_le (Nat.le_refl _) <| List.forall_mem_cons.2
        ⟨.inr (.inl hpl.offset_le), List.forall_mem_cons.2 ⟨.inr (.inl hpl.offset_le),
          fun x hx => .inl hx⟩⟩)
    refine .located ((reads_mark _ _).bind fun mark hmark => ?_)
    refine (reads_trivia hstart (hl.blank hopened.opening.ne_nil) hclear hv hskip).bind fun _ _ => ?_
    refine reads_of_run hreads fun st₂ body' st₃ hmatch hrest hrest' => ?_
    have hlabel : Refuses label (C.tight st₁.offset v ++ H) := by
      rw [← hrest]
      refine refuses_label_of_prefixed hmatch ?_
      rw [hrest']
      exact hF.new.imp fun c hc => hc.ne (by decide)
    refine (reads_optional_none hlabel).bind ?_
    rintro _ rfl
    refine (reads_trivia_of_blank (l := []) .nil hskip fun _ => rfl).bind fun _ _ => ?_
    refine hreads.bind fun body' hsame => reads_pure fun range hrange => ?_
    rw [Same, Expr.map, Expr.map, hmark, hsame, hrange]
  · obtain ⟨u, hu, -⟩ := hlabel.covers
    have hrest := hu.trans (hpr.trans hpv)
    obtain rfl := hp.unique (hpl.trans hrest)
    have hrange : range.start = st₂.offset := by
      obtain ⟨_, _, -, -, -, rfl⟩ := hlabel.passes
      rfl
    have hstart : st.offset + 1 + l.byteSize = st₂.offset := by
      rw [hpl.2, Text.byteSize_cons, ← Nat.add_assoc]
      rfl
    have hclear : C.Clear (st.offset + 1) st₂.offset :=
      hallow.clear (Nat.le_succ _) hrest.offset_le <| List.forall_mem_cons.2
        ⟨.inl (Nat.le_succ _), List.forall_mem_cons.2 ⟨.inr hrange.ge,
          fun x hx => .inr ((hu.trans hpr).offset_le.trans (hwithin x hx).1)⟩⟩
    have hopened' := opened_label hlabel (hpr.trans hpv)
    have hne : u ++ (r ++ v) ≠ [] := by simp [hv]
    obtain ⟨hreadsLabel, htrivia, hallow⟩ := keeps_label (C := C) (H := H) hlabel hu hr hpr hbody hpv
      (hallow.part hpl.offset_le (Nat.le_refl _) <| List.forall_mem_cons.2
        ⟨.inr (.inl hpl.offset_le), fun x hx => .inl hx⟩)
    have hreads := keeps_prefixed (C := C) (H := H) (hkeeps.passes (hpl.trans (hu.trans hpr))) hbody
      hpv hF hallow
    refine .located ((reads_mark _ _).bind fun mark _ => ?_)
    refine (reads_trivia hstart (hl.blank hopened'.opening.ne_nil) hclear hne
      (skipTrivia_tight hopened' hrest H)).bind fun _ _ => ?_
    apply hreadsLabel.optional.bind
    rintro _ ⟨token, rfl, rfl, htoken⟩
    refine htrivia.bind fun _ _ => hreads.bind fun body' hsame => reads_pure fun range hrange => ?_
    rw [Same, Expr.map, Expr.map, htoken, hsame, hrange]

theorem keeps_labeled (h : labeled expression st = .matched e st') (hp : st.Passes t st')
    (hF : ElementEnd st'.rest H) (hallow : C.Allows e.anchors st.offset st'.offset) :
    C.Reads (labeled expression) st.offset (C.tight st.offset t ++ H) (C.Same e) st'.offset H := by
  obtain ⟨st₀, hp₀, h⟩ := labeled_eq_matched h
  have hpass : st₀.Passes t st' := hp₀.of_nil hp
  rw [← hp₀.eq_offset] at hallow ⊢
  rcases h with h | ⟨st₁, st₂, r, name, range, body, hlabel, hr, hpr, hbody, rfl⟩ | h
  · exact .orElse (keeps_pick (hkeeps.passes hp₀) h hpass hF hallow)
  · obtain ⟨u, hu, -⟩ := hlabel.covers
    obtain ⟨v, hv, hpv⟩ := (opened_prefixed hbody).passes
    obtain rfl := hpass.unique (hu.trans (hpr.trans hpv))
    have hat : Next (· ≠ '@') st₀.rest := by
      obtain ⟨t, l, hfound, -, hpl, -⟩ := hlabel.passes
      have hhead := next_of_name hfound.found
      have htext : st₀.rest = t ++ (l ++ ':' :: st₁.rest) := by simp [hpl.1]
      rw [← htext] at hhead
      exact hhead.imp fun c hc => hc.ne (by decide) (by decide)
    obtain ⟨hreadsLabel, htrivia, hallow⟩ := keeps_label (C := C) (H := H) hlabel hu hr hpr hbody hpv
      (hallow.part (Nat.le_refl _) (Nat.le_refl _) <| List.forall_mem_cons.2
        ⟨.inr (.inl hp₀.eq_offset.ge), fun x hx => .inl hx⟩)
    have hreads := keeps_prefixed (C := C) (H := H) (hkeeps.passes (hp₀.trans (hu.trans hpr))) hbody
      hpv hF hallow
    refine .orElse_right (refuses_pick (next_tight hat hpass (by simp [hv]) H)) (.orElse (.located ?_))
    apply hreadsLabel.bind
    rintro token ⟨rfl, htoken⟩
    refine htrivia.bind fun _ _ => hreads.bind fun body' hsame => reads_pure fun range hrange => ?_
    rw [Same, Expr.map, Expr.map, htoken, hsame, ← hp₀.eq_offset, hrange]
  · have hreads := keeps_prefixed (hkeeps.passes hp₀) h hpass hF hallow
    obtain ⟨v, hv, hpv⟩ := (opened_prefixed h).passes
    obtain rfl := hpass.unique hpv
    refine .orElse_right (refuses_pick (next_tight (next_ne_at_of_prefixed h) hpass hv H)) ?_
    refine reads_of_run hreads fun st₁ e' st₂ hmatch hrest hrest' => ?_
    have hlabel : Refuses label (C.tight st₀.offset t ++ H) := by
      rw [← hrest]
      refine refuses_label_of_prefixed hmatch ?_
      rw [hrest']
      exact hF.new.imp fun c hc => hc.ne (by decide)
    exact .orElse_right (.located hlabel.bind) hreads

end Elements

end Relayout

end PegGrammar
