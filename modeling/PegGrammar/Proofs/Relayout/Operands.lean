import PegGrammar.Proofs.Anchors
import PegGrammar.Proofs.Relayout.Ends
import PegGrammar.Proofs.Relayout.Reads

namespace PegGrammar

open Reader

theorem NameFound.append {t F H : Text} {n : String} (h : NameFound t n F)
    (hF : Name.nameChar isNamePart F = none → Name.nameChar isNamePart H = none) :
    NameFound t n H := by
  have hend := Name.nameChar_drop_name h.found
  rw [List.drop_left] at hend
  exact ⟨Name.name_append_end h.found (hF hend)⟩

namespace Relayout

variable {C : Relayout} {st st' st₁ st₂ : State} {e : Node} {t u l H : Text}

section States

theorem laid_passes (hp : st.Passes t st₁) (u : Text) :
    C.laid st.offset (t ++ u) = C.laid st.offset t ++ C.laid st₁.offset u := by
  rw [laid_append, hp.2]

theorem tight_passes (hp : st.Passes t st₁) (ht : t ≠ []) (u : Text) :
    C.tight st.offset (t ++ u) = C.tight st.offset t ++ C.laid st₁.offset u := by
  rw [tight_append ht, hp.2]

theorem tight_passes_char {c : Char} (hp : st.Passes [c] st₁) (u : Text) :
    C.tight st.offset (c :: u) = c :: C.laid st₁.offset u := by
  rw [hp.2, Text.byteSize_cons, Text.byteSize_nil, Nat.add_zero]
  rfl

end States

section Leaves

theorem tight_leaf {a : Nat} (hp : st.Passes t st')
    (hallow : C.Allows [⟨st.offset, a⟩] st.offset st'.offset) : C.tight st.offset t = t :=
  tight_of_clear (hp.2 ▸ Allows.leaf (r := ⟨st.offset, a⟩) hallow)

theorem reads_literal (h : literal st = .matched e st') (hp : st.Passes t st')
    (hF : TokenEnd st'.rest H) :
    C.Reads literal st.offset (t ++ H) (C.Same e) st'.offset H := by
  obtain ⟨u, v, i, hfound, hi, hp', rfl⟩ := literal_eq_matched h
  obtain rfl := hp.unique hp'
  rw [List.append_assoc, hp.2, Text.byteSize_append, ← Nat.add_assoc]
  refine .located ((reads_lexeme (StringLiteral.stringLiteral_append hfound.found _) _).bind ?_)
  rintro token ⟨rfl, -⟩
  refine (reads_accepts _ 'i' i fun hi' => hF.front.next_ne (by decide) (by decide) ?_).bind ?_
  · rintro _ hc rfl
    exact hi hi' hc
  · rintro i rfl
    exact reads_pure fun range hrange => congrArg (Expr.literal _ i) hrange

theorem reads_charClass (h : charClass st = .matched e st') (hp : st.Passes t st')
    (hF : TokenEnd st'.rest H) :
    C.Reads charClass st.offset (t ++ H) (C.Same e) st'.offset H := by
  obtain ⟨u, body, i, hfound, hi, hp', rfl⟩ := charClass_eq_matched h
  obtain rfl := hp.unique hp'
  rw [List.append_assoc, hp.2, Text.byteSize_append, ← Nat.add_assoc]
  refine .located ((reads_classBody (ClassBody.classBody_append hfound.found _) _).bind ?_)
  rintro _ rfl
  refine (reads_accepts _ 'i' i fun hi' => hF.front.next_ne (by decide) (by decide) ?_).bind ?_
  · rintro _ hc rfl
    exact hi hi' hc
  · rintro i rfl
    exact reads_pure fun range hrange => congrArg (Expr.charClass _ _ i) hrange

theorem reads_any (h : any st = .matched e st') (hp : st.Passes t st') :
    C.Reads any st.offset (t ++ H) (C.Same e) st'.offset H := by
  obtain ⟨hp', rfl⟩ := any_eq_matched h
  obtain rfl := hp.unique hp'
  rw [hp.2]
  exact .located ((reads_symbol _ '.' _).bind fun _ _ =>
    reads_pure fun range hrange => congrArg Expr.any hrange)

theorem reads_ruleRef (h : ruleRef st = .matched e st') (hp : st.Passes t st')
    (hF : TokenEnd st'.rest H) :
    (∃ n, NameFound t n H) ∧ C.Reads ruleRef st.offset (t ++ H) (C.Same e) st'.offset H := by
  obtain ⟨u, n, hfound, hp', hrule, rfl⟩ := ruleRef_eq_matched h
  obtain rfl := hp.unique hp'
  have hfound' := hfound.append hF.name
  refine ⟨⟨n, hfound'⟩, ?_⟩
  rw [hp.2]
  refine .located ((reads_lexeme hfound'.found _).bind ?_)
  rintro token ⟨rfl, -⟩
  refine reads_ahead.bind ?_
  rintro _ rfl
  rw [hF.rule hrule]
  exact reads_pure fun range hrange => congrArg (Expr.ruleRef _) hrange

theorem reads_predicate (h : predicate st = .matched e st') (hp : st.Passes t st') :
    C.Reads predicate st.offset (t ++ H) (C.Same e) st'.offset H := by
  obtain ⟨p, l, st₁, code, range, hl, hpl, hcode, rfl⟩ := predicate_eq_matched h
  have hpass := hpl.trans hcode.passes
  obtain rfl := hp.unique hpass
  have hbrace : l ++ '{' :: (code.toList ++ ['}']) ++ H =
      l ++ ('{' :: (code.toList ++ ['}']) ++ H) := List.append_assoc _ _ _
  have hoffset : st.offset + p.symbol.utf8Size + l.byteSize = st₁.offset := by
    rw [hpl.2, Text.byteSize_cons, Nat.add_assoc]
  have hrange : range = ⟨st₁.offset + 1, st₁.offset + 1 + Text.byteSize code.toList⟩ :=
    hcode.range_eq
  subst hrange
  change C.Reads predicate st.offset (p.symbol :: (l ++ '{' :: (code.toList ++ ['}']) ++ H)) _ _ H
  rw [hbrace]
  refine .located ((reads_operator Polarity.symbol_injective (by cases p <;> decide) _ _).bind ?_)
  rintro p rfl
  have hblank : Blank l := hl.blank (by simp [hcode.passes.1])
  refine (reads_trivia_of_blank hblank (skipTrivia_solid (by decide) _)
    fun _ => hoffset).bind fun _ _ => ?_
  have hend : st'.offset = st₁.offset + Text.byteSize ('{' :: (code.toList ++ ['}'])) :=
    hcode.passes.2
  rw [hend]
  refine (reads_codeBlock hcode.balanced _ H).bind ?_
  rintro token ⟨rfl, htoken⟩
  refine reads_pure fun range hrange => ?_
  rw [Same, Expr.map, Expr.map, htoken, hrange]

end Leaves

section Trivia

theorem eq_empty_of_map {σ τ : Type} {f : σ → τ} {e : Expr σ} {k : τ}
    (h : e.map f = .sequence [] k) : ∃ k', e = .sequence [] k' := by
  cases e with
  | sequence es k' =>
      cases es with
      | nil => exact ⟨k', rfl⟩
      | cons => cases h
  | _ => cases h

/-- From a state of the old document a reader of expressions goes on as it does in the new one,
provided that what follows is in `E`. An empty sequence is not told from what follows. -/
structure Keeps (C : Relayout) (E : Text → Text → Prop) (p : Reader Node) (st : State) : Prop where
  places : ∀ {e st'}, p st = .matched e st' → Places st e st'
  filled : ∀ {e st' t H}, p st = .matched e st' → st.Passes t st' → t ≠ [] →
    skipTrivia st.rest = st.rest → E st'.rest H → C.Allows e.anchors st.offset st'.offset →
    C.Reads p st.offset (C.tight st.offset t ++ H) (C.Same e) st'.offset H ∧
      skipTrivia (C.tight st.offset t ++ H) = C.tight st.offset t ++ H
  empty : ∀ {e st' F H}, p st = .matched e st' → st.Passes [] st' → st.rest = skipTrivia F →
    E F H → e = .sequence [] ⟨st.offset, st.offset⟩ ∧
      ∀ n, C.Reads p n (skipTrivia H) (C.Same (.sequence [] ⟨n, n⟩)) n (skipTrivia H)
  nil : ∀ {k st'}, p st = .matched (.sequence [] k) st' → st.Passes [] st'

theorem Keeps.afterTrivia {p : Reader Node} {E : Text → Text → Prop}
    (hkeeps : ∀ l st₁, st.Passes l st₁ → Keeps C E p st₁) (h : afterTrivia p st = .matched e st')
    (hp : st.Passes t st') (hE : E st'.rest H) (hallow : C.Allows e.anchors st.offset st'.offset) :
    C.Reads (afterTrivia p) st.offset (C.laid st.offset t ++ H) (C.Same e) st'.offset H := by
  rcases afterTrivia_eq_matched h with ⟨l, st₁, hl, hpl, hmatch, hne⟩ |
    ⟨rfl, hpass, l, st₁, k, st₂, hl, hpl, hmatch⟩
  · have hkeep := hkeeps l st₁ hpl
    obtain ⟨u, hu⟩ := (hkeep.places hmatch).passes
    obtain rfl := hp.unique (hpl.trans hu)
    have hrest : st₁.rest = u ++ st'.rest := hu.1
    have hfilled : u ≠ [] := by
      rintro rfl
      exact hne _ (hkeep.empty hmatch hu (by rw [hu.eq_rest, hl.skip_rest]) hE).1
    have hwithin := (hkeep.places hmatch).startWithin
    obtain ⟨hreads, hskip⟩ := hkeep.filled hmatch hu hfilled hl.skip_rest hE
      (hallow.part hpl.offset_le (Nat.le_refl _) fun r hr => .inl hr)
    have hclear : C.Clear st.offset st₁.offset :=
      hallow.clear (Nat.le_refl _) hu.offset_le fun r hr => .inr (hwithin r hr).1
    have hblank : Blank l := hl.blank (by simp [hrest, hfilled])
    have hrun := (reads_trivia hpl.2.symm hblank hclear hfilled hskip).bind fun _ _ => hreads
    intro st₀ hst₀ hn
    obtain ⟨e', st₀', hmatch', hsame, hr⟩ := hrun st₀ hst₀ hn
    refine ⟨e', st₀', ?_, hsame, hr⟩
    rw [Reader.afterTrivia, hmatch']
    split
    next k _ heq =>
      cases heq
      obtain ⟨k', rfl⟩ := eq_empty_of_map hsame.symm
      exact (hne k' rfl).elim
    next => rfl
  · obtain rfl := hp.unique hpass
    have hrest : st₁.rest = skipTrivia st'.rest := by
      rw [← hl.skip, ← hpl.1, hpass.eq_rest]
    have hkeep := hkeeps l st₁ hpl
    obtain ⟨-, hempty⟩ := hkeep.empty hmatch (hkeep.nil hmatch) hrest hE
    intro st₀ hst₀ hn
    obtain ⟨_, st₁', htrivia, -, hskip⟩ := takes_trivia st₀ hst₀
    obtain ⟨e', st₂', hmatch', hsame, -⟩ :=
      hempty (st₁'.offset + C.shift) st₁' hskip fun _ => rfl
    obtain ⟨k', rfl⟩ := eq_empty_of_map hsame
    have hrun : (trivia >>= fun _ => p : Reader Node) st₀ = .matched (.sequence [] k') st₂' :=
      bind_eq_matched.2 ⟨_, st₁', htrivia, hmatch'⟩
    refine ⟨.sequence [] ⟨st₀.offset, st₀.offset⟩, { st₀ with failures := st₂'.failures }, ?_, ?_,
      hst₀, ?_⟩
    · rw [Reader.afterTrivia, hrun]
    · exact congrArg (Expr.sequence []) (new_eq_old hn hn)
    · rw [hpass.2]
      exact hn

end Trivia

theorem Allows.of_suffixed {op : SuffixOp} {body : Node} {v : Text}
    (hbody : primary expression st = .matched body st₁) (hpv : st.Passes v st₁)
    (hop : st₁.Passes (l ++ [op.symbol]) st')
    (hallow : C.Allows (Expr.suffixed op body ⟨st.offset, st'.offset⟩).anchors st.offset st'.offset) :
    C.Clear st₁.offset (st₁.offset + l.byteSize) ∧ C.Allows body.anchors st.offset st₁.offset := by
  have hwithin := (places_primary (fun _ _ _ => places_expression) hbody).startWithin
  have hm : st₁.offset + l.byteSize ≤ st'.offset := by
    rw [hop.2, Text.byteSize_append]
    omega
  refine ⟨hallow.clear hpv.offset_le hm ?_, hallow.part (Nat.le_refl _) hop.offset_le ?_⟩
  · exact List.forall_mem_cons.2 ⟨.inl hpv.offset_le, fun x hx => .inl (hwithin x hx).2⟩
  · exact List.forall_mem_cons.2 ⟨.inr (.inl (Nat.le_refl _)), fun x hx => .inl hx⟩

/-- Expressions are kept where less is left to read. -/
def KeepsBelow (C : Relayout) (st : State) : Prop :=
  ∀ st₁ : State, st₁.remaining < st.remaining → Keeps C ExpressionEnd expression st₁

theorem KeepsBelow.passes (h : KeepsBelow C st) (hp : st.Passes t st₁) : KeepsBelow C st₁ := by
  intro st₂ hlt
  refine h st₂ (hlt.trans_le ?_)
  rw [hp.remaining_eq]
  exact Nat.le_add_left _ _

section Operands

variable (hkeeps : KeepsBelow C st)

include hkeeps

theorem keeps_group (h : group expression st = .matched e st') (hp : st.Passes t st')
    (hallow : C.Allows e.anchors st.offset st'.offset) :
    C.Reads (group expression) st.offset (C.tight st.offset t ++ H) (C.Same e) st'.offset H := by
  obtain ⟨body, st₁, st₂, r, hopen, hbody, hr, hclose, he⟩ := group_eq_matched h
  have hplaces := places_afterTrivia (fun _ _ _ => places_expression) hbody
  obtain ⟨u, hu⟩ := hplaces.passes
  obtain rfl := hp.unique (hopen.trans (hu.trans hclose))
  have hanchors : ∀ x ∈ e.anchors, x ∈ body.anchors ∨ x.start ≤ st₁.offset := by
    intro x hx
    rw [he] at hx
    split at hx
    · rcases List.mem_cons.1 hx with rfl | hx
      · exact .inr hopen.offset_le
      · exact .inl hx
    · exact .inl hx
  have hwithin := hplaces.startWithin
  have hclear : C.Clear st₂.offset (st₂.offset + r.byteSize) :=
    hallow.clear (hopen.trans hu).offset_le
      (by rw [hclose.2, Text.byteSize_append]; omega)
      fun x hx => .inl <| (hanchors x hx).elim (fun hx => (hwithin x hx).2) (·.trans hu.offset_le)
  have hbodyReads := Keeps.afterTrivia (E := ExpressionEnd)
    (H := C.laid st₂.offset (r ++ [')']) ++ H)
    (fun l st₃ hpl => hkeeps st₃ (by
      have hremaining := (hopen.trans hpl).remaining_eq
      simp only [List.length_append, List.length_singleton] at hremaining
      omega)) hbody hu
    (by rw [hclose.1]; exact expressionEnd_close rfl hr hclear H)
    (hallow.part hopen.offset_le hclose.offset_le fun x hx => (hanchors x hx).imp_right .inl)
  have htext : C.tight st.offset (['('] ++ (u ++ (r ++ [')']))) ++ H =
      '(' :: (C.laid st₁.offset u ++ (C.laid st₂.offset (r ++ [')']) ++ H)) := by
    rw [List.singleton_append, tight_passes_char hopen, laid_passes hu, List.cons_append,
      List.append_assoc]
  have hopened : st₁.offset = st.offset + '('.utf8Size := hopen.2
  have hclosed : st'.offset = st₂.offset + r.byteSize + ')'.utf8Size := by
    rw [hclose.2, Text.byteSize_append, Nat.add_assoc]
    rfl
  rw [htext, hclosed]
  refine .located ((reads_symbol _ '(' _).bind fun _ _ => ?_)
  rw [← hopened]
  refine hbodyReads.bind fun body' hsame => ?_
  refine (reads_trivia rfl (hr.blank (List.cons_ne_nil _ _)) hclear (by simp)
    (skipTrivia_solid (by decide) _)).bind fun _ _ => ?_
  refine (reads_symbol _ ')' H).bind fun _ _ => reads_pure fun range hrange => ?_
  have hlabels : body'.hasLabels = body.hasLabels := by
    rw [← Expr.hasLabels_map C.new, hsame, Expr.hasLabels_map]
  subst he
  rw [hlabels, hclosed]
  split
  · rw [Same, Expr.map, Expr.map, hsame, hrange]
  · exact hsame

theorem keeps_primary (h : primary expression st = .matched e st') (hp : st.Passes t st')
    (hF : TokenEnd st'.rest H) (hallow : C.Allows e.anchors st.offset st'.offset) :
    C.Reads (primary expression) st.offset (C.tight st.offset t ++ H) (C.Same e) st'.offset H := by
  obtain ⟨st₀, hp₀, h⟩ := primary_eq_matched h
  have hu : st₀.Passes t st' := hp₀.of_nil hp
  rw [← hp₀.eq_offset] at hallow ⊢
  rcases h with h | h | h | h | h | h
  · have hreads := reads_literal h hu hF (C := C)
    obtain ⟨_, _, _, -, -, -, rfl⟩ := literal_eq_matched h
    rw [tight_leaf hu hallow]
    exact .orElse hreads
  · have hreads := reads_charClass h hu hF (C := C)
    obtain ⟨_, _, _, hfound, -, hpass, rfl⟩ := charClass_eq_matched h
    obtain ⟨v, rfl⟩ := hfound.exists_cons
    rw [tight_leaf hu hallow]
    refine .orElse_right (refuses_literal ?_) (.orElse hreads)
    rw [hu.unique hpass]
    exact next_cons (by decide)
  · have hreads := reads_any h hu (C := C) (H := H)
    obtain ⟨hpass, rfl⟩ := any_eq_matched h
    rw [tight_leaf hu hallow]
    obtain rfl := hu.unique hpass
    exact .orElse_right (refuses_literal (next_cons (by decide)))
      (.orElse_right (refuses_charClass (next_cons (by decide))) (.orElse hreads))
  · obtain ⟨⟨n, hfound⟩, hreads⟩ := reads_ruleRef h hu hF (C := C)
    obtain ⟨_, _, -, -, -, rfl⟩ := ruleRef_eq_matched h
    obtain ⟨hliteral, hclass, hany⟩ := refuses_beforeRuleRef (next_of_name hfound.found)
    rw [tight_leaf hu hallow]
    exact .orElse_right hliteral (.orElse_right hclass (.orElse_right hany (.orElse hreads)))
  · have hreads := reads_predicate h hu (C := C) (H := H)
    obtain ⟨p, l, st₁, code, range, -, hpl, hcode, rfl⟩ := predicate_eq_matched h
    rw [tight_leaf hu hallow]
    obtain rfl := hu.unique (hpl.trans hcode.passes)
    obtain ⟨hliteral, hclass, hany, href⟩ := refuses_beforePredicate (c := p.symbol)
      (s := l ++ '{' :: (code.toList ++ ['}']) ++ H) (by cases p <;> decide)
    exact .orElse_right hliteral (.orElse_right hclass (.orElse_right hany (.orElse_right href
      (.orElse hreads))))
  · have hreads := keeps_group (H := H) (hkeeps.passes hp₀) h hu hallow
    obtain ⟨body, st₁, st₂, r, hopen, hbody, -, hclose, -⟩ := group_eq_matched h
    obtain ⟨v, hv⟩ := (places_afterTrivia (fun _ _ _ => places_expression) hbody).passes
    obtain rfl := hu.unique (hopen.trans (hv.trans hclose))
    rw [List.singleton_append, tight_passes_char hopen] at hreads ⊢
    obtain ⟨hliteral, hclass, hany, href⟩ := refuses_beforePredicate (c := '(')
      (s := C.laid st₁.offset (v ++ (r ++ [')'])) ++ H) (by decide)
    exact .orElse_right hliteral (.orElse_right hclass (.orElse_right hany (.orElse_right href
      (.orElse_right (refuses_predicate (next_cons (by decide))) hreads))))

theorem keeps_suffixed (h : suffixed expression st = .matched e st') (hp : st.Passes t st')
    (hF : TokenEnd st'.rest H) (hnext : Next IsNoSuffix (skipTrivia H))
    (hallow : C.Allows e.anchors st.offset st'.offset) :
    C.Reads (suffixed expression) st.offset (C.tight st.offset t ++ H) (C.Same e) st'.offset H := by
  obtain ⟨body, st₁, hbody, h⟩ := suffixed_eq_matched h
  obtain ⟨v, hv, hpv⟩ := (opened_primary hbody).passes
  rcases h with ⟨rfl, hnone⟩ | ⟨op, l, hl, hop, rfl⟩
  · obtain rfl := hp.unique (List.append_nil v ▸ hpv.trans hnone)
    rw [hnone.eq_rest] at hF
    rw [hnone.eq_offset] at hallow ⊢
    have hreads := keeps_primary hkeeps hbody hpv hF hallow
    refine .located (hreads.bind fun body' hsame => ?_)
    refine (reads_optional_none (refuses_suffixOp hnext)).bind ?_
    rintro _ rfl
    exact reads_pure fun _ _ => hsame
  · obtain rfl := hp.unique (hpv.trans hop)
    obtain ⟨hclear, hallow⟩ := hallow.of_suffixed hbody hpv hop
    have hskip : skipTrivia (C.tight (st₁.offset + l.byteSize) [op.symbol] ++ H) =
        C.tight (st₁.offset + l.byteSize) [op.symbol] ++ H := skipTrivia_solid (solid_suffix op) _
    have hblank : Blank l := hl.blank (List.cons_ne_nil _ _)
    have hreads := keeps_primary hkeeps hbody hpv
      (H := C.laid st₁.offset (l ++ [op.symbol]) ++ H)
      (by
        rw [hop.1]
        exact tokenEnd_separator (by cases op <;> decide) rfl hblank hclear hskip)
      hallow
    have hend : st'.offset = st₁.offset + l.byteSize + op.symbol.utf8Size := by
      rw [hop.2, Text.byteSize_append, Nat.add_assoc]
      rfl
    rw [tight_passes hpv hv, List.append_assoc, hend]
    refine .located (hreads.bind fun body' hsame => ?_)
    have hop' : C.Reads (do trivia; operator SuffixOp.symbol SuffixOp.all) st₁.offset
        (C.laid st₁.offset (l ++ [op.symbol]) ++ H) (· = op) _ H :=
      (reads_trivia rfl hblank hclear (List.cons_ne_nil _ _) hskip).bind fun _ _ =>
        reads_operator SuffixOp.symbol_injective (by cases op <;> decide) _ H
    apply hop'.optional.bind
    rintro _ ⟨_, rfl, rfl⟩
    refine reads_pure fun range hrange => ?_
    rw [Same, Expr.map, Expr.map, hsame, hrange]

end Operands

end Relayout

end PegGrammar
