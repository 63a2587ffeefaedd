import PegGrammar.Proofs.Offsets.Mirroring

namespace PegGrammar.Offsets.Reader

variable {α β γ δ : Type} {d : Document} {n : Nat} {R : α → β → Prop}

namespace Mirrors

section Statements

theorem trivia : Mirrors d n Eq PegGrammar.Reader.trivia trivia := by
  intro st hn hst
  refine .ahead_bind (skip_eq hst) (.bind (.moveTo _ hn hst) fun _ _ _ => ?_)
  exact .bind (expect _) fun _ _ _ => .bind (expect _) fun _ _ _ => expect _

theorem missedAt_eq {source s : Text} {pos : Nat} (h : StandsAt source s pos) :
    missedAt source pos = .ok (pos + (Trivia.restOfLine s).byteSize) := by
  have hsize : source.byteSize = pos + s.byteSize := by
    rw [← byteSize_sub h, Nat.add_sub_cancel' h.le_byteSize]
  rw [missedAt, sliceFrom_eq h, ← findLineEnd?_eq, hsize]
  exact congrArg Except.ok (Option.getD_map (pos + ·) s.byteSize _)

theorem missInlineComment :
    Mirrors d n Eq PegGrammar.Reader.missInlineComment missInlineComment := by
  intro st hn hst
  by_cases hopen : ∃ body, st.rest = '/' :: '*' :: body
  · obtain ⟨body, hbody⟩ := hopen
    have hstands : StandsAt d.source ('/' :: '*' :: body) st.offset := hbody ▸ hst
    obtain ⟨hlook, hrest⟩ := literalAt?_two hstands
    refine .ahead_bind (congrArg Except.ok hlook) ?_
    rw [hbody]
    refine .of_here (.look_bind (missedAt_eq hrest) (.look_bind rfl ?_))
    have hend : (Trivia.restOfLine body).length = body.length ↔
        (st.offset + '/'.utf8Size + '*'.utf8Size + (Trivia.restOfLine body).byteSize ==
          d.source.byteSize) = true := by
      obtain ⟨u, hu⟩ : Trivia.restOfLine body <+: body := List.takeWhile_prefix _
      have hstop := hrest
      rw [← hu] at hstop
      replace hstop := hstop.append
      have hlength := congrArg List.length hu
      rw [List.length_append] at hlength
      rw [beq_iff_eq, ← hstop.eq_nil_iff, ← List.length_eq_zero_iff]
      omega
    dsimp only
    by_cases hline : (Trivia.restOfLine body).length = body.length
    · rw [if_pos hline, if_pos (hend.1 hline)]
      exact (Mirrors.bind (expectAt _ _) fun _ _ _ => expectAt _ _) st hn hst
    · rw [if_neg hline, if_neg fun h => hline (hend.2 h)]
      exact expectAt _ _ st hn hst
  · refine .ahead_bind (congrArg Except.ok (literalAt?_two_of_ne hst fun t ht => hopen ⟨t, ht⟩)) ?_
    split
    next body hbody => exact (hopen ⟨body, hbody⟩).elim
    next => exact expect _ st hn hst

theorem inlineTrivia : Mirrors d n Eq PegGrammar.Reader.inlineTrivia inlineTrivia := by
  intro st hn hst
  refine .ahead_bind (skipInline_eq hst) (.bind (.moveTo _ hn hst) fun _ _ _ => ?_)
  exact .bind (expect _) fun _ _ _ => missInlineComment

theorem lineComment : Mirrors d n Eq PegGrammar.Reader.lineComment lineComment := by
  intro st hn hst
  refine .ahead_bind (congrArg OptionT.run (lineComment_agrees.there hst)) ?_
  cases Trivia.lineComment st.rest with
  | none => exact expect _ st hn hst
  | some k => exact .moveTo k hn hst

theorem lineEnd : Mirrors d n Eq PegGrammar.Reader.lineEnd lineEnd := by
  intro st hn hst
  refine .ahead_bind (congrArg OptionT.run (lineEnd_agrees.there hst)) ?_
  cases Trivia.lineEnd st.rest with
  | none => exact .fail _
  | some k => exact .moveTo k hn hst

theorem endOfInput : Mirrors d n Eq PegGrammar.Reader.endOfInput endOfInput := by
  intro st hn hst
  refine .ahead_bind rfl ?_
  have hend := byteSize_le_iff hst
  by_cases hrest : st.rest.isEmpty
  · rw [if_pos hrest, if_pos (decide_eq_true (hend.2 hrest))]
    exact .pure rfl hn hst
  · rw [if_neg hrest, if_neg]
    · exact .fail _
    · simpa only [decide_eq_true_iff] using fun hle => hrest (hend.1 hle)

theorem statementEnd : Mirrors d n Eq PegGrammar.Reader.statementEnd statementEnd :=
  .orElse (.restoring (.bind trivia fun _ _ _ => symbol _)) (.restoring _) <|
  .orElse (.restoring (.bind inlineTrivia fun _ _ _ => .bind lineComment fun _ _ _ => lineEnd))
    (.restoring _) (.restoring (.bind trivia fun _ _ _ => endOfInput))

end Statements

/-- The same tree, with the spans of its ranges. -/
def Spanned (d : Document) (e : PegGrammar.Node) (e' : Node) : Prop := e' = e.map d.spanOf

section Locations

variable {f : ByteRange → α} {start : Nat}

theorem spanned {g : Span → β} (hstart : Boundary d.source start)
    (h : ∀ r, R (f r) (g (d.spanOf r))) :
    Mirrors d n R (PegGrammar.Reader.here >>= fun stop => pure (f ⟨start, stop⟩))
      (spanFrom start >>= fun l => pure (g l)) := by
  intro st hn hst
  have hrange : Inside d.source ⟨start, st.offset⟩ := ⟨hstart, hst.boundary⟩
  exact .of_here (MirrorsAt.spanFrom_bind hrange (.pure (h _) hn hst))

theorem unspanned {a : α} {b : β} (h : R a b) :
    Mirrors d n R (PegGrammar.Reader.here >>= fun _ => pure a) (pure b) :=
  fun _ hn hst => .of_here (.pure h hn hst)

/-- Simplification does not see a repetition as a reader; this is for where one stands. -/
theorem assoc {x : PegGrammar.Reader γ} {k : γ → PegGrammar.Reader δ}
    {f : δ → PegGrammar.Reader α} {q : Reader β}
    (h : Mirrors d n R (x >>= fun a => k a >>= f) q) : Mirrors d n R (x >>= k >>= f) q := by
  rwa [bind_assoc]

theorem located {p : PegGrammar.Reader (ByteRange → α)} {q : Nat → Reader β}
    (h : ∀ start, Boundary d.source start → Mirrors d n R
      (p >>= fun f => PegGrammar.Reader.here >>= fun stop => pure (f ⟨start, stop⟩)) (q start)) :
    Mirrors d n R (PegGrammar.Reader.located p) (Reader.here >>= q) :=
  fun st hn hst => .of_here (.here_bind (h st.offset hst.boundary st hn hst))

end Locations

section Expressions

theorem afterTrivia {p : PegGrammar.Reader PegGrammar.Node} {q : Reader Node}
    (h : Mirrors d n (Spanned d) p q) :
    Mirrors d n (Spanned d) (PegGrammar.Reader.afterTrivia p) (afterTrivia q) := by
  intro st hn hst
  refine .here_bind fun lines hlines => ?_
  obtain ⟨o, ho, hrun⟩ := (Mirrors.bind trivia fun _ _ _ => .backTo h) st hn hst lines hlines
  change ∃ o, Reader.bind (Reader.trivia >>= fun _ => backTo st.offset q) (giveBack st.offset) d _ =
    .ok o ∧ _
  rw [Reader.bind, PegGrammar.Reader.afterTrivia, ho]
  generalize (PegGrammar.Reader.trivia >>= fun _ => p : PegGrammar.Reader _) st = r at hrun ⊢
  cases hrun with
  | @matched e e' st' lines' hvalue hn' hst' hlines' =>
      obtain rfl := hvalue
      cases e with
      | sequence es l =>
          cases es with
          | nil =>
              obtain ⟨lines'', hspan, hlines''⟩ := lookUp_eq (r := ⟨st.offset, st.offset⟩) hlines'
                ⟨hst.boundary, hst.boundary⟩
              let before : State := { st with failures := st'.failures }
              have hbefore : before.At d.source := hst
              refine ⟨_, ?_, .matched rfl hn hbefore hlines''⟩
              change Reader.bind (span ⟨st.offset, st.offset⟩) _ d ⟨st.offset, st'.failures, lines'⟩ = _
              rw [Reader.bind, span, hspan]
              rfl
          | cons e es => exact ⟨_, rfl, .matched rfl hn' hst' hlines'⟩
      | _ => exact ⟨_, rfl, .matched rfl hn' hst' hlines'⟩
  | unmatched hlines' => exact ⟨_, rfl, .unmatched hlines'⟩
  | disordered hst' hlines' => exact ⟨_, rfl, .disordered hst' hlines'⟩

theorem literal : Mirrors d n (Spanned d) PegGrammar.Reader.literal literal := by
  refine .located fun start hstart => ?_
  simp only [bind_assoc, pure_bind]
  refine .bind (lexeme _ stringLiteral_agrees) fun t t' ht => .bind (accepts _) fun i i' hi => ?_
  obtain ⟨rfl, -⟩ := ht
  obtain rfl := hi
  exact .spanned hstart fun _ => rfl

theorem charClass : Mirrors d n (Spanned d) PegGrammar.Reader.charClass charClass := by
  refine .located fun start hstart => ?_
  simp only [bind_assoc, pure_bind]
  refine .bind classBody fun b b' hb => .bind (accepts _) fun i i' hi => ?_
  obtain rfl := hb
  obtain rfl := hi
  exact .spanned hstart fun _ => rfl

theorem any : Mirrors d n (Spanned d) PegGrammar.Reader.any any := by
  refine .located fun start hstart => ?_
  simp only [bind_assoc, pure_bind]
  exact .bind (symbol _) fun _ _ _ => .spanned hstart fun _ => rfl

theorem skipTilde_eq {source : Text} {pos : Nat} (s : Text) : StandsAt source s pos →
    ∃ next, skipTilde source pos = .ok next ∧ StandsAt source
      (match s with
      | '~' :: t => PegGrammar.Reader.skipTrivia t
      | t => t) next := by
  intro h
  split
  next t =>
    rw [skipTilde, literalAt?_head h]
    exact ⟨_, skip_eq h.tail, h.tail.stopAt _⟩
  next hne =>
    rw [skipTilde, literalAt?_of_ne h hne]
    exact ⟨_, rfl, h⟩

/-- The head of a rule is found at offsets where it is found in the text ahead. -/
theorem startsRule_eq {source s : Text} {pos : Nat} (h : StandsAt source s pos) :
    startsRule source pos = .ok (PegGrammar.Reader.startsRule s) := by
  have hsign : ∀ {s pos}, StandsAt source s pos →
      (literalAt? source pos ['=']).isSome = decide (s.head? = some '=') := by
    intro s pos h
    rw [literalAt?_one h]
    split
    next hs => exact (decide_eq_true hs).symm
    next hs => exact (decide_eq_false hs).symm
  have hskip := h.stopAt (Trivia.skip s)
  rw [startsRule, skip_eq h, PegGrammar.Reader.startsRule, PegGrammar.Reader.skipTrivia]
  dsimp only [bind, Except.bind]
  rw [stringLiteral_agrees.there hskip]
  cases StringLiteral.stringLiteral (s.drop (Trivia.skip s)) with
  | none => exact congrArg Except.ok (hsign hskip)
  | some display =>
      have hbehind := hskip.stopAt display.length
      obtain ⟨next, hnext, hstands⟩ := skipTilde_eq _ (hbehind.stopAt _)
      simp only [Option.map_some, Checked.found, OptionT.run_mk, skip_eq hbehind]
      rw [hnext]
      exact congrArg Except.ok (hsign hstands)

theorem ruleRef : Mirrors d n (Spanned d) PegGrammar.Reader.ruleRef ruleRef := by
  refine .located fun start hstart => ?_
  simp only [bind_assoc]
  refine .bind name fun t t' ht => ?_
  obtain ⟨rfl, -⟩ := ht
  refine .ahead_bind startsRule_eq fun s => ?_
  split
  next => exact .backTo nothing
  next => exact .spanned hstart fun _ => rfl

theorem predicate : Mirrors d n (Spanned d) PegGrammar.Reader.predicate predicate := by
  refine .located fun start hstart => ?_
  simp only [bind_assoc, pure_bind]
  refine .bind (operator _ _) fun p p' hp => .bind trivia fun _ _ _ => .bind (.backTo codeBlock)
    fun t t' ht => ?_
  obtain rfl := hp
  obtain ⟨rfl, hrange⟩ := ht
  exact .span_bind hrange (.spanned hstart fun _ => rfl)

theorem label : Mirrors d n (SameToken d) PegGrammar.Reader.label label :=
  .here_bind fun _ => .bind name fun _ _ ht => .bind trivia fun _ _ _ =>
    .bind (.backTo (symbol ':')) fun _ _ _ => .pure ht

section

variable {inner : PegGrammar.Reader PegGrammar.Node} {inner' : Reader Node}

theorem group (h : ∀ m < n, Mirrors d m (Spanned d) inner inner') :
    Mirrors d n (Spanned d) (PegGrammar.Reader.group inner) (group inner') := by
  refine .located fun start hstart => ?_
  simp only [bind_assoc, pure_bind]
  refine bind_of_lt (symbol '(') (fun st a st' hs => ?_) fun m hm _ _ _ => ?_
  · have hp := (PegGrammar.Reader.symbol_eq_matched hs).remaining_eq
    rw [List.length_singleton] at hp
    omega
  · refine .bind (.backTo (afterTrivia (h m hm))) fun e e' he => .bind trivia fun _ _ _ =>
      .bind (.backTo (symbol ')')) fun _ _ _ => ?_
    obtain rfl := he
    rw [Expr.hasLabels_map]
    split
    next => exact .spanned hstart fun _ => rfl
    next => exact .unspanned rfl

theorem primary (h : ∀ m < n, Mirrors d m (Spanned d) inner inner') :
    Mirrors d n (Spanned d) (PegGrammar.Reader.primary inner) (primary inner') :=
  .orElse literal .literal <| .orElse charClass .charClass <| .orElse any .any <|
    .orElse ruleRef .ruleRef <| .orElse predicate .predicate (group h)

theorem suffixed (h : ∀ m < n, Mirrors d m (Spanned d) inner inner') :
    Mirrors d n (Spanned d) (PegGrammar.Reader.suffixed inner) (suffixed inner') := by
  refine .located fun start hstart => ?_
  simp only [bind_assoc]
  refine .bind (primary h) fun e e' he => .bind (.optional (.restoring (.bind trivia fun _ _ _ =>
    operator _ _)) (.restoring _)) fun o o' ho => ?_
  obtain rfl := he
  cases ho with
  | some hop =>
      obtain rfl := hop
      exact .spanned hstart fun _ => rfl
  | none => exact .unspanned rfl

theorem prefixed (h : ∀ m < n, Mirrors d m (Spanned d) inner inner') :
    Mirrors d n (Spanned d) (PegGrammar.Reader.prefixed inner) (prefixed inner') := by
  refine .orElse (.located fun start hstart => ?_) .operated (suffixed h)
  simp only [bind_assoc, pure_bind]
  refine .bind (operator _ _) fun op op' hop => .bind trivia fun _ _ _ =>
    .bind (.backTo (suffixed h)) fun e e' he => ?_
  obtain rfl := hop
  obtain rfl := he
  exact .spanned hstart fun _ => rfl

theorem pick (h : ∀ m < n, Mirrors d m (Spanned d) inner inner') :
    Mirrors d n (Spanned d) (PegGrammar.Reader.pick inner) (pick inner') := by
  intro st hn hst
  refine .of_here (.here_bind ?_)
  simp only [PegGrammar.Reader.located, bind_assoc, pure_bind, id]
  -- The mark and the element begin at the same place.
  refine .of_here (.bind (symbol '@' st hn hst) fun _ _ _ st' hn' hst' =>
    .of_here (.spanFrom_bind ⟨hst.boundary, hst'.boundary⟩ (.bind (trivia st' hn' hst') ?_)))
  refine fun _ _ _ => .bind (.optional label .label) fun t t' ht => .bind trivia fun _ _ _ =>
    .bind (.backTo (prefixed h)) fun e e' he => ?_
  obtain rfl := he
  cases ht with
  | some ht =>
      obtain ⟨rfl, hrange⟩ := ht
      exact .span_bind hrange (.spanned hst.boundary fun _ => rfl)
  | none => exact .spanned hst.boundary fun _ => rfl

theorem labeled (h : ∀ m < n, Mirrors d m (Spanned d) inner inner') :
    Mirrors d n (Spanned d) (PegGrammar.Reader.labeled inner) (labeled inner') := by
  refine .orElse (pick h) .pick (.orElse (.located fun start hstart => ?_) .withLabel (prefixed h))
  simp only [bind_assoc, pure_bind]
  refine .bind label fun t t' ht => .bind trivia fun _ _ _ => .bind (.backTo (prefixed h))
    fun e e' he => ?_
  obtain ⟨rfl, hrange⟩ := ht
  obtain rfl := he
  exact .span_bind hrange (.spanned hstart fun _ => rfl)

theorem elements (h : ∀ m < n, Mirrors d m (Spanned d) inner inner') :
    Mirrors d n (List.Forall₂ (Spanned d)) (PegGrammar.Reader.elements inner) (elements inner') := by
  refine .bind (.optional (labeled h) .labeled) fun o o' ho => ?_
  cases ho with
  | some he =>
      exact .bind (.many (.restoring (.bind trivia fun _ _ _ => labeled h)) (.restoring _))
        fun _ _ hes => .pure (.cons he hes)
  | none => exact .pure .nil

theorem sequence (h : ∀ m < n, Mirrors d m (Spanned d) inner inner') :
    Mirrors d n (Spanned d) (PegGrammar.Reader.sequence inner) (sequence inner') := by
  refine .located fun start hstart => ?_
  simp only [bind_assoc]
  refine .bind (elements h) fun es es' hes => ?_
  obtain rfl := forall₂_eq_map_iff.1 hes
  rcases es with - | ⟨e, - | ⟨e', es⟩⟩
  · exact .spanned hstart fun _ => rfl
  · simp only [List.map_cons, List.map_nil, pure_bind, Expr.isPick_map]
    split
    next => exact .spanned hstart fun _ => rfl
    next => exact .unspanned rfl
  · refine .spanned hstart fun r => ?_
    rw [Spanned, Expr.map, Expr.mapList_eq_map]
    rfl

theorem action (h : ∀ m < n, Mirrors d m (Spanned d) inner inner') :
    Mirrors d n (Spanned d) (PegGrammar.Reader.action inner) (action inner') := by
  refine .located fun start hstart => ?_
  simp only [bind_assoc]
  refine .bind (sequence h) fun e e' he => .bind (.optional (.restoring (.bind trivia fun _ _ _ =>
    codeBlock)) (.restoring _)) fun o o' ho => ?_
  obtain rfl := he
  cases ho with
  | some ht =>
      obtain ⟨rfl, hrange⟩ := ht
      exact .span_bind hrange (.spanned hstart fun _ => rfl)
  | none => exact .unspanned rfl

theorem choice (h : ∀ m < n, Mirrors d m (Spanned d) inner inner') :
    Mirrors d n (Spanned d) (PegGrammar.Reader.choice inner) (choice inner') := by
  refine .located fun start hstart => ?_
  simp only [bind_assoc]
  refine .bind (action h) fun e e' he => .assoc (.bind (.many (.restoring (.bind trivia fun _ _ _ =>
    .bind (symbol '/') fun _ _ _ => afterTrivia (action h))) (.restoring _)) fun es es' hes => ?_)
  obtain rfl := he
  obtain rfl := forall₂_eq_map_iff.1 hes
  cases es with
  | nil => exact .unspanned rfl
  | cons e' es =>
      refine .spanned hstart fun r => ?_
      rw [Spanned, Expr.map, Expr.mapList_eq_map]
      rfl

end

theorem expression : Mirrors d n (Spanned d) PegGrammar.Reader.expression expression := by
  induction n using Nat.strong_induction_on with
  | _ n ih =>
      intro st hn hst lines hlines
      rw [PegGrammar.Reader.expression.eq_def, Reader.expression.eq_def]
      have hinner : ∀ m < st.remaining, Mirrors d m (Spanned d)
          (fun st' => if st'.remaining < st.remaining then PegGrammar.Reader.expression st'
            else PegGrammar.Reader.nothing st')
          (fun _ c' => if d.source.byteSize - c'.pos < d.source.byteSize - st.offset then
            Reader.expression d c' else Reader.nothing d c') := by
        intro m hm st' hm' hst' lines' hlines'
        have hlt : st'.remaining < st.remaining := hm'.trans_lt hm
        dsimp only
        rw [if_pos hlt, if_pos ((remaining_lt_iff hst hst').2 hlt)]
        exact ih m (hm.trans_le hn) st' hm' hst' lines' hlines'
      obtain ⟨o, ho, hrun⟩ := choice hinner st (Nat.le_refl _) hst lines hlines
      exact ⟨o, ho, hrun.of_le hn⟩

end Expressions

section Documents

theorem topLevelInitializer : Mirrors d n (fun i i' => i' = i.map d.spanOf)
    PegGrammar.Reader.topLevelInitializer topLevelInitializer := by
  refine .located fun start hstart => ?_
  simp only [bind_assoc, pure_bind]
  refine .bind (symbol '{') fun _ _ _ => .bind (.backTo codeBlock) fun t t' ht =>
    .bind (.backTo (symbol '}')) fun _ _ _ => .bind (.backTo statementEnd) fun _ _ _ => ?_
  obtain ⟨rfl, hrange⟩ := ht
  exact .span_bind hrange (.spanned hstart fun _ => rfl)

theorem initializer : Mirrors d n (fun i i' => i' = i.map d.spanOf)
    PegGrammar.Reader.initializer initializer := by
  refine .located fun start hstart => ?_
  simp only [bind_assoc, pure_bind]
  refine .bind codeBlock fun t t' ht => .bind (.backTo statementEnd) fun _ _ _ => ?_
  obtain ⟨rfl, hrange⟩ := ht
  exact .span_bind hrange (.spanned hstart fun _ => rfl)

theorem displayName : Mirrors d n Eq PegGrammar.Reader.displayName displayName := by
  refine .bind (lexeme _ stringLiteral_agrees) fun t t' ht => .bind trivia fun _ _ _ =>
    .bind (.succeeds (.bind (symbol '~') fun _ _ _ => trivia) (.bind (.symbol _) fun _ _ => .trivia)) fun v v' hv => .pure ?_
  rw [ht.1, hv]

theorem header : Mirrors d n (fun h h' => SameToken d h.1 h'.1 ∧ h'.2 = h.2)
    PegGrammar.Reader.header header := by
  refine .here_bind fun _ => .bind name fun t t' ht => .bind trivia fun _ _ _ =>
    .bind (.optional displayName .displayName) fun o o' ho => .bind (.backTo (symbol '=')) fun _ _ _ =>
      .pure ⟨ht, ?_⟩
  cases ho with
  | some h => rw [h]
  | none => rfl

theorem rule : Mirrors d n (fun r r' => r' = r.map d.spanOf) PegGrammar.Reader.rule rule := by
  refine .located fun start hstart => ?_
  simp only [bind_assoc]
  refine .bind header fun h h' hh => .bind (.backTo (afterTrivia expression)) fun e e' he =>
    .bind (.backTo statementEnd) fun _ _ _ => ?_
  obtain ⟨t, display⟩ := h
  obtain ⟨t', display'⟩ := h'
  obtain ⟨⟨ht : t' = t, hrange : Inside d.source t.range⟩, hdisplay : display' = display⟩ := hh
  subst ht hdisplay
  obtain rfl := he
  intro st hn hst
  have hwhole : Inside d.source ⟨start, st.offset⟩ := ⟨hstart, hst.boundary⟩
  cases display' with
  | some _ | none =>
      simp only [pure_bind]
      refine .of_here (.spanFrom_bind hwhole ?_)
      exact .span_bind hrange (.pure rfl hn hst)

theorem thenTrivia {p : PegGrammar.Reader α} {q : Reader β} (h : Mirrors d n R p q) :
    Mirrors d n R (PegGrammar.Reader.thenTrivia p) (thenTrivia q) :=
  .bind h fun _ _ h => .bind trivia fun _ _ _ => .pure h

theorem document : Mirrors d n (fun g g' => g' = g.map d.spanOf) PegGrammar.Reader.document
    document := by
  refine .located fun start hstart => ?_
  simp only [bind_assoc]
  refine .bind trivia fun _ _ _ =>
    .bind (.optional (thenTrivia topLevelInitializer) (.thenTrivia .topLevelInitializer)) fun top top' htop =>
    .bind (.optional (thenTrivia initializer) (.thenTrivia .initializer)) fun init init' hinit =>
    .assoc (.bind (.many (thenTrivia rule) (.thenTrivia .rule)) fun rs rs' hrs => ?_)
  obtain rfl := eq_map_of_rel htop
  obtain rfl := eq_map_of_rel hinit
  obtain rfl := forall₂_eq_map_iff.1 hrs
  cases rs with
  | nil => exact .backTo nothing
  | cons => exact .spanned hstart fun _ => rfl

end Documents

end Mirrors

end PegGrammar.Offsets.Reader
