import PegGrammar.Proofs.Displacement
import PegGrammar.Proofs.Parentheses.Counting
import PegGrammar.Proofs.Parentheses.Printed

namespace PegGrammar

open Reader

namespace Expr

variable {σ : Type} {e : Expr σ} {p q : Precedence}

theorem pairsAt_mono (h : p.level ≤ q.level) : e.pairsAt p ≤ e.pairsAt q := by
  have hlooser : (e.looserThan p).toNat ≤ (e.looserThan q).toNat := by
    rw [looserThan, looserThan]
    by_cases hq : e.precedence.level < q.level
    · rw [decide_eq_true hq]
      exact Bool.toNat_le _
    · rw [decide_eq_false hq, decide_eq_false fun hp => hq (hp.trans_le h)]
  rw [pairsAt, pairsAt]
  omega

/-- Where an expression binds strongly enough, it has no parentheses of its own. -/
theorem pairsAt_eq_pairs (h : p.level ≤ e.precedence.level) : e.pairsAt p = e.pairs := by
  have hlooser : e.looserThan p = false := decide_eq_false (Nat.not_lt_of_le h)
  rw [pairsAt, hlooser, Bool.toNat_false, Nat.zero_add]

theorem pairsAt_pick (h : e.isPick = true) (k : σ) :
    (sequence [e] k).pairsAt .sequence = e.pairsAt .labeled := by
  have hprecedence : e.precedence = .labeled := by
    cases e with
    | labeled => rfl
    | _ => cases h
  have hsequence : Precedence.sequence.level ≤ (sequence [e] k).precedence.level := by
    rw [precedence, hprecedence]
    decide
  rw [pairsAt_eq_pairs hsequence, pairs, pairsEach_eq, List.map_singleton, List.sum_singleton]

theorem pairsAt_le (e : Expr σ) (p : Precedence) : e.pairsAt p ≤ e.pairs + 1 := by
  have hlooser := Bool.toNat_le (e.looserThan p)
  rw [pairsAt]
  omega

end Expr

theorem Counted.sum_le {α : Type} {cost : α → Nat} {xs : List (Counted α)} {as : List α}
    (h : List.Forall₂ (fun x a => x.value = a ∧ cost a ≤ x.groups) xs as) :
    xs.map Counted.value = as ∧ (as.map cost).sum ≤ Counted.sum xs := by
  induction h with
  | nil => exact ⟨rfl, Nat.le_refl _⟩
  | cons h _ ih =>
      obtain ⟨rfl, hle⟩ := h
      obtain ⟨rfl, hrest⟩ := ih
      exact ⟨rfl, Nat.add_le_add hle hrest⟩

namespace Reader

/-- What is counted is the tree that is read, and there is a group for each pair that is printed where
one of precedence `p` is wanted. -/
def Enough (p : Precedence) (x : Counted Node) (e : Node) : Prop :=
  x.value = e ∧ e.pairsAt p ≤ x.groups

variable {n : Nat} {p q : Precedence} {x : Counted Node} {e : Node}

theorem Enough.mono (h : Enough q x e) (hle : p.level ≤ q.level) : Enough p x e :=
  ⟨h.1, (Expr.pairsAt_mono hle).trans h.2⟩

theorem sameNode_zero {e e' : Node} (h : SameNode 0 e e') : e' = e :=
  h.trans (Expr.map_id e)

theorem enough_plain {r : Reader Node} (hr : Parallel n 0 (SameNode 0) r r)
    (hleaf : ∀ st e st', r st = .matched e st' → e.precedence = .primary ∧ e.pairs = 0) :
    Parallel n 0 (Enough .primary) (Counting.plain r) r := by
  have h : Parallel n 0 (Enough .primary) (Counting.plain r) (r >>= pure) := by
    refine .bind_of_matched hr fun st e s e' s' hmatch _ _ hsame hs => ?_
    obtain ⟨hprecedence, hpairs⟩ := hleaf st e s hmatch
    refine .matched ⟨(sameNode_zero hsame).symm, ?_⟩ (.refl s) hs .refl
    rw [sameNode_zero hsame, Expr.pairsAt_eq_pairs (by rw [hprecedence]), hpairs]
  rwa [bind_pure] at h

theorem enough_afterTrivia {r : Reader (Counted Node)} {r' : Reader Node}
    (hr : Parallel n 0 (Enough p) r r') :
    Parallel n 0 (Enough p) (Counting.afterTrivia r) (afterTrivia r') := by
  intro st st' hn hst
  have hrun := (Parallel.bind .trivia fun _ _ _ => hr) st st' hn hst
  simp only [Counting.afterTrivia, afterTrivia]
  generalize (trivia >>= fun _ => r : Reader (Counted Node)) st = a at hrun ⊢
  generalize (trivia >>= fun _ => r' : Reader Node) st' = b at hrun ⊢
  cases hrun with
  | @matched x e s s' t hvalue hpass hs hgrow =>
      obtain ⟨e, m⟩ := x
      obtain ⟨rfl, hle⟩ := hvalue
      split
      next heq =>
        cases heq
        refine .matched ⟨?_, hle⟩ (.of_failures st _) ⟨hst.rest, hst.offset⟩ hgrow
        rw [hst.offset]
        rfl
      next hne =>
        split
        next heq =>
          cases heq
          exact (hne _ _ _ rfl).elim
        next => exact .matched ⟨rfl, hle⟩ hpass hs hgrow
  | unmatched hgrow => exact .unmatched hgrow
  | disordered hpass hopen hs hgrow => exact .disordered hpass hopen hs hgrow

section

variable {inner : Reader (Counted Node)} {inner' : Reader Node}
  (h : ∀ m < n, Parallel m 0 (Enough .choice) inner inner')

include h

theorem enough_group :
    Parallel n 0 (Enough .primary) (Counting.group inner) (group inner') := by
  refine .located (.bind_of_lt (.symbol '(') (fun st a st' hs => ?_) fun m hm _ _ _ => ?_)
  · have hp := (symbol_eq_matched hs).remaining_eq
    rw [List.length_singleton] at hp
    omega
  · refine .bind (enough_afterTrivia (h m hm)) fun x e he => .bind .trivia fun _ _ _ =>
      .bind (.symbol ')') fun _ _ _ => .pure fun range => ?_
    obtain ⟨rfl, hle⟩ := he
    rw [Expr.pairsAt_eq_pairs (Nat.zero_le _)] at hle
    split
    next => exact ⟨rfl, (Expr.pairsAt_eq_pairs (Nat.le_refl _)).trans_le (Nat.succ_le_succ hle)⟩
    next => exact ⟨rfl, (Expr.pairsAt_le _ _).trans (Nat.succ_le_succ hle)⟩

theorem enough_primary :
    Parallel n 0 (Enough .primary) (Counting.primary inner) (primary inner') := by
  refine .orElse (enough_plain .literal fun st e st' hmatch => ?_) <|
    .orElse (enough_plain .charClass fun st e st' hmatch => ?_) <|
    .orElse (enough_plain .any fun st e st' hmatch => ?_) <|
    .orElse (enough_plain .ruleRef fun st e st' hmatch => ?_) <|
    .orElse (enough_plain .predicate fun st e st' hmatch => ?_) (enough_group h)
  · obtain ⟨_, _, _, -, -, -, rfl⟩ := literal_eq_matched hmatch
    exact ⟨rfl, rfl⟩
  · obtain ⟨_, _, _, -, -, -, rfl⟩ := charClass_eq_matched hmatch
    exact ⟨rfl, rfl⟩
  · obtain ⟨-, rfl⟩ := any_eq_matched hmatch
    exact ⟨rfl, rfl⟩
  · obtain ⟨_, _, -, -, -, rfl⟩ := ruleRef_eq_matched hmatch
    exact ⟨rfl, rfl⟩
  · obtain ⟨_, _, _, _, _, -, -, -, rfl⟩ := predicate_eq_matched hmatch
    exact ⟨rfl, rfl⟩

theorem enough_suffixed :
    Parallel n 0 (Enough .suffixed) (Counting.suffixed inner) (suffixed inner') := by
  refine .located (.bind (enough_primary h) fun x e he => .bind (.optional (.bind .trivia
    fun _ _ _ => .operator _ _)) fun o o' ho => ?_)
  cases ho with
  | some hop =>
      obtain ⟨rfl, hle⟩ := he
      obtain rfl := hop
      exact .pure fun range => ⟨rfl, (Expr.pairsAt_eq_pairs (Nat.le_refl _)).trans_le hle⟩
  | none => exact .pure fun _ => he.mono (by decide)

theorem enough_prefixed :
    Parallel n 0 (Enough .prefixed) (Counting.prefixed inner) (prefixed inner') := by
  refine .orElse (.located (.bind (.operator _ _) fun op op' hop => .bind .trivia fun _ _ _ =>
    .bind (enough_suffixed h) fun x e he => .pure fun range => ?_))
    ((enough_suffixed h).imp fun _ _ he => he.mono (by decide))
  obtain ⟨rfl, hle⟩ := he
  obtain rfl := hop
  exact ⟨rfl, (Expr.pairsAt_eq_pairs (Nat.le_refl _)).trans_le hle⟩

theorem enough_pick :
    Parallel n 0 (Enough .labeled) (Counting.pick inner) (pick inner') := by
  have hmark : Parallel n 0 (· = ·) (located do symbol '@'; return id)
      (located do symbol '@'; return (id : ByteRange → ByteRange)) :=
    .located (.bind (.symbol '@') fun _ _ _ => .pure fun _ => rfl)
  refine .located (.bind hmark fun r r' hr => .bind .trivia fun _ _ _ =>
    .bind (.optional .label) fun o o' ho => .bind .trivia fun _ _ _ =>
    .bind (enough_prefixed h) fun x e he => ?_)
  obtain rfl := hr
  obtain ⟨rfl, hle⟩ := he
  have hpairs {name : Option String} {mark range : ByteRange} :
      (Expr.labeled name mark true x.value range).pairsAt .labeled ≤ x.groups :=
    (Expr.pairsAt_eq_pairs (Nat.le_refl _)).trans_le hle
  cases ho with
  | some ht =>
      obtain rfl := ht
      exact .pure fun _ => ⟨rfl, hpairs⟩
  | none => exact .pure fun _ => ⟨rfl, hpairs⟩

theorem enough_labeled :
    Parallel n 0 (Enough .labeled) (Counting.labeled inner) (labeled inner') := by
  refine .orElse (enough_pick h) (.orElse (.located (.bind .label fun t t' ht =>
    .bind .trivia fun _ _ _ => .bind (enough_prefixed h) fun x e he => .pure fun range => ?_))
    ((enough_prefixed h).imp fun _ _ he => he.mono (by decide)))
  obtain rfl := ht
  obtain ⟨rfl, hle⟩ := he
  exact ⟨rfl, (Expr.pairsAt_eq_pairs (Nat.le_refl _)).trans_le hle⟩

theorem enough_elements : Parallel n 0 (List.Forall₂ (Enough .labeled)) (Counting.elements inner)
    (elements inner') := by
  refine .bind (.optional (enough_labeled h)) fun o o' ho => ?_
  cases ho with
  | some he =>
      exact .bind (.many (.bind .trivia fun _ _ _ => enough_labeled h))
        fun _ _ hes => .pure (.cons he hes)
  | none => exact .pure .nil

theorem enough_sequence :
    Parallel n 0 (Enough .sequence) (Counting.sequence inner) (sequence inner') := by
  refine .located (.bind (enough_elements h) fun xs es hes => ?_)
  rcases hes with - | ⟨he, hrest⟩
  · exact .pure fun _ => ⟨rfl, Nat.le_refl _⟩
  · rename_i x e xs es
    rcases hrest with - | ⟨he', hrest⟩
    · obtain ⟨rfl, hle⟩ := he
      refine .pure fun range => ⟨rfl, ?_⟩
      dsimp only
      split
      next hpick => exact (Expr.pairsAt_pick hpick range).trans_le hle
      next => exact (Expr.pairsAt_mono (by decide)).trans hle
    · obtain ⟨hvalues, hle⟩ := Counted.sum_le (.cons he (.cons he' hrest))
      rw [← Expr.pairsEach_eq] at hle
      refine .pure fun range => ⟨congrArg (Expr.sequence · _) hvalues, ?_⟩
      exact (Expr.pairsAt_eq_pairs (Nat.le_refl _)).trans_le hle

theorem enough_action :
    Parallel n 0 (Enough .action) (Counting.action inner) (action inner') := by
  refine .located (.bind (enough_sequence h) fun x e he => .bind (.optional (.bind .trivia
    fun _ _ _ => .codeBlock)) fun o o' ho => ?_)
  cases ho with
  | some ht =>
      obtain ⟨rfl, hle⟩ := he
      obtain rfl := ht
      exact .pure fun range => ⟨rfl, (Expr.pairsAt_eq_pairs (Nat.le_refl _)).trans_le hle⟩
  | none => exact .pure fun _ => he.mono (by decide)

theorem enough_choice :
    Parallel n 0 (Enough .choice) (Counting.choice inner) (choice inner') := by
  refine .located (.bind (enough_action h) fun x e he => .bind (.many (.bind .trivia fun _ _ _ =>
    .bind (.symbol '/') fun _ _ _ => enough_afterTrivia (enough_action h))) fun xs es hes => ?_)
  cases hes with
  | nil => exact .pure fun _ => he.mono (by decide)
  | cons he' hes =>
      obtain ⟨hvalues, hle⟩ := Counted.sum_le (.cons he (.cons he' hes))
      rw [← Expr.pairsEach_eq] at hle
      refine .pure fun range => ⟨congrArg (Expr.choice · _) hvalues, ?_⟩
      exact (Expr.pairsAt_eq_pairs (Nat.le_refl _)).trans_le hle

end

theorem enough_expression (n : Nat) :
    Parallel n 0 (Enough .choice) Counting.expression expression := by
  induction n using Nat.strong_induction_on with
  | _ n ih =>
      intro st st' hn hst
      rw [Counting.expression.eq_def, expression.eq_def]
      refine enough_choice (fun m hm => ?_) st st' hn hst
      intro s s' hs hss
      dsimp only
      rw [hst.remaining_eq, hss.remaining_eq]
      split
      next => exact ih m hm s s' hs hss
      next => exact Parallel.nothing s s' hs hss

theorem enough_rule : Parallel n 0 (fun x r => x.value = r ∧ r.pairs ≤ x.groups)
    Counting.rule rule := by
  refine .located (.bind .header fun t t' ht => .bind (enough_afterTrivia (enough_expression n))
    fun x e he => .bind .statementEnd fun _ _ _ => ?_)
  obtain ⟨rfl, hle⟩ := he
  rw [Expr.pairsAt_eq_pairs (Nat.zero_le _)] at hle
  obtain ⟨t, display⟩ := t
  obtain ⟨t', display'⟩ := t'
  obtain ⟨hname : t' = ⟨t.value, t.range⟩, hdisplay : display' = display⟩ := ht
  subst hname hdisplay
  cases display' with
  | none => exact .pure fun _ => ⟨rfl, (Rule.pairs_eq _).trans_le hle⟩
  | some => exact .pure fun _ => ⟨rfl, (Rule.pairs_eq _).trans_le hle⟩

theorem enough_document : Parallel n 0 (fun x g => x.value = g ∧ g.pairs ≤ x.groups)
    Counting.document document := by
  refine .located (.bind .trivia fun _ _ _ => .bind (.optional (.thenTrivia .topLevelInitializer))
    fun top top' htop => .bind (.optional (.thenTrivia .initializer)) fun init init' hinit =>
    .bind (.many (.thenTrivia enough_rule)) fun xs rs hrs => ?_)
  have hsame {i i' : Option (Initializer ByteRange)}
      (h : Option.Rel (fun i i' => i' = i.map (ByteRange.shift 0)) i i') : i' = i := by
    cases h with
    | some h => exact congrArg some h
    | none => rfl
  obtain rfl := hsame htop
  obtain rfl := hsame hinit
  cases hrs with
  | nil => exact .nothing
  | cons hr hrs =>
      obtain ⟨hvalues, hle⟩ := Counted.sum_le (.cons hr hrs)
      exact .pure fun range => ⟨congrArg (Grammar.mk _ _ · _) hvalues, hle⟩

end Reader

/-- A grammar is printed with at most as many pairs of parentheses as groups were matched where it
was read. Any other parentheses in its text stand inside a token. -/
theorem pairs_le_of_parse {source : String} {g : Grammar Span} (h : parse source = .ok g) :
    (∃ n st, Counting.document { rest := source.toList } = .matched ⟨g.map Span.range, n⟩ st ∧
      st.rest = [] ∧ g.pairs ≤ n) ∧ g.text.count '(' = g.pairs + g.enclosed := by
  refine ⟨?_, g.count_text⟩
  obtain ⟨st', hread, hrest⟩ := document_of_parseWith h
  have hrun := enough_document { rest := source.toList } { rest := source.toList } (Nat.le_refl _)
    ⟨rfl, rfl⟩
  rw [hread] at hrun
  generalize Counting.document { rest := source.toList } = r at hrun ⊢
  cases hrun with
  | @matched x _ s _ _ hvalue _ hs _ =>
      obtain ⟨_, n⟩ := x
      obtain ⟨rfl, hle⟩ := hvalue
      rw [Grammar.pairs_map] at hle
      exact ⟨n, s, rfl, hs.rest.symm.trans hrest, hle⟩

theorem pairs_le_of_parse_nested : ∃ g, parse "a = ((b / c) '(' d)* (e) / (f)" = .ok g ∧
    (∃ n st, Counting.document { rest := "a = ((b / c) '(' d)* (e) / (f)".toList } =
      .matched ⟨g.map Span.range, n⟩ st ∧ st.rest = [] ∧ g.pairs ≤ n) ∧
    g.text.count '(' = g.pairs + g.enclosed := by
  have hok : (parse "a = ((b / c) '(' d)* (e) / (f)").toOption.any (fun _ => true) = true := by
    decide +kernel
  obtain ⟨g, h, -⟩ := exists_of_any hok
  exact ⟨g, h, pairs_le_of_parse h⟩

end PegGrammar
