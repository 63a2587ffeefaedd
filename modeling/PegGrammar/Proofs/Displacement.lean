import PegGrammar.Proofs.Parallel

namespace PegGrammar.Reader

variable {n k : Nat}

/-- The same tree, `k` bytes further on. -/
def SameNode (k : Nat) (e e' : Node) : Prop := e' = e.map (ByteRange.shift k)

theorem sameNodes_iff {es es' : List Node} :
    List.Forall₂ (SameNode k) es es' ↔ es' = Expr.mapList (ByteRange.shift k) es := by
  rw [Expr.mapList_eq_map]
  exact forall₂_eq_map_iff

namespace Parallel

section Expressions

theorem afterTrivia {p : Reader Node} (hp : Parallel n k (SameNode k) p p) :
    Parallel n k (SameNode k) (afterTrivia p) (afterTrivia p) := by
  intro st st' hn hst
  have hrun := (Parallel.bind trivia fun _ _ _ => hp) st st' hn hst
  simp only [Reader.afterTrivia]
  generalize (Reader.trivia >>= fun _ => p : Reader Node) st = r at hrun ⊢
  generalize (Reader.trivia >>= fun _ => p : Reader Node) st' = r' at hrun ⊢
  cases hrun with
  | @matched e e' s s' t hvalue hpass hs hgrow =>
      obtain rfl := hvalue
      by_cases hempty : ∃ l, e = .sequence [] l
      · obtain ⟨l, rfl⟩ := hempty
        refine .matched ?_ (.of_failures st _) ⟨hst.rest, hst.offset⟩ hgrow
        rw [SameNode, hst.offset]
        rfl
      · have hempty' : ∀ l, e.map (ByteRange.shift k) ≠ .sequence [] l := by
          intro l h
          cases e with
          | sequence es m =>
              cases es with
              | nil => exact hempty ⟨m, rfl⟩
              | cons => cases h
          | _ => cases h
        split
        next h =>
          cases h
          exact (hempty ⟨_, rfl⟩).elim
        next =>
          split
          next h => exact (hempty' _ (Result.matched.inj h).1).elim
          next => exact .matched rfl hpass hs hgrow
  | unmatched hgrow => exact .unmatched hgrow
  | disordered hpass hopen hs hgrow => exact .disordered hpass hopen hs hgrow

theorem literal : Parallel n k (SameNode k) literal literal := by
  refine .located (.bind (lexeme _ _) fun t t' ht => .bind (accepts 'i') fun i i' hi => .pure ?_)
  rintro range
  rw [SameToken] at ht
  subst ht hi
  rfl

theorem charClass : Parallel n k (SameNode k) charClass charClass := by
  refine .located (.bind classBody fun b b' hb => .bind (accepts 'i') fun i i' hi => .pure ?_)
  rintro range
  subst hb hi
  rfl

theorem any : Parallel n k (SameNode k) any any :=
  .located (.bind (symbol '.') fun _ _ _ => .pure fun _ => rfl)

theorem ruleRef : Parallel n k (SameNode k) ruleRef ruleRef := by
  refine .located (.bind name fun t t' ht => ahead_bind fun s => ?_)
  obtain rfl := ht
  split
  · exact nothing
  · exact .pure fun _ => rfl

theorem predicate : Parallel n k (SameNode k) predicate predicate := by
  refine .located (.bind (operator _ _) fun p p' hp => .bind trivia fun _ _ _ =>
    .bind codeBlock fun t t' ht => .pure fun range => ?_)
  obtain rfl := hp
  obtain rfl := ht
  rfl

theorem label : Parallel n k (SameToken k) label label :=
  .bind name fun _ _ ht => .bind trivia fun _ _ _ => .bind (symbol ':') fun _ _ _ => .pure ht

section

variable {inner : Reader Node}

theorem group (h : ∀ m < n, Parallel m k (SameNode k) inner inner) :
    Parallel n k (SameNode k) (group inner) (group inner) := by
  refine .located (bind_of_lt (symbol '(') (fun st a st' hs => ?_) fun m hm _ _ _ => ?_)
  · have hp := (symbol_eq_matched hs).remaining_eq
    rw [List.length_singleton] at hp
    omega
  · refine .bind (afterTrivia (h m hm)) fun e e' he => .bind trivia fun _ _ _ =>
      .bind (symbol ')') fun _ _ _ => .pure fun range => ?_
    obtain rfl := he
    rw [Expr.hasLabels_map]
    split <;> rfl

theorem primary (h : ∀ m < n, Parallel m k (SameNode k) inner inner) :
    Parallel n k (SameNode k) (primary inner) (primary inner) :=
  .orElse literal <| .orElse charClass <| .orElse any <| .orElse ruleRef <| .orElse predicate <|
    group h

theorem suffixed (h : ∀ m < n, Parallel m k (SameNode k) inner inner) :
    Parallel n k (SameNode k) (suffixed inner) (suffixed inner) := by
  refine .located (.bind (primary h) fun e e' he => .bind (.optional (.bind trivia fun _ _ _ =>
    operator _ _)) fun o o' ho => ?_)
  obtain rfl := he
  cases ho with
  | some hop =>
      obtain rfl := hop
      exact .pure fun _ => rfl
  | none => exact .pure fun _ => rfl

theorem prefixed (h : ∀ m < n, Parallel m k (SameNode k) inner inner) :
    Parallel n k (SameNode k) (prefixed inner) (prefixed inner) := by
  refine .orElse (.located (.bind (operator _ _) fun op op' hop => .bind trivia fun _ _ _ =>
    .bind (suffixed h) fun e e' he => .pure fun range => ?_)) (suffixed h)
  obtain rfl := hop
  obtain rfl := he
  rfl

theorem pick (h : ∀ m < n, Parallel m k (SameNode k) inner inner) :
    Parallel n k (SameNode k) (pick inner) (pick inner) := by
  have hmark : Parallel n k (fun r r' => r' = ByteRange.shift k r)
      (Reader.located do Reader.symbol '@'; return id)
      (Reader.located do Reader.symbol '@'; return id) :=
    .located (.bind (symbol '@') fun _ _ _ => .pure fun _ => rfl)
  refine .located (.bind hmark fun r r' hr => .bind trivia fun _ _ _ =>
    .bind (.optional label) fun o o' ho => .bind trivia fun _ _ _ =>
    .bind (prefixed h) fun e e' he => ?_)
  obtain rfl := hr
  obtain rfl := he
  cases ho with
  | some ht =>
      obtain rfl := ht
      exact .pure fun _ => rfl
  | none => exact .pure fun _ => rfl

theorem labeled (h : ∀ m < n, Parallel m k (SameNode k) inner inner) :
    Parallel n k (SameNode k) (labeled inner) (labeled inner) := by
  refine .orElse (pick h) (.orElse (.located (.bind label fun t t' ht => .bind trivia fun _ _ _ =>
    .bind (prefixed h) fun e e' he => .pure fun range => ?_)) (prefixed h))
  obtain rfl := ht
  obtain rfl := he
  rfl

theorem elements (h : ∀ m < n, Parallel m k (SameNode k) inner inner) :
    Parallel n k (List.Forall₂ (SameNode k)) (elements inner) (elements inner) := by
  refine .bind (.optional (labeled h)) fun o o' ho => ?_
  cases ho with
  | some he =>
      exact .bind (.many (.bind trivia fun _ _ _ => labeled h)) fun _ _ hes => .pure (.cons he hes)
  | none => exact .pure .nil

theorem sequence (h : ∀ m < n, Parallel m k (SameNode k) inner inner) :
    Parallel n k (SameNode k) (sequence inner) (sequence inner) := by
  refine .located (.bind (elements h) fun es es' hes => ?_)
  obtain rfl := sameNodes_iff.1 hes
  rcases es with - | ⟨e, - | ⟨e', es⟩⟩
  · exact .pure fun _ => rfl
  · refine .pure fun range => ?_
    simp only [Expr.isPick_map]
    split <;> rfl
  · exact .pure fun _ => rfl

theorem action (h : ∀ m < n, Parallel m k (SameNode k) inner inner) :
    Parallel n k (SameNode k) (action inner) (action inner) := by
  refine .located (.bind (sequence h) fun e e' he => .bind (.optional (.bind trivia fun _ _ _ =>
    codeBlock)) fun o o' ho => ?_)
  obtain rfl := he
  cases ho with
  | some ht =>
      obtain rfl := ht
      exact .pure fun _ => rfl
  | none => exact .pure fun _ => rfl

theorem choice (h : ∀ m < n, Parallel m k (SameNode k) inner inner) :
    Parallel n k (SameNode k) (choice inner) (choice inner) := by
  refine .located (.bind (action h) fun e e' he => .bind (.many (.bind trivia fun _ _ _ =>
    .bind (symbol '/') fun _ _ _ => afterTrivia (action h))) fun es es' hes => ?_)
  obtain rfl := he
  obtain rfl := sameNodes_iff.1 hes
  cases es with
  | nil => exact .pure fun _ => rfl
  | cons => exact .pure fun _ => rfl

end

theorem expression (n : Nat) : Parallel n k (SameNode k) expression expression := by
  induction n using Nat.strong_induction_on with
  | _ n ih =>
      rw [expression_eq_choice]
      exact choice ih

end Expressions

section Documents

theorem topLevelInitializer : Parallel n k (fun i i' => i' = i.map (ByteRange.shift k))
    topLevelInitializer topLevelInitializer := by
  refine .located (.bind (symbol _) fun _ _ _ => .bind codeBlock fun t t' ht =>
    .bind (symbol _) fun _ _ _ => .bind statementEnd fun _ _ _ => .pure fun range => ?_)
  obtain rfl := ht
  rfl

theorem initializer : Parallel n k (fun i i' => i' = i.map (ByteRange.shift k))
    initializer initializer := by
  refine .located (.bind codeBlock fun t t' ht => .bind statementEnd fun _ _ _ =>
    .pure fun range => ?_)
  obtain rfl := ht
  rfl

theorem displayName : Parallel n k (· = ·) displayName displayName := by
  refine .bind (lexeme _ _) fun t t' ht => .bind trivia fun _ _ _ =>
    .bind (.succeeds (.bind (symbol '~') fun _ _ _ => trivia)) fun v v' hv => .pure ?_
  obtain rfl := ht
  rw [hv]

theorem header : Parallel n k (fun h h' => SameToken k h.1 h'.1 ∧ h'.2 = h.2) header header := by
  refine .bind name fun t t' ht => .bind trivia fun _ _ _ => .bind (.optional displayName)
    fun o o' ho => .bind (symbol '=') fun _ _ _ => .pure ⟨ht, ?_⟩
  cases ho with
  | some h => rw [h]
  | none => rfl

theorem rule : Parallel n k (fun r r' => r' = r.map (ByteRange.shift k)) rule rule := by
  refine .located (.bind header fun h h' hh => .bind (afterTrivia (expression n)) fun e e' he =>
    .bind statementEnd fun _ _ _ => ?_)
  obtain ⟨t, display⟩ := h
  obtain ⟨t', display'⟩ := h'
  obtain ⟨ht : t' = ⟨t.value, t.range.shift k⟩, hdisplay : display' = display⟩ := hh
  subst ht hdisplay
  obtain rfl := he
  cases display' with
  | none => exact .pure fun _ => rfl
  | some => exact .pure fun _ => rfl

theorem thenTrivia {α β : Type} {R : α → β → Prop} {p : Reader α} {q : Reader β}
    (hp : Parallel n k R p q) : Parallel n k R (thenTrivia p) (thenTrivia q) :=
  .bind hp fun _ _ h => .bind trivia fun _ _ _ => .pure h

theorem document : Parallel n k (fun g g' => g' = g.map (ByteRange.shift k)) document document := by
  refine .located (.bind trivia fun _ _ _ => .bind (.optional (thenTrivia topLevelInitializer))
    fun top top' htop => .bind (.optional (thenTrivia initializer)) fun init init' hinit =>
    .bind (.many (thenTrivia rule)) fun rs rs' hrs => ?_)
  obtain rfl := eq_map_of_rel htop
  obtain rfl := eq_map_of_rel hinit
  obtain rfl := forall₂_eq_map_iff.1 hrs
  cases rs with
  | nil => exact nothing
  | cons => exact .pure fun _ => rfl

end Documents

end Parallel

end PegGrammar.Reader
