import PegGrammar.Proofs.Offsets.Productions

namespace PegGrammar.Offsets.Reader

variable {α β : Type} {d : Document} {pos : Nat} {p q : Reader α} {f : α → Reader β} {c : Cursor}

/-- If `p` gives up from `c`, then at the offset `pos`. -/
def LeavesAt (d : Document) (pos : Nat) (p : Reader α) (c : Cursor) : Prop :=
  ∀ c', p d c = .ok (.unmatched c') → c'.pos = pos

/-- Wherever `p` begins, it only gives up at the offset `pos`. A reader that never gives up does this for
any offset. -/
def BacksTo (d : Document) (pos : Nat) (p : Reader α) : Prop := ∀ c, LeavesAt d pos p c

/-- Wherever `p` begins, if it gives up then there. -/
def Restores (d : Document) (p : Reader α) : Prop := ∀ c, LeavesAt d c.pos p c

/-- What comes after a reader has to go back over what that has read. -/
theorem LeavesAt.bind (hp : LeavesAt d pos p c) (hf : ∀ a, BacksTo d pos (f a)) :
    LeavesAt d pos (p >>= f) c := by
  intro c' h
  change Reader.bind p f d c = _ at h
  unfold Reader.bind at h
  split at h
  next a c₁ hmatch => exact hf a c₁ c' h
  next c₁ hmiss =>
    cases h
    exact hp _ hmiss
  next => cases h
  next => cases h

namespace BacksTo

protected theorem bind (hp : BacksTo d pos p) (hf : ∀ a, BacksTo d pos (f a)) :
    BacksTo d pos (p >>= f) :=
  fun c => (hp c).bind hf

protected theorem pure (a : α) : BacksTo d pos (pure a : Reader α) := nofun

theorem here : BacksTo d pos here := nofun

theorem moveTo (k : Nat) : BacksTo d pos (moveTo k) := nofun

theorem expect (e : Expectation) : BacksTo d pos (expect e) := nofun

theorem look (recognize : Text → Nat → Except Fault α) : BacksTo d pos (look recognize) := by
  intro c c' h
  unfold Reader.look at h
  split at h <;> cases h

theorem span (range : ByteRange) : BacksTo d pos (span range) := by
  intro c c' h
  unfold Reader.span at h
  split at h <;> cases h

theorem spanFrom (start : Nat) : BacksTo d pos (spanFrom start) := .bind here fun _ => span _

theorem backTo (pos : Nat) (p : Reader α) : BacksTo d pos (backTo pos p) := by
  intro c c' h
  unfold Reader.backTo at h
  split at h
  next c₁ hmiss =>
    cases h
    rfl
  next hne => exact (hne c' h).elim

protected theorem orElse (hq : BacksTo d pos q) : BacksTo d pos (p <|> q) := by
  intro c c' h
  change Reader.orElse p (fun _ => q) d c = _ at h
  unfold Reader.orElse at h
  split at h
  next c₁ hmiss => exact hq c₁ c' h
  next hne => exact (hne c' h).elim

protected theorem optional (p : Reader α) : BacksTo d pos (optional p) := .orElse (.pure _)

protected theorem succeeds (p : Reader Unit) : BacksTo d pos (succeeds p) := .orElse (.pure _)

protected theorem many (p : Reader α) : BacksTo d pos (many p) := by
  intro c c' h
  fun_induction Reader.many p d c with
  | case2 _ _ _ _ _ _ ih => exact ih h
  | case1 | case3 | case4 | case5 | case6 => cases h

theorem accepts (ch : Char) : BacksTo d pos (accepts ch) :=
  .bind (.look _) fun
    | some _ => .bind (.moveTo _) fun _ => .pure _
    | none => .pure _

theorem trivia : BacksTo d pos trivia :=
  .bind (.look _) fun _ => .bind (.moveTo _) fun _ => .bind (.expect _) fun _ =>
    .bind (.expect _) fun _ => .expect _

theorem giveBack (before : Nat) (e : Node) : BacksTo d pos (giveBack before e) := by
  unfold Reader.giveBack
  split
  · exact .bind (.moveTo _) fun _ => .bind (.span _) fun _ => .pure _
  · exact .pure _

theorem spanned {start : Nat} {g : Span → α} :
    BacksTo d pos (Reader.spanFrom start >>= fun l => pure (g l)) :=
  .bind (.spanFrom _) fun _ => .pure _

end BacksTo

namespace Restores

theorem here_bind {f : Nat → Reader α} (h : ∀ c, LeavesAt d c.pos (f c.pos) c) :
    Restores d (here >>= f) := h

theorem of_backsTo (h : ∀ pos, BacksTo d pos p) : Restores d p := fun c => h c.pos c

protected theorem bind (hp : Restores d p) (hf : ∀ pos a, BacksTo d pos (f a)) :
    Restores d (p >>= f) :=
  fun c => (hp c).bind (hf c.pos)

theorem look_bind {recognize : Text → Nat → Except Fault α} (hf : ∀ a, Restores d (f a)) :
    Restores d (look recognize >>= f) := by
  intro c c' h
  change Reader.bind (look recognize) f d c = _ at h
  unfold Reader.bind look at h
  cases hlook : recognize d.source c.pos with
  | ok a =>
      rw [hlook] at h
      exact hf a c c' h
  | error =>
      rw [hlook] at h
      cases h

theorem nothing : Restores d (nothing : Reader α) := by
  rintro c c' ⟨⟩
  rfl

theorem fail (e : Expectation) : Restores d (fail e : Reader α) := by
  rintro c c' ⟨⟩
  rfl

theorem restoring (p : Reader α) : Restores d (restoring p) :=
  here_bind fun c => BacksTo.backTo c.pos p c

protected theorem orElse (hp : Restores d p) (hq : Restores d q) : Restores d (p <|> q) := by
  intro c c' h
  change Reader.orElse p (fun _ => q) d c = _ at h
  unfold Reader.orElse at h
  split at h
  next c₁ hmiss => rw [← hp c c₁ hmiss, hq c₁ c' h]
  next hne => exact (hne c' h).elim

theorem symbol (c : Char) : Restores d (symbol c) :=
  look_bind fun
    | some _ => of_backsTo fun _ => .moveTo _
    | none => fail _

theorem operator (symbolOf : α → Char) (as : List α) : Restores d (operator symbolOf as) := by
  induction as with
  | nil => exact nothing
  | cons a as ih => exact .orElse (.bind (symbol _) fun _ _ => .pure a) ih

theorem lexeme (description : String) (recognize : Text → Nat → Checked (α × Nat)) :
    Restores d (lexeme description recognize) :=
  here_bind fun c => look_bind (fun
    | some _ => of_backsTo fun _ => .bind (.moveTo _) fun _ => .pure _
    | none => fail _) c

theorem name : Restores d name := lexeme _ _

theorem codeBlock : Restores d codeBlock :=
  look_bind fun
    | some _ => of_backsTo fun _ => .bind (.moveTo _) fun _ => .pure _
    | none => fail _

theorem classBody : Restores d classBody :=
  look_bind fun
    | .ok (some _) => of_backsTo fun _ => .bind (.moveTo _) fun _ => .pure _
    | .ok none => fail _
    | .error _ => of_backsTo fun _ => .bind (.span _) fun _ => nofun

section Expressions

variable {inner : Reader Node}

theorem afterTrivia (p : Reader Node) : Restores d (afterTrivia p) :=
  here_bind fun c => BacksTo.bind (.bind .trivia fun _ => .backTo _ _) (fun _ => .giveBack _ _) c

theorem literal : Restores d literal :=
  here_bind fun c => (lexeme _ _ c).bind fun _ => .bind (.accepts _) fun _ => .spanned

theorem charClass : Restores d charClass :=
  here_bind fun c => (classBody c).bind fun _ => .bind (.accepts _) fun _ => .spanned

theorem any : Restores d any :=
  here_bind fun c => (symbol _ c).bind fun _ => .spanned

theorem ruleRef : Restores d ruleRef := by
  refine here_bind fun c => (name c).bind fun _ => .bind (.look _) fun starts => ?_
  split
  · exact .backTo _ _
  · exact .spanned

theorem predicate : Restores d predicate :=
  here_bind fun c => (operator _ _ c).bind fun _ => .bind .trivia fun _ => .bind (.backTo _ _) fun _ =>
    .bind (.span _) fun _ => .spanned

theorem group : Restores d (group inner) := by
  refine here_bind fun c => (symbol _ c).bind fun _ => .bind (.backTo _ _) fun body =>
    .bind .trivia fun _ => .bind (.backTo _ _) fun _ => ?_
  split
  · exact .spanned
  · exact .pure _

theorem primary : Restores d (primary inner) :=
  .orElse literal <| .orElse charClass <| .orElse any <| .orElse ruleRef <| .orElse predicate group

theorem suffixed : Restores d (suffixed inner) :=
  here_bind fun c => (primary c).bind fun _ => .bind (.optional _) fun
    | some _ => .spanned
    | none => .pure _

theorem operated : Restores d (operated inner) :=
  here_bind fun c => (operator _ _ c).bind fun _ => .bind .trivia fun _ => .bind (.backTo _ _) fun _ =>
    .spanned

theorem prefixed : Restores d (prefixed inner) := .orElse operated suffixed

theorem label : Restores d label :=
  here_bind fun c => (name c).bind fun _ => .bind .trivia fun _ => .bind (.backTo _ _) fun _ => .pure _

theorem pick : Restores d (pick inner) :=
  here_bind fun c => (symbol _ c).bind fun _ => .bind (.spanFrom _) fun _ => .bind .trivia fun _ =>
    .bind (.optional _) fun label => .bind .trivia fun _ => .bind (.backTo _ _) fun _ =>
      match label with
      | some _ => .bind (.span _) fun _ => .spanned
      | none => .spanned

theorem withLabel : Restores d (withLabel inner) :=
  here_bind fun c => (label c).bind fun _ => .bind .trivia fun _ => .bind (.backTo _ _) fun _ =>
    .bind (.span _) fun _ => .spanned

theorem labeled : Restores d (labeled inner) := .orElse pick <| .orElse withLabel prefixed

end Expressions

end Restores

namespace BacksTo

section Expressions

variable {inner : Reader Node}

theorem elements : BacksTo d pos (elements inner) :=
  .bind (.optional _) fun
    | some _ => .bind (.many _) fun _ => .pure _
    | none => .pure _

theorem sequence : BacksTo d pos (sequence inner) := by
  refine .bind .here fun start => .bind elements fun es => ?_
  split
  · split
    · exact .spanned
    · exact .pure _
  · exact .spanned

theorem action : BacksTo d pos (action inner) :=
  .bind .here fun _ => .bind sequence fun _ => .bind (.optional _) fun
    | some _ => .bind (.span _) fun _ => .spanned
    | none => .pure _

theorem choice : BacksTo d pos (choice inner) :=
  .bind .here fun _ => .bind action fun _ => .bind (.many _) fun
    | [] => .pure _
    | _ :: _ => .spanned

end Expressions

end BacksTo

namespace Restores

section Statements

theorem statementEnd : Restores d statementEnd :=
  .orElse (restoring _) <| .orElse (restoring _) (restoring _)

theorem topLevelInitializer : Restores d topLevelInitializer :=
  here_bind fun c => (symbol _ c).bind fun _ => .bind (.backTo _ _) fun _ => .bind (.backTo _ _) fun _ =>
    .bind (.backTo _ _) fun _ => .bind (.span _) fun _ => .spanned

theorem initializer : Restores d initializer :=
  here_bind fun c => (codeBlock c).bind fun _ => .bind (.backTo _ _) fun _ => .bind (.span _) fun _ =>
    .spanned

theorem displayName : Restores d displayName :=
  .bind (lexeme _ _) fun _ _ => .bind .trivia fun _ => .bind (.succeeds _) fun _ => .pure _

theorem header : Restores d header :=
  here_bind fun c => (name c).bind fun _ => .bind .trivia fun _ => .bind (.optional _) fun _ =>
    .bind (.backTo _ _) fun _ => .pure _

theorem rule : Restores d rule :=
  here_bind fun c => (header c).bind fun (_, display) => .bind (.backTo _ _) fun _ =>
    .bind (.backTo _ _) fun _ => .bind (.spanFrom _) fun _ => .bind (.span _) fun _ =>
      match display with
      | some _ => .pure _
      | none => .pure _

theorem thenTrivia (h : Restores d p) : Restores d (thenTrivia p) :=
  .bind h fun _ _ => .bind .trivia fun _ => .pure _

theorem document : Restores d document :=
  here_bind fun c => BacksTo.bind .trivia (fun _ => .bind (.optional _) fun _ => .bind (.optional _) fun _ =>
    .bind (.many _) fun
      | [] => .backTo _ _
      | _ :: _ => .spanned) c

end Statements

end Restores

end PegGrammar.Offsets.Reader
