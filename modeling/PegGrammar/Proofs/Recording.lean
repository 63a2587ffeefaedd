import PegGrammar.Proofs.Locality
import PegGrammar.Proofs.Records
import PegGrammar.Reader.Document

namespace PegGrammar

open Reader

def Expectation.vocabulary : List Expectation :=
  ["\x7b", "\x7d", ";", "=", "~", "/", ":", "@", "$", "&", "!", "?", "*", "+", ".", "(", ")", "/*", "*/",
    "//"].map .literal ++
  ["whitespace", "end of line", "comment", "identifier", "string", "literal", "character class",
    "code block"].map .named ++
  [.any, .endOfInput]

open Expectation (vocabulary)

/-- The failures that a reader records on texts of at most `n` characters are known. -/
def Reader.Traced {α : Type} (n : Nat) (p : Reader α) : Prop :=
  ∀ st, st.remaining ≤ n → ∃ log, Records p st log ∧ ∀ x ∈ log, x.expectation ∈ vocabulary

namespace Reader.Traced

variable {α β : Type} {n : Nat} {p q : Reader α} {f : α → Reader β}

theorem of_silent (h : ∀ st, Records p st []) : Traced n p :=
  fun st _ => ⟨[], h st, nofun⟩

protected theorem pure (a : α) : Traced n (pure a : Reader α) := of_silent fun _ => .pure

theorem nothing : Traced n (nothing : Reader α) := of_silent fun _ => .nothing

theorem here : Traced n here := of_silent fun _ => .here

theorem advance (k : Nat) : Traced n (advance k) := of_silent fun _ => .advance

theorem fail {e : Expectation} (h : e ∈ vocabulary) : Traced n (fail e : Reader α) :=
  fun _ _ => ⟨_, .fail, List.forall_mem_singleton.2 h⟩

theorem expect {e : Expectation} (h : e ∈ vocabulary) : Traced n (expect e) :=
  fun _ _ => ⟨_, .expect, List.forall_mem_singleton.2 h⟩

theorem classBody : Traced n classBody := by
  intro st _
  have hword : .named "character class" ∈ vocabulary := by decide
  by_cases h : ClassBody.classBody st.rest = .ok none
  · exact ⟨_, .noClassBody h, List.forall_mem_singleton.2 hword⟩
  · exact ⟨_, .classBody h, nofun⟩

theorem bind_of_matched (hp : Traced n p) (hf : ∀ st a st', p st = .matched a st' →
    st'.remaining ≤ st.remaining → st.remaining ≤ n →
    ∃ log, Records (f a) st' log ∧ ∀ x ∈ log, x.expectation ∈ vocabulary) :
    Traced n (p >>= f) := by
  intro st hst
  obtain ⟨l, hl, hwords⟩ := hp st hst
  by_cases hmatch : ∃ a st', p st = .matched a st'
  · obtain ⟨a, st', hmatch⟩ := hmatch
    obtain ⟨t, ht⟩ := hl.passes hmatch
    have hle : st'.remaining ≤ st.remaining := by
      rw [ht.remaining_eq]
      exact Nat.le_add_left _ _
    obtain ⟨l', hl', hwords'⟩ := hf st a st' hmatch hle hst
    exact ⟨_, .bind hl hmatch hl', List.forall_mem_append.2 ⟨hwords, hwords'⟩⟩
  · exact ⟨l, .bindStop hl fun a st' h => hmatch ⟨a, st', h⟩, hwords⟩

protected theorem bind (hp : Traced n p) (hf : ∀ a, Traced n (f a)) : Traced n (p >>= f) :=
  bind_of_matched hp fun _ a st' _ hle hst => hf a st' (hle.trans hst)

theorem ahead_bind {f : Text → Reader β} (hf : ∀ st, st.remaining ≤ n →
    ∃ log, Records (f st.rest) st log ∧ ∀ x ∈ log, x.expectation ∈ vocabulary) :
    Traced n (ahead >>= f) :=
  bind_of_matched (of_silent fun _ => .ahead) fun st _ _ hmatch _ hst => by
    cases hmatch
    exact hf st hst

theorem bind_of_lt (hp : Traced n p)
    (hlt : ∀ st a st', p st = .matched a st' → st'.remaining < st.remaining)
    (hf : ∀ m < n, ∀ a, Traced m (f a)) : Traced n (p >>= f) :=
  bind_of_matched hp fun st a st' hmatch _ hst =>
    hf st'.remaining ((hlt st a st' hmatch).trans_le hst) a st' (Nat.le_refl _)

protected theorem orElse (hp : Traced n p) (hq : Traced n q) : Traced n (p <|> q) := by
  intro st hst
  obtain ⟨l, hl, hwords⟩ := hp st hst
  by_cases hmiss : ∃ fs, p st = .unmatched fs
  · obtain ⟨fs, hmiss⟩ := hmiss
    obtain ⟨l', hl', hwords'⟩ := hq { st with failures := fs } hst
    exact ⟨_, .orElseNext hl hmiss hl', List.forall_mem_append.2 ⟨hwords, hwords'⟩⟩
  · exact ⟨l, .orElse hl fun fs h => hmiss ⟨fs, h⟩, hwords⟩

theorem optional (hp : Traced n p) : Traced n (optional p) :=
  .orElse (.bind hp fun _ => .pure _) (.pure _)

theorem succeeds {p : Reader Unit} (hp : Traced n p) : Traced n (succeeds p) :=
  .orElse (.bind hp fun _ => .pure _) (.pure _)

theorem located {p : Reader (ByteRange → α)} (hp : Traced n p) : Traced n (located p) :=
  .bind here fun _ => .bind hp fun _ => .bind here fun _ => .pure _

theorem many (hp : Traced n p) : Traced n (many p) := by
  intro st hst
  obtain ⟨l, hl, hwords⟩ := hp st hst
  by_cases hmatch : ∃ a st', p st = .matched a st' ∧ st'.remaining < st.remaining
  · obtain ⟨a, st', hmatch, hlt⟩ := hmatch
    obtain ⟨l', hl', hwords'⟩ := many hp st' (hlt.le.trans hst)
    exact ⟨_, .many hl hmatch hlt hl', List.forall_mem_append.2 ⟨hwords, hwords'⟩⟩
  · exact ⟨l, .manyStop hl fun a st' h hlt => hmatch ⟨a, st', h, hlt⟩, hwords⟩
termination_by st => st.remaining

section Tokens

theorem symbol {c : Char} (h : .literal (String.singleton c) ∈ vocabulary) : Traced n (symbol c) := by
  refine ahead_bind fun st hst => ?_
  split
  · exact advance 1 st hst
  · exact fail h st hst

theorem accepts (c : Char) : Traced n (accepts c) := by
  refine ahead_bind fun st hst => ?_
  split
  · exact (Traced.bind (advance 1) fun _ => .pure _) st hst
  · exact Traced.pure _ st hst

theorem operator {symbolOf : α → Char} {as : List α}
    (h : ∀ a ∈ as, .literal (String.singleton (symbolOf a)) ∈ vocabulary) :
    Traced n (operator symbolOf as) := by
  induction as with
  | nil => exact nothing
  | cons a as ih =>
      exact .orElse (.bind (symbol (h a List.mem_cons_self)) fun _ => .pure _)
        (ih fun b hb => h b (List.mem_cons_of_mem a hb))

theorem lexeme {description : String} (h : .named description ∈ vocabulary)
    (recognize : Text → Option (Lexeme α)) : Traced n (lexeme description recognize) := by
  refine ahead_bind fun st hst => ?_
  split
  · exact located (.bind (advance _) fun _ => .pure _) st hst
  · exact fail h st hst

theorem name : Traced n name := lexeme (by decide) _

theorem codeBlock : Traced n codeBlock := by
  refine ahead_bind fun st hst => ?_
  split
  · have hblock {α : Type} (k : Nat) (g : ByteRange → α) :
        Traced n (Reader.located do Reader.advance k; return g) :=
      located (.bind (advance k) fun _ => .pure _)
    exact (Traced.bind (advance 1) fun _ => .bind (hblock _ _) fun _ => .bind (advance 1) fun _ =>
      .pure _) st hst
  · exact fail (by decide) st hst

end Tokens

section Statements

theorem trivia : Traced n trivia := by
  refine ahead_bind fun st hst => ?_
  exact (Traced.bind (advance _) fun _ => .bind (expect (by decide)) fun _ =>
    .bind (expect (by decide)) fun _ => expect (by decide)) st hst

theorem missInlineComment : Traced n missInlineComment := by
  refine ahead_bind fun st hst => ?_
  split
  next body hrest =>
    -- an open comment is missed on its line, ahead of where reading stands
    have hplace : st.Ahead (st.offset + 2 + Text.byteSize (Trivia.restOfLine body)) := by
      refine ⟨['/', '*'] ++ Trivia.restOfLine body, body.dropWhile (!isLineTerminator ·), ?_, ?_⟩
      · rw [hrest, Trivia.restOfLine]
        simp
      · rw [Text.byteSize_append, Nat.add_assoc]
        rfl
    dsimp only
    by_cases hline : (Trivia.restOfLine body).length = body.length
    · simp only [if_pos hline]
      exact ⟨_, .bind .here rfl (.bind (.expectAt hplace) rfl (.expectAt hplace)),
        by simp [vocabulary]⟩
    · simp only [if_neg hline]
      exact ⟨_, .bind .here rfl (.expectAt hplace), by simp [vocabulary]⟩
  next => exact expect (by decide) st hst

theorem inlineTrivia : Traced n inlineTrivia := by
  refine ahead_bind fun st hst => ?_
  exact (Traced.bind (advance _) fun _ => .bind (expect (by decide)) fun _ => missInlineComment) st hst

theorem lineComment : Traced n lineComment := by
  refine ahead_bind fun st hst => ?_
  split
  · exact advance _ st hst
  · exact expect (by decide) st hst

theorem lineEnd : Traced n lineEnd := by
  refine ahead_bind fun st hst => ?_
  split
  · exact advance _ st hst
  · exact fail (by decide) st hst

theorem endOfInput : Traced n endOfInput := by
  refine ahead_bind fun st hst => ?_
  split
  · exact Traced.pure _ st hst
  · exact fail (by decide) st hst

theorem statementEnd : Traced n statementEnd :=
  .orElse (.bind trivia fun _ => symbol (by decide)) <|
  .orElse (.bind inlineTrivia fun _ => .bind lineComment fun _ => lineEnd)
    (.bind trivia fun _ => endOfInput)

end Statements

section Expressions

theorem afterTrivia {p : Reader Node} (hp : Traced n p) : Traced n (afterTrivia p) := by
  intro st hst
  obtain ⟨l, hl, hwords⟩ := (Traced.bind trivia fun _ => hp) st hst
  exact ⟨l, .afterTrivia hl, hwords⟩

theorem literal : Traced n literal :=
  located (.bind (lexeme (by decide) _) fun _ => .bind (accepts 'i') fun _ => .pure _)

theorem charClass : Traced n charClass :=
  located (.bind classBody fun _ => .bind (accepts 'i') fun _ => .pure _)

theorem any : Traced n any := located (.bind (symbol (by decide)) fun _ => .pure _)

theorem ruleRef : Traced n ruleRef := by
  refine located (.bind name fun _ => ahead_bind fun st hst => ?_)
  split
  · exact nothing st hst
  · exact Traced.pure _ st hst

theorem predicate : Traced n predicate :=
  located (.bind (operator (by decide)) fun _ => .bind trivia fun _ => .bind codeBlock fun _ =>
    .pure _)

theorem label : Traced n label :=
  .bind name fun _ => .bind trivia fun _ => .bind (symbol (by decide)) fun _ => .pure _

section

variable {inner : Reader Node}

theorem group (h : ∀ m < n, Traced m inner) : Traced n (group inner) := by
  refine located (bind_of_lt (symbol (by decide)) (fun st a st' hs => ?_) fun m hm _ => ?_)
  · have hp := (symbol_eq_matched hs).remaining_eq
    rw [List.length_singleton] at hp
    omega
  · exact .bind (afterTrivia (h m hm)) fun _ => .bind trivia fun _ =>
      .bind (symbol (by decide)) fun _ => .pure _

theorem primary (h : ∀ m < n, Traced m inner) : Traced n (primary inner) :=
  .orElse literal <| .orElse charClass <| .orElse any <| .orElse ruleRef <| .orElse predicate <|
    group h

theorem suffixed (h : ∀ m < n, Traced m inner) : Traced n (suffixed inner) := by
  refine located (.bind (primary h) fun _ => .bind ?_ fun o => ?_)
  · exact optional (.bind trivia fun _ => operator (by decide))
  · cases o <;> exact .pure _

theorem prefixed (h : ∀ m < n, Traced m inner) : Traced n (prefixed inner) := by
  refine .orElse (located (.bind (operator (by decide)) fun _ => .bind trivia fun _ => ?_))
    (suffixed h)
  exact .bind (suffixed h) fun _ => .pure _

theorem pick (h : ∀ m < n, Traced m inner) : Traced n (pick inner) := by
  refine located (.bind (located (.bind (symbol (by decide)) fun _ => .pure _)) fun _ => ?_)
  refine .bind trivia fun _ => .bind (optional label) fun o => .bind trivia fun _ => ?_
  refine .bind (prefixed h) fun _ => ?_
  cases o <;> exact .pure _

theorem labeled (h : ∀ m < n, Traced m inner) : Traced n (labeled inner) := by
  refine .orElse (pick h) (.orElse ?_ (prefixed h))
  exact located (.bind label fun _ => .bind trivia fun _ => .bind (prefixed h) fun _ => .pure _)

theorem sequence (h : ∀ m < n, Traced m inner) : Traced n (sequence inner) := by
  refine located (.bind (.bind (optional (labeled h)) fun o => ?_) fun es => ?_)
  · cases o with
    | none => exact .pure _
    | some => exact .bind (many (.bind trivia fun _ => labeled h)) fun _ => .pure _
  · split
    · exact .pure _
    · exact .pure _

theorem action (h : ∀ m < n, Traced m inner) : Traced n (action inner) := by
  refine located (.bind (sequence h) fun _ => .bind ?_ fun o => ?_)
  · exact optional (.bind trivia fun _ => codeBlock)
  · cases o <;> exact .pure _

theorem choice (h : ∀ m < n, Traced m inner) : Traced n (choice inner) := by
  refine located (.bind (action h) fun _ => .bind (many ?_) fun es => ?_)
  · exact .bind trivia fun _ => .bind (symbol (by decide)) fun _ => afterTrivia (action h)
  · split
    · exact .pure _
    · exact .pure _

end

theorem expression (n : Nat) : Traced n expression := by
  induction n using Nat.strong_induction_on with
  | _ n ih =>
      rw [expression_eq_choice]
      exact choice ih

end Expressions

section Documents

theorem topLevelInitializer : Traced n topLevelInitializer :=
  located (.bind (symbol (by decide)) fun _ => .bind codeBlock fun _ =>
    .bind (symbol (by decide)) fun _ => .bind statementEnd fun _ => .pure _)

theorem initializer : Traced n initializer :=
  located (.bind codeBlock fun _ => .bind statementEnd fun _ => .pure _)

theorem displayName : Traced n displayName :=
  .bind (lexeme (by decide) _) fun _ => .bind trivia fun _ =>
    .bind (succeeds (.bind (symbol (by decide)) fun _ => trivia)) fun _ => .pure _

theorem header : Traced n header :=
  .bind name fun _ => .bind trivia fun _ => .bind (optional displayName) fun _ =>
    .bind (symbol (by decide)) fun _ => .pure _

theorem rule : Traced n rule := by
  refine located (.bind header fun d => .bind (afterTrivia (expression n)) fun _ =>
    .bind statementEnd fun _ => ?_)
  obtain ⟨name, display⟩ := d
  cases display <;> exact .pure _

theorem thenTrivia (hp : Traced n p) : Traced n (thenTrivia p) :=
  .bind hp fun _ => .bind trivia fun _ => .pure _

theorem document : Traced n document := by
  refine located (.bind trivia fun _ => .bind (optional (thenTrivia topLevelInitializer)) fun _ =>
    .bind (optional (thenTrivia initializer)) fun _ => .bind (many (thenTrivia rule)) fun rs => ?_)
  cases rs with
  | nil => exact nothing
  | cons => exact .pure _

end Documents

end Reader.Traced

end PegGrammar
