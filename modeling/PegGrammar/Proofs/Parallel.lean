import Mathlib.Data.List.Forall2
import PegGrammar.Proofs.Recording
import PegGrammar.Proofs.SingleRule

namespace PegGrammar

open Reader

theorem forall₂_eq_map_iff {α β : Type} {f : α → β} {as : List α} {bs : List β} :
    List.Forall₂ (fun a b => b = f a) as bs ↔ bs = as.map f := by
  constructor
  · intro h
    induction h with
    | nil => rfl
    | cons h _ ih => rw [h, ih, List.map_cons]
  · rintro rfl
    induction as with
    | nil => exact .nil
    | cons a as ih => exact .cons rfl ih

theorem eq_map_of_rel {α β : Type} {f : α → β} {o : Option α} {o' : Option β}
    (h : Option.Rel (fun a b => b = f a) o o') : o' = o.map f := by
  cases h with
  | some h => rw [h, Option.map_some]
  | none => rfl

def Failure.shift (k : Nat) (x : Failure) : Failure := ⟨x.offset + k, x.expectation⟩

/-- Two records grow by the same failures, `k` bytes apart. -/
def Failures.Grow (k : Nat) (f f' g g' : Failures) : Prop :=
  ∃ log, g = f.recordAll log ∧ g' = f'.recordAll (log.map (Failure.shift k))

namespace Failures.Grow

variable {k : Nat} {f f' g g' h h' : Failures}

theorem refl : Grow k f f' f f' := ⟨[], rfl, rfl⟩

theorem record (offset : Nat) (e : Expectation) :
    Grow k f f' (f.record offset e) (f'.record (offset + k) e) := ⟨[⟨offset, e⟩], rfl, rfl⟩

theorem trans (hg : Grow k f f' g g') (hh : Grow k g g' h h') : Grow k f f' h h' := by
  obtain ⟨log, rfl, rfl⟩ := hg
  obtain ⟨log', rfl, rfl⟩ := hh
  exact ⟨log ++ log', recordAll_append.symm, by rw [List.map_append, recordAll_append]⟩

end Failures.Grow

/-- The same text stands ahead, `k` bytes further on. -/
structure State.Beyond (k : Nat) (st st' : State) : Prop where
  rest : st'.rest = st.rest
  offset : st'.offset = st.offset + k

theorem State.Beyond.remaining_eq {k : Nat} {st st' : State} (h : st.Beyond k st') :
    st'.remaining = st.remaining := by
  rw [st'.remaining_eq, st.remaining_eq, h.rest]

namespace Reader

variable {α β γ δ : Type} {n k : Nat} {R : α → β → Prop} {S : γ → δ → Prop}

/-- The results of runs from `st` and `st'` that do the same `k` bytes apart. -/
inductive Alike (k : Nat) (R : α → β → Prop) (st st' : State) : Result α → Result β → Prop
  | matched {a : α} {b : β} {s s' : State} {t : Text} (hvalue : R a b) (hpass : st.Passes t s)
      (hs : s.Beyond k s')
      (hgrow : Failures.Grow k st.failures st'.failures s.failures s'.failures) :
      Alike k R st st' (.matched a s) (.matched b s')
  | unmatched {fs fs' : Failures} (hgrow : Failures.Grow k st.failures st'.failures fs fs') :
      Alike k R st st' (.unmatched fs) (.unmatched fs')
  /-- Both stand in front of the class, wherever they began. -/
  | disordered {text : String} {range : ByteRange} {s s' : State} {t : Text}
      (hpass : st.Passes t s) (hopen : s.rest.head? = some '[') (hs : s.Beyond k s')
      (hgrow : Failures.Grow k st.failures st'.failures s.failures s'.failures) :
      Alike k R st st' (.disordered text range s) (.disordered text (range.shift k) s')

theorem Alike.after {st st' st₁ st₁' : State} {t : Text} {r : Result α} {r' : Result β}
    (hpass : st.Passes t st₁)
    (hgrow : Failures.Grow k st.failures st'.failures st₁.failures st₁'.failures)
    (h : Alike k R st₁ st₁' r r') : Alike k R st st' r r' := by
  cases h with
  | matched hvalue hpass' hs hgrow' =>
      exact .matched hvalue (hpass.trans hpass') hs (hgrow.trans hgrow')
  | unmatched hgrow' => exact .unmatched (hgrow.trans hgrow')
  | disordered hpass' hopen hs hgrow' =>
      exact .disordered (hpass.trans hpass') hopen hs (hgrow.trans hgrow')

/-- On texts of at most `n` characters, two readers do the same `k` bytes apart, and the values they
find are related. -/
def Parallel (n k : Nat) (R : α → β → Prop) (p : Reader α) (q : Reader β) : Prop :=
  ∀ st st', st.remaining ≤ n → st.Beyond k st' → Alike k R st st' (p st) (q st')

namespace Parallel

variable {p : Reader α} {q : Reader β} {f : α → Reader γ} {g : β → Reader δ}

theorem imp {S : α → β → Prop} (hp : Parallel n k R p q) (h : ∀ a b, R a b → S a b) :
    Parallel n k S p q := by
  intro st st' hn hst
  have hrun := hp st st' hn hst
  generalize p st = r at hrun ⊢
  generalize q st' = r' at hrun ⊢
  cases hrun with
  | matched hvalue hpass hs hgrow => exact .matched (h _ _ hvalue) hpass hs hgrow
  | unmatched hgrow => exact .unmatched hgrow
  | disordered hpass hopen hs hgrow => exact .disordered hpass hopen hs hgrow

section Basic

protected theorem pure {a : α} {b : β} (h : R a b) :
    Parallel n k R (pure a : Reader α) (pure b : Reader β) :=
  fun st _ _ hst => .matched h (.refl st) hst .refl

theorem nothing : Parallel n k R (nothing : Reader α) (nothing : Reader β) :=
  fun _ _ _ _ => .unmatched .refl

theorem here : Parallel n k (fun m m' => m' = m + k) here here :=
  fun st _ _ hst => .matched hst.offset (.refl st) hst .refl

theorem ahead : Parallel n k (· = ·) ahead ahead :=
  fun st _ _ hst => .matched hst.rest.symm (.refl st) hst .refl

theorem advance (m : Nat) : Parallel n k (· = ·) (advance m) (advance m) := by
  intro st st' _ hst
  refine .matched rfl (.advance st m) ⟨?_, ?_⟩ .refl
  · exact congrArg (List.drop m) hst.rest
  · change st'.offset + Text.byteSize (st'.rest.take m) = st.offset + Text.byteSize _ + k
    rw [hst.rest, hst.offset]
    omega

theorem fail (e : Expectation) : Parallel n k R (fail e : Reader α) (fail e : Reader β) := by
  intro st st' _ hst
  refine .unmatched ?_
  change Failures.Grow k _ _ (st.failures.record st.offset e) (st'.failures.record st'.offset e)
  rw [hst.offset]
  exact .record _ e

theorem expectAt (m : Nat) (e : Expectation) :
    Parallel n k (· = ·) (expectAt m e) (expectAt (m + k) e) :=
  fun st _ _ hst => .matched rfl (.of_failures st _) ⟨hst.rest, hst.offset⟩ (.record m e)

theorem expect (e : Expectation) : Parallel n k (· = ·) (expect e) (expect e) := by
  intro st st' hn hst
  have h := expectAt (n := n) (k := k) st.offset e st st' hn hst
  rw [← hst.offset] at h
  exact h

theorem classBody : Parallel n k (· = ·) classBody classBody := by
  intro st st' hn hst
  simp only [Reader.classBody, hst.rest]
  cases hclass : ClassBody.classBody st.rest with
  | ok o =>
      cases o with
      | none => exact fail _ st st' hn hst
      | some l =>
          have hadvance := advance l.length st st' hn hst
          cases hadvance with
          | matched _ hpass hs hgrow => exact .matched rfl hpass hs hgrow
  | error e =>
      have hopen : st.rest.head? = some '[' := by
        revert hclass
        fun_cases ClassBody.classBody st.rest with
        | case1 | case2 => exact fun _ => rfl
        | case3 => rintro ⟨⟩
      have hrange : (⟨st'.offset + e.before.byteSize, st'.offset + e.before.byteSize +
          e.text.byteSize⟩ : ByteRange) = ByteRange.shift k ⟨st.offset + e.before.byteSize,
            st.offset + e.before.byteSize + e.text.byteSize⟩ := by
        simp only [hst.offset, ByteRange.shift, ByteRange.mk.injEq]
        omega
      simp only [hrange]
      exact .disordered (.refl st) hopen hst .refl

end Basic

section Compose

theorem bind_of_matched (hp : Parallel n k R p q)
    (hf : ∀ st a s b s', p st = .matched a s → s.remaining ≤ st.remaining → st.remaining ≤ n →
      R a b → s.Beyond k s' → Alike k S s s' (f a s) (g b s')) :
    Parallel n k S (p >>= f) (q >>= g) := by
  intro st st' hn hst
  change Alike k S st st' (Reader.bind p f st) (Reader.bind q g st')
  unfold Reader.bind
  have hrun := hp st st' hn hst
  generalize hmatch : p st = r at hrun ⊢
  generalize q st' = r' at hrun ⊢
  cases hrun with
  | matched hvalue hpass hs hgrow =>
      refine .after hpass hgrow (hf st _ _ _ _ hmatch ?_ hn hvalue hs)
      rw [hpass.remaining_eq]
      exact Nat.le_add_left _ _
  | unmatched hgrow => exact .unmatched hgrow
  | disordered hpass hopen hs hgrow => exact .disordered hpass hopen hs hgrow

protected theorem bind (hp : Parallel n k R p q) (hf : ∀ a b, R a b → Parallel n k S (f a) (g b)) :
    Parallel n k S (p >>= f) (q >>= g) :=
  bind_of_matched hp fun _ a s b s' _ hle hn hvalue hs => hf a b hvalue s s' (hle.trans hn) hs

/-- After a reader that takes at least one character, the next one reads from a shorter text. -/
theorem bind_of_lt (hp : Parallel n k R p q)
    (hlt : ∀ st a st', p st = .matched a st' → st'.remaining < st.remaining)
    (hf : ∀ m < n, ∀ a b, R a b → Parallel m k S (f a) (g b)) : Parallel n k S (p >>= f) (q >>= g) :=
  bind_of_matched hp fun st a s b s' hmatch _ hn hvalue hs =>
    hf s.remaining ((hlt st a s hmatch).trans_le hn) a b hvalue s s' (Nat.le_refl _) hs

theorem ahead_bind {f : Text → Reader γ} {g : Text → Reader δ}
    (hf : ∀ s, Parallel n k S (f s) (g s)) :
    Parallel n k S (Reader.ahead >>= f) (Reader.ahead >>= g) :=
  .bind ahead fun a _ h => h ▸ hf a

protected theorem orElse {p' : Reader α} {q' : Reader β} (hp : Parallel n k R p q)
    (hp' : Parallel n k R p' q') : Parallel n k R (p <|> p') (q <|> q') := by
  intro st st' hn hst
  change Alike k R st st' (Reader.orElse p (fun _ => p') st) (Reader.orElse q (fun _ => q') st')
  unfold Reader.orElse
  have hrun := hp st st' hn hst
  generalize p st = r at hrun ⊢
  generalize q st' = r' at hrun ⊢
  cases hrun with
  | matched hvalue hpass hs hgrow => exact .matched hvalue hpass hs hgrow
  | unmatched hgrow =>
      exact .after (.of_failures st _) hgrow (hp' _ _ hn ⟨hst.rest, hst.offset⟩)
  | disordered hpass hopen hs hgrow => exact .disordered hpass hopen hs hgrow

protected theorem optional (hp : Parallel n k R p q) :
    Parallel n k (Option.Rel R) (optional p) (optional q) :=
  .orElse (.bind hp fun _ _ h => .pure (.some h)) (.pure .none)

protected theorem succeeds {p q : Reader Unit} (hp : Parallel n k (· = ·) p q) :
    Parallel n k (· = ·) (succeeds p) (succeeds q) :=
  .orElse (.bind hp fun _ _ _ => .pure rfl) (.pure rfl)

protected theorem located {p : Reader (ByteRange → α)} {q : Reader (ByteRange → β)}
    (hp : Parallel n k (fun f g => ∀ range, R (f range) (g (range.shift k))) p q) :
    Parallel n k R (located p) (located q) := by
  refine .bind here fun start start' hstart => .bind hp fun f g hfg => ?_
  refine .bind here fun stop stop' hstop => .pure ?_
  subst hstart hstop
  exact hfg ⟨start, stop⟩

protected theorem many (hp : Parallel n k R p q) :
    Parallel n k (List.Forall₂ R) (many p) (many q) := by
  intro st st' hn hst
  rw [many.eq_def p, many.eq_def q]
  have hrun := hp st st' hn hst
  generalize p st = r at hrun ⊢
  generalize q st' = r' at hrun ⊢
  cases hrun with
  | @matched a b s s' t hvalue hpass hs hgrow =>
      have hlength : s'.remaining < st'.remaining ↔ s.remaining < st.remaining := by
        rw [hs.remaining_eq, hst.remaining_eq]
      by_cases hlt : s.remaining < st.remaining
      · have hnext := Parallel.many hp s s' (hlt.le.trans hn) hs
        simp only [hlength, if_pos hlt]
        generalize many p s = r at hnext ⊢
        generalize many q s' = r' at hnext ⊢
        refine .after hpass hgrow ?_
        cases hnext with
        | matched hvalues hpass' hs' hgrow' =>
            exact .matched (.cons hvalue hvalues) hpass' hs' hgrow'
        | unmatched hgrow' => exact .unmatched hgrow'
        | disordered hpass' hopen hs' hgrow' => exact .disordered hpass' hopen hs' hgrow'
      · simp only [hlength, if_neg hlt]
        exact .matched (.cons hvalue .nil) hpass hs hgrow
  | unmatched hgrow =>
      exact .matched .nil (.of_failures st _) ⟨hst.rest, hst.offset⟩ hgrow
  | disordered hpass hopen hs hgrow => exact .disordered hpass hopen hs hgrow
termination_by st => st.remaining

end Compose

section Tokens

def SameToken (k : Nat) (t t' : Token α) : Prop := t' = ⟨t.value, t.range.shift k⟩

theorem symbol (c : Char) : Parallel n k (· = ·) (symbol c) (symbol c) := by
  refine ahead_bind fun s => ?_
  split
  · exact advance 1
  · exact fail _

theorem accepts (c : Char) : Parallel n k (· = ·) (accepts c) (accepts c) := by
  refine ahead_bind fun s => ?_
  split
  · exact .bind (advance 1) fun _ _ _ => .pure rfl
  · exact .pure rfl

theorem operator (symbolOf : α → Char) (as : List α) :
    Parallel n k (· = ·) (operator symbolOf as) (operator symbolOf as) := by
  induction as with
  | nil => exact nothing
  | cons a as ih => exact .orElse (.bind (symbol _) fun _ _ _ => .pure rfl) ih

theorem lexeme (description : String) (recognize : Text → Option (Lexeme α)) :
    Parallel n k (SameToken k) (lexeme description recognize) (lexeme description recognize) := by
  refine ahead_bind fun s => ?_
  split
  · exact .located (.bind (advance _) fun _ _ _ => .pure fun _ => rfl)
  · exact fail _

theorem name : Parallel n k (SameToken k) name name := lexeme _ _

theorem codeBlock : Parallel n k (SameToken k) codeBlock codeBlock := by
  refine ahead_bind fun s => ?_
  split
  next code hcode =>
    refine .bind (advance 1) fun _ _ _ => ?_
    have hblock : Parallel n k (SameToken k) (Reader.located do
          Reader.advance code.length
          return ((⟨String.ofList code, ·⟩) : ByteRange → Token String))
        (Reader.located do
          Reader.advance code.length
          return ((⟨String.ofList code, ·⟩) : ByteRange → Token String)) :=
      .located (.bind (advance _) fun _ _ _ => .pure fun _ => rfl)
    exact .bind hblock fun _ _ h => .bind (advance 1) fun _ _ _ => .pure h
  next => exact fail _

end Tokens

section Statements

theorem trivia : Parallel n k (· = ·) trivia trivia :=
  ahead_bind fun _ => .bind (advance _) fun _ _ _ => .bind (expect _) fun _ _ _ =>
    .bind (expect _) fun _ _ _ => expect _

theorem missInlineComment : Parallel n k (· = ·) missInlineComment missInlineComment := by
  refine ahead_bind fun s => ?_
  split
  next body =>
    refine .bind here fun m m' hm => ?_
    subst hm
    have hstop : m + k + 2 + Text.byteSize (Trivia.restOfLine body) =
        m + 2 + Text.byteSize (Trivia.restOfLine body) + k := by omega
    dsimp only
    rw [hstop]
    split
    · exact .bind (expectAt _ _) fun _ _ _ => expectAt _ _
    · exact expectAt _ _
  next => exact expect _

theorem inlineTrivia : Parallel n k (· = ·) inlineTrivia inlineTrivia :=
  ahead_bind fun _ => .bind (advance _) fun _ _ _ => .bind (expect _) fun _ _ _ => missInlineComment

theorem lineComment : Parallel n k (· = ·) lineComment lineComment := by
  refine ahead_bind fun s => ?_
  split
  · exact advance _
  · exact expect _

theorem lineEnd : Parallel n k (· = ·) lineEnd lineEnd := by
  refine ahead_bind fun s => ?_
  split
  · exact advance _
  · exact fail _

theorem endOfInput : Parallel n k (· = ·) endOfInput endOfInput := by
  refine ahead_bind fun s => ?_
  split
  · exact .pure rfl
  · exact fail _

theorem statementEnd : Parallel n k (· = ·) statementEnd statementEnd :=
  .orElse (.bind trivia fun _ _ _ => symbol _) <|
  .orElse (.bind inlineTrivia fun _ _ _ => .bind lineComment fun _ _ _ => lineEnd)
    (.bind trivia fun _ _ _ => endOfInput)

end Statements

end Parallel

end Reader

end PegGrammar
