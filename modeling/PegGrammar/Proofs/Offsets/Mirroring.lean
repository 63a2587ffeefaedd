import PegGrammar.Proofs.Offsets.Restoring
import PegGrammar.Proofs.Reuse

namespace PegGrammar

namespace Offsets

variable {α β γ δ : Type} {d : Document} {n m : Nat} {R : α → β → Prop} {S : γ → δ → Prop}

theorem lookUp_eq {r : ByteRange} {lines : LineTable} (hlines : lines.Exact d.source)
    (hr : Inside d.source r) : ∃ lines', d.lookUp lines r = .ok (d.spanOf r, lines') ∧
      lines'.Exact d.source := by
  obtain ⟨p, q, lines', hp, hq, hrun, hlines'⟩ := LineTable.span_eq d.tag hlines hr
  obtain ⟨⟨s, hs⟩, ⟨t, ht⟩⟩ := hr
  refine ⟨lines', ?_, hlines'⟩
  rw [Document.lookUp, if_pos ⟨hs.le_byteSize, ht.le_byteSize⟩, hrun, Document.spanOf, Text.spanAt, hp, hq]
  rfl

theorem byteSize_le_iff {source s : Text} {pos : Nat} (h : StandsAt source s pos) :
    source.byteSize ≤ pos ↔ s.isEmpty = true := by
  rw [List.isEmpty_iff, h.eq_nil_iff]
  exact ⟨fun hle => h.le_byteSize.antisymm hle, fun heq => heq.ge⟩

theorem remaining_lt_iff {source : Text} {st st' : State} (h : st.At source) (h' : st'.At source) :
    source.byteSize - st'.offset < source.byteSize - st.offset ↔ st'.remaining < st.remaining := by
  rw [st.remaining_eq, st'.remaining_eq]
  constructor
  · intro hlt
    have hle : st.offset ≤ st'.offset := by omega
    obtain ⟨between, hrest, hsize⟩ := h.exists_between h' hle
    have hne : between ≠ [] := by
      rintro rfl
      rw [Text.byteSize_nil] at hsize
      omega
    rw [hrest, List.length_append]
    exact Nat.lt_add_of_pos_left (List.length_pos_iff.2 hne)
  · intro hlt
    have hoffset := h.lt_of_length_lt h' hlt
    have hsize := h'.le_byteSize
    omega

/-- The end of a reading of the text ahead, and the end of the same reading at offsets. At most `n`
characters are left. -/
inductive Mirrored (d : Document) (n : Nat) (R : α → β → Prop) : Result α → Outcome β → Prop
  | matched {a : α} {b : β} {st : State} {lines : LineTable} (hvalue : R a b)
      (hn : st.remaining ≤ n) (hst : st.At d.source) (hlines : lines.Exact d.source) :
      Mirrored d n R (.matched a st) (.matched b ⟨st.offset, st.failures, lines⟩)
  /-- Nothing says where the offset is. -/
  | unmatched {fs : Failures} {pos : Nat} {lines : LineTable} (hlines : lines.Exact d.source) :
      Mirrored d n R (.unmatched fs) (.unmatched ⟨pos, fs, lines⟩)
  | disordered {text : String} {range : ByteRange} {st : State} {lines : LineTable}
      (hst : st.At d.source) (hlines : lines.Exact d.source) :
      Mirrored d n R (.disordered text range st)
        (.disordered text (d.spanOf range) ⟨st.offset, st.failures, lines⟩)

theorem Mirrored.of_le {r : Result α} {o : Outcome β} (hle : m ≤ n) (h : Mirrored d m R r o) :
    Mirrored d n R r o := by
  cases h with
  | matched hvalue hn hst hlines => exact .matched hvalue (hn.trans hle) hst hlines
  | unmatched hlines => exact .unmatched hlines
  | disordered hst hlines => exact .disordered hst hlines

namespace Reader

/-- From a state and from the same place at offsets, `q` comes to the same as `p` without a fault, and
the values they find are related. -/
def MirrorsAt (d : Document) (n : Nat) (R : α → β → Prop) (p : PegGrammar.Reader α) (q : Reader β)
    (st : State) : Prop :=
  ∀ lines, lines.Exact d.source →
    ∃ o, q d ⟨st.offset, st.failures, lines⟩ = .ok o ∧ Mirrored d n R (p st) o

/-- The same wherever at most `n` characters of the document are left. -/
def Mirrors (d : Document) (n : Nat) (R : α → β → Prop) (p : PegGrammar.Reader α) (q : Reader β) :
    Prop :=
  ∀ st, st.remaining ≤ n → st.At d.source → MirrorsAt d n R p q st

variable {p : PegGrammar.Reader α} {q : Reader β} {f : α → PegGrammar.Reader γ} {g : β → Reader δ}
  {st : State}

namespace MirrorsAt

protected theorem pure {a : α} {b : β} (h : R a b) (hn : st.remaining ≤ n) (hst : st.At d.source) :
    MirrorsAt d n R (pure a : PegGrammar.Reader α) (pure b : Reader β) st :=
  fun _ hlines => ⟨_, rfl, .matched h hn hst hlines⟩

theorem fail (e : Expectation) : MirrorsAt d n R (PegGrammar.Reader.fail e : PegGrammar.Reader α)
    (fail e : Reader β) st :=
  fun _ hlines => ⟨_, rfl, .unmatched hlines⟩

theorem moveTo (k : Nat) (hn : st.remaining ≤ n) (hst : st.At d.source) :
    MirrorsAt d n Eq (PegGrammar.Reader.advance k)
      (moveTo (st.rest.stopAt st.offset k)) st :=
  fun _ hlines => ⟨_, rfl, .matched rfl ((Nat.sub_le _ k).trans hn) (hst.drop k) hlines⟩

theorem backTo {pos : Nat} (h : MirrorsAt d n R p q st) : MirrorsAt d n R p (backTo pos q) st := by
  intro lines hlines
  obtain ⟨o, ho, hrun⟩ := h lines hlines
  rw [Reader.backTo, ho]
  generalize p st = r at hrun ⊢
  cases hrun with
  | matched hvalue hn hst hlines' => exact ⟨_, rfl, .matched hvalue hn hst hlines'⟩
  | unmatched hlines' => exact ⟨_, rfl, .unmatched hlines'⟩
  | disordered hst hlines' => exact ⟨_, rfl, .disordered hst hlines'⟩

theorem here_bind {g : Nat → Reader β} (h : MirrorsAt d n R p (g st.offset) st) :
    MirrorsAt d n R p (here >>= g) st := h

theorem of_here {f : Nat → PegGrammar.Reader α} (h : MirrorsAt d n R (f st.offset) q st) :
    MirrorsAt d n R (PegGrammar.Reader.here >>= f) q st := h

theorem look_bind {recognize : Text → Nat → Except Fault β} {p : PegGrammar.Reader γ} {b : β}
    (hlook : recognize d.source st.offset = .ok b) (h : MirrorsAt d n S p (g b) st) :
    MirrorsAt d n S p (look recognize >>= g) st := by
  intro lines hlines
  obtain ⟨o, ho, hrun⟩ := h lines hlines
  refine ⟨o, ?_, hrun⟩
  change Reader.bind (look recognize) g d _ = _
  rw [Reader.bind, look, hlook]
  exact ho

theorem ahead_bind {recognize : Text → Nat → Except Fault β} {f : Text → PegGrammar.Reader γ} {b : β}
    (hlook : recognize d.source st.offset = .ok b) (h : MirrorsAt d n S (f st.rest) (g b) st) :
    MirrorsAt d n S (PegGrammar.Reader.ahead >>= f) (look recognize >>= g) st :=
  look_bind (p := PegGrammar.Reader.ahead >>= f) hlook h

theorem span_bind {g : Span → Reader β} {r : ByteRange} (hr : Inside d.source r)
    (h : MirrorsAt d n R p (g (d.spanOf r)) st) : MirrorsAt d n R p (span r >>= g) st := by
  intro lines hlines
  obtain ⟨lines', hspan, hlines'⟩ := lookUp_eq hlines hr
  obtain ⟨o, ho, hrun⟩ := h lines' hlines'
  refine ⟨o, ?_, hrun⟩
  change Reader.bind (span r) g d _ = _
  rw [Reader.bind, span, hspan]
  exact ho

theorem spanFrom_bind {g : Span → Reader β} {start : Nat} (hr : Inside d.source ⟨start, st.offset⟩)
    (h : MirrorsAt d n R p (g (d.spanOf ⟨start, st.offset⟩)) st) :
    MirrorsAt d n R p (spanFrom start >>= g) st := by
  intro lines hlines
  obtain ⟨o, ho, hrun⟩ := span_bind hr h lines hlines
  refine ⟨o, ?_, hrun⟩
  change Reader.bind (Reader.bind here fun stop => span ⟨start, stop⟩) g d _ = _
  change Reader.bind (span _) g d _ = _ at ho
  simpa only [Reader.bind, here] using ho

/-- One reader after another. What is read next may depend on the state that was reached. -/
theorem bind_of_matched (hp : MirrorsAt d n R p q st)
    (hf : ∀ a b st', p st = .matched a st' → R a b → st'.remaining ≤ n → st'.At d.source →
      MirrorsAt d n S (f a) (g b) st') :
    MirrorsAt d n S (p >>= f) (q >>= g) st := by
  intro lines hlines
  obtain ⟨o, ho, hrun⟩ := hp lines hlines
  change ∃ o, Reader.bind q g d _ = .ok o ∧ Mirrored d n S (PegGrammar.Reader.bind p f st) o
  rw [Reader.bind, PegGrammar.Reader.bind, ho]
  generalize hmatch : p st = r at hrun ⊢
  cases hrun with
  | matched hvalue hn hst hlines' => exact hf _ _ _ hmatch hvalue hn hst _ hlines'
  | unmatched hlines' => exact ⟨_, rfl, .unmatched hlines'⟩
  | disordered hst hlines' => exact ⟨_, rfl, .disordered hst hlines'⟩

protected theorem bind (hp : MirrorsAt d n R p q st)
    (hf : ∀ a b, R a b → Mirrors d n S (f a) (g b)) : MirrorsAt d n S (p >>= f) (q >>= g) st :=
  bind_of_matched hp fun a b st' _ hvalue hn hst => hf a b hvalue st' hn hst

end MirrorsAt

namespace Mirrors

section Basic

protected theorem pure {a : α} {b : β} (h : R a b) :
    Mirrors d n R (pure a : PegGrammar.Reader α) (pure b : Reader β) :=
  fun _ hn hst => .pure h hn hst

theorem nothing : Mirrors d n R (PegGrammar.Reader.nothing : PegGrammar.Reader α)
    (nothing : Reader β) :=
  fun _ _ _ _ hlines => ⟨_, rfl, .unmatched hlines⟩

theorem expectAt (k : Nat) (e : Expectation) :
    Mirrors d n Eq (PegGrammar.Reader.expectAt k e) (expectAt k e) :=
  fun _ hn hst _ hlines => ⟨_, rfl, .matched rfl hn hst hlines⟩

theorem expect (e : Expectation) :
    Mirrors d n Eq (PegGrammar.Reader.expect e) (expect e) :=
  fun _ hn hst _ hlines => ⟨_, rfl, .matched rfl hn hst hlines⟩

end Basic

section Compose

protected theorem bind (hp : Mirrors d n R p q) (hf : ∀ a b, R a b → Mirrors d n S (f a) (g b)) :
    Mirrors d n S (p >>= f) (q >>= g) :=
  fun st hn hst => (hp st hn hst).bind hf

theorem here_bind {g : Nat → Reader β} (h : ∀ k, Mirrors d n R p (g k)) :
    Mirrors d n R p (here >>= g) :=
  fun st hn hst => h st.offset st hn hst

protected theorem backTo {pos : Nat} (h : Mirrors d n R p q) : Mirrors d n R p (backTo pos q) :=
  fun st hn hst => (h st hn hst).backTo

protected theorem restoring (h : Mirrors d n R p q) : Mirrors d n R p (restoring q) :=
  fun st hn hst => .here_bind (h st hn hst).backTo

theorem ahead_bind {recognize : Text → β} {recognizeAt : Text → Nat → Except Fault β}
    {f : Text → PegGrammar.Reader γ}
    (h : ∀ {s pos}, StandsAt d.source s pos → recognizeAt d.source pos = .ok (recognize s))
    (hf : ∀ s, Mirrors d n S (f s) (g (recognize s))) :
    Mirrors d n S (PegGrammar.Reader.ahead >>= f) (look recognizeAt >>= g) :=
  fun st hn hst => .ahead_bind (h hst) (hf st.rest st hn hst)

theorem span_bind {g : Span → Reader β} {r : ByteRange} (hr : Inside d.source r)
    (h : Mirrors d n R p (g (d.spanOf r))) : Mirrors d n R p (span r >>= g) :=
  fun st hn hst => .span_bind hr (h st hn hst)

/-- After a reader that takes at least one character, the next one reads from a shorter text. -/
theorem bind_of_lt (hp : Mirrors d n R p q)
    (hlt : ∀ st a st', p st = .matched a st' → st'.remaining < st.remaining)
    (hf : ∀ m < n, ∀ a b, R a b → Mirrors d m S (f a) (g b)) :
    Mirrors d n S (p >>= f) (q >>= g) := by
  refine fun st hn hst => (hp st hn hst).bind_of_matched fun a b st' hmatch hvalue _ hst' => ?_
  have hless := (hlt st a st' hmatch).trans_le hn
  intro lines hlines
  obtain ⟨o, ho, hrun⟩ := hf _ hless a b hvalue st' (Nat.le_refl _) hst' lines hlines
  exact ⟨o, ho, hrun.of_le hless.le⟩

/-- The second choice begins where the first one did only if that restores the offset. -/
protected theorem orElse {p' : PegGrammar.Reader α} {q' : Reader β} (hp : Mirrors d n R p q)
    (hq : Restores d q) (hp' : Mirrors d n R p' q') : Mirrors d n R (p <|> p') (q <|> q') := by
  intro st hn hst lines hlines
  obtain ⟨o, ho, hrun⟩ := hp st hn hst lines hlines
  change ∃ o, Reader.orElse q (fun _ => q') d _ = .ok o ∧
    Mirrored d n R (PegGrammar.Reader.orElse p (fun _ => p') st) o
  rw [Reader.orElse, PegGrammar.Reader.orElse, ho]
  generalize p st = r at hrun ⊢
  cases hrun with
  | matched hvalue hn' hst' hlines' => exact ⟨_, rfl, .matched hvalue hn' hst' hlines'⟩
  | @unmatched fs _ lines' hlines' =>
      obtain rfl := hq _ _ ho
      exact hp' { st with failures := fs } hn hst lines' hlines'
  | disordered hst' hlines' => exact ⟨_, rfl, .disordered hst' hlines'⟩

protected theorem optional (hp : Mirrors d n R p q) (hq : Restores d q) :
    Mirrors d n (Option.Rel R) (PegGrammar.Reader.optional p) (optional q) :=
  .orElse (.bind hp fun _ _ h => .pure (.some h)) (.bind hq fun _ _ => .pure _) (.pure .none)

protected theorem succeeds {p : PegGrammar.Reader Unit} {q : Reader Unit}
    (hp : Mirrors d n Eq p q) (hq : Restores d q) :
    Mirrors d n Eq (PegGrammar.Reader.succeeds p) (succeeds q) :=
  .orElse (.bind hp fun _ _ _ => .pure rfl) (.bind hq fun _ _ => .pure _) (.pure rfl)

protected theorem many (hp : Mirrors d n R p q) (hq : Restores d q) :
    Mirrors d n (List.Forall₂ R) (PegGrammar.Reader.many p) (many q) := by
  intro st hn hst lines hlines
  rw [PegGrammar.Reader.many.eq_def p, many.eq_def q]
  obtain ⟨o, ho, hrun⟩ := hp st hn hst lines hlines
  rw [ho]
  generalize p st = r at hrun ⊢
  cases hrun with
  | @matched a b st' lines' hvalue hn' hst' hlines' =>
      simp only [remaining_lt_iff hst hst']
      by_cases hlt : st'.remaining < st.remaining
      · obtain ⟨o', ho', hrun'⟩ := Mirrors.many hp hq st' hn' hst' lines' hlines'
        simp only [if_pos hlt, ho']
        generalize PegGrammar.Reader.many p st' = r' at hrun' ⊢
        cases hrun' with
        | matched hvalues hn'' hst'' hlines'' =>
            exact ⟨_, rfl, .matched (.cons hvalue hvalues) hn'' hst'' hlines''⟩
        | unmatched hlines'' => exact ⟨_, rfl, .unmatched hlines''⟩
        | disordered hst'' hlines'' => exact ⟨_, rfl, .disordered hst'' hlines''⟩
      · simp only [if_neg hlt]
        exact ⟨_, rfl, .matched (.cons hvalue .nil) hn' hst' hlines'⟩
  | unmatched hlines' =>
      obtain rfl := hq _ _ ho
      exact ⟨_, rfl, .matched .nil hn hst hlines'⟩
  | disordered hst' hlines' => exact ⟨_, rfl, .disordered hst' hlines'⟩
termination_by st => st.remaining

end Compose

section Tokens

def SameToken (d : Document) (t t' : Token α) : Prop := t' = t ∧ Inside d.source t.range

theorem symbol (c : Char) : Mirrors d n Eq (PegGrammar.Reader.symbol c) (symbol c) := by
  refine fun st hn hst => .ahead_bind (congrArg Except.ok (literalAt?_one hst)) ?_
  by_cases hc : st.rest.head? = some c
  · simp only [if_pos hc]
    exact .moveTo 1 hn hst
  · simp only [if_neg hc]
    exact .fail _

theorem accepts (c : Char) : Mirrors d n Eq (PegGrammar.Reader.accepts c) (accepts c) := by
  refine fun st hn hst => .ahead_bind (congrArg Except.ok (literalAt?_one hst)) ?_
  by_cases hc : st.rest.head? = some c
  · simp only [if_pos hc]
    exact .bind (.moveTo 1 hn hst) fun _ _ _ => .pure rfl
  · simp only [if_neg hc]
    exact .pure rfl hn hst

theorem operator (symbolOf : α → Char) (as : List α) :
    Mirrors d n Eq (PegGrammar.Reader.operator symbolOf as) (operator symbolOf as) := by
  induction as with
  | nil => exact nothing
  | cons a as ih =>
      exact .orElse (.bind (symbol _) fun _ _ _ => .pure rfl) (.bind (.symbol _) fun _ _ => .pure _) ih

theorem lexeme (description : String) {recognize : Text → Option (Lexeme α)}
    {recognizeAt : Text → Nat → Checked (α × Nat)}
    (h : Agrees.Values d.source (recognizeAt d.source) recognize) :
    Mirrors d n (SameToken d) (PegGrammar.Reader.lexeme description recognize)
      (lexeme description recognizeAt) := by
  intro st hn hst
  refine .here_bind (.ahead_bind (congrArg OptionT.run (h.there hst)) ?_)
  cases recognize st.rest with
  | none => exact .fail _
  | some l =>
      have hstop := hst.stopAt l.length
      exact fun lines hlines => ⟨_, rfl, .matched ⟨rfl, hst.boundary, hstop.boundary⟩
        ((Nat.sub_le _ _).trans hn) hstop hlines⟩

theorem name : Mirrors d n (SameToken d) PegGrammar.Reader.name name := lexeme _ name_agrees

theorem codeBlock : Mirrors d n (SameToken d) PegGrammar.Reader.codeBlock codeBlock := by
  intro st hn hst
  refine .ahead_bind (congrArg OptionT.run (codeBlock_agrees.there hst)) ?_
  cases hcode : CodeBlock.codeBlock st.rest with
  | none => exact .fail _
  | some code =>
      obtain ⟨-, r, hr⟩ := CodeBlock.codeBlock_eq_some_iff.1 hcode
      have hbody := hst.stopAt 1
      have hstop := hbody.stopAt code.length
      have hnext := hstop.stopAt 1
      have hsize : '{'.utf8Size = 1 ∧ '}'.utf8Size = 1 := ⟨rfl, rfl⟩
      have h₁ : (st.advance 1).offset = st.offset + 1 := by simp [State.advance, hr, hsize]
      have h₂ : ((st.advance 1).advance code.length).offset = st.offset + 1 + Text.byteSize code := by
        simp [State.advance, hr, hsize]
      have h₃ : (((st.advance 1).advance code.length).advance 1).offset =
          st.offset + 1 + Text.byteSize code + 1 := by
        simp [State.advance, hr, hsize]
      intro lines hlines
      refine ⟨.matched ⟨String.ofList code, ⟨st.offset + 1, st.offset + 1 + Text.byteSize code⟩⟩
        ⟨st.offset + 1 + Text.byteSize code + 1, st.failures, lines⟩, rfl, ?_⟩
      rw [← h₃, ← h₂, ← h₁]
      refine .matched ⟨rfl, hbody.boundary, hstop.boundary⟩ ?_ hnext hlines
      exact (Nat.sub_le _ _).trans ((Nat.sub_le _ _).trans ((Nat.sub_le _ _).trans hn))

theorem classBody : Mirrors d n Eq PegGrammar.Reader.classBody classBody := by
  intro st hn hst
  refine .look_bind (classBody_eq hst) ?_
  cases hclass : ClassBody.classBody st.rest with
  | ok l =>
      cases l with
      | none =>
          have hrun : PegGrammar.Reader.classBody st =
              PegGrammar.Reader.fail (.named "character class") st := by
            simp only [PegGrammar.Reader.classBody, hclass]
          intro lines hlines
          rw [hrun]
          exact MirrorsAt.fail _ lines hlines
      | some l =>
          have hrun : PegGrammar.Reader.classBody st = .matched l.value (st.advance l.length) := by
            simp only [PegGrammar.Reader.classBody, hclass]
          intro lines hlines
          rw [hrun]
          exact ⟨_, rfl, .matched rfl ((Nat.sub_le _ _).trans hn) (hst.stopAt l.length) hlines⟩
  | error e =>
      obtain ⟨r, hr⟩ := ClassBody.text_of_classBody hclass
      have hstands : StandsAt d.source (e.before ++ (e.text ++ r)) st.offset := hr ▸ hst
      have hrun : PegGrammar.Reader.classBody st =
          .disordered (String.ofList e.text) (invalidAt st.offset e).range st := by
        simp only [PegGrammar.Reader.classBody, hclass, invalidAt]
      refine .span_bind ⟨hstands.append.boundary, hstands.append.append.boundary⟩ ?_
      intro lines hlines
      rw [hrun]
      exact ⟨_, rfl, .disordered hst hlines⟩

end Tokens

end Mirrors

end Reader

end Offsets

end PegGrammar
