import PegGrammar.Proofs.Offsets.Agreement
import PegGrammar.Proofs.Placement
import PegGrammar.Proofs.Recording

namespace PegGrammar

open Reader

section Productions

open Offsets (Document)
open Offsets.Reader.Mirrors (Spanned SameToken)

/-- The productions of documents, their statements and their expressions: each reads the text ahead and
has a reader that works at byte offsets. The relation says how the values of the two correspond. -/
inductive Production (d : Document) :
    {α β : Type} → (α → β → Prop) → Reader α → Offsets.Reader β → Prop
  | document : Production d (fun g g' => g' = g.map d.spanOf) document Offsets.Reader.document
  | topLevelInitializer : Production d (fun i i' => i' = i.map d.spanOf) topLevelInitializer
      Offsets.Reader.topLevelInitializer
  | initializer : Production d (fun i i' => i' = i.map d.spanOf) initializer Offsets.Reader.initializer
  | rule : Production d (fun r r' => r' = r.map d.spanOf) rule Offsets.Reader.rule
  | statementEnd : Production d Eq statementEnd Offsets.Reader.statementEnd
  | choice : Production d (Spanned d) (choice expression) (.choice .expression)
  | action : Production d (Spanned d) (action expression) (.action .expression)
  | sequence : Production d (Spanned d) (sequence expression) (.sequence .expression)
  | label : Production d (SameToken d) label Offsets.Reader.label
  | labeled : Production d (Spanned d) (labeled expression) (.labeled .expression)
  | prefixed : Production d (Spanned d) (prefixed expression) (.prefixed .expression)
  | suffixed : Production d (Spanned d) (suffixed expression) (.suffixed .expression)
  | primary : Production d (Spanned d) (primary expression) (.primary .expression)
  | literal : Production d (Spanned d) literal Offsets.Reader.literal
  | charClass : Production d (Spanned d) charClass Offsets.Reader.charClass
  | any : Production d (Spanned d) any Offsets.Reader.any
  | ruleRef : Production d (Spanned d) ruleRef Offsets.Reader.ruleRef
  | predicate : Production d (Spanned d) predicate Offsets.Reader.predicate
  | group : Production d (Spanned d) (group expression) (.group .expression)
  | afterTrivia {p : Reader Node} {q : Offsets.Reader Offsets.Node} (h : Production d (Spanned d) p q) :
      Production d (Spanned d) (afterTrivia p) (.afterTrivia q)

variable {d : Document} {α β : Type} {R : α → β → Prop} {p : Reader α} {q : Offsets.Reader β}

theorem Production.traced (h : Production d R p q) (n : Nat) : Traced n p := by
  have hinner : ∀ m < n, Traced m expression := fun m _ => .expression m
  induction h with
  | document => exact .document
  | topLevelInitializer => exact .topLevelInitializer
  | initializer => exact .initializer
  | rule => exact .rule
  | statementEnd => exact .statementEnd
  | choice => exact .choice hinner
  | action => exact .action hinner
  | sequence => exact .sequence hinner
  | label => exact .label
  | labeled => exact .labeled hinner
  | prefixed => exact .prefixed hinner
  | suffixed => exact .suffixed hinner
  | primary => exact .primary hinner
  | literal => exact .literal
  | charClass => exact .charClass
  | any => exact .any
  | ruleRef => exact .ruleRef
  | predicate => exact .predicate
  | group => exact .group hinner
  | afterTrivia _ ih => exact .afterTrivia ih

theorem Production.mirrors (h : Production d R p q) (n : Nat) : Offsets.Reader.Mirrors d n R p q := by
  have hinner : ∀ m < n, Offsets.Reader.Mirrors d m (Spanned d) expression Offsets.Reader.expression :=
    fun _ _ => .expression
  induction h with
  | document => exact .document
  | topLevelInitializer => exact .topLevelInitializer
  | initializer => exact .initializer
  | rule => exact .rule
  | statementEnd => exact .statementEnd
  | choice => exact .choice hinner
  | action => exact .action hinner
  | sequence => exact .sequence hinner
  | label => exact .label
  | labeled => exact .labeled hinner
  | prefixed => exact .prefixed hinner
  | suffixed => exact .suffixed hinner
  | primary => exact .primary hinner
  | literal => exact .literal
  | charClass => exact .charClass
  | any => exact .any
  | ruleRef => exact .ruleRef
  | predicate => exact .predicate
  | group => exact .group hinner
  | afterTrivia _ ih => exact .afterTrivia ih

theorem Production.restores (h : Production d R p q) : Offsets.Reader.Restores d q := by
  cases h with
  | document => exact .document
  | topLevelInitializer => exact .topLevelInitializer
  | initializer => exact .initializer
  | rule => exact .rule
  | statementEnd => exact .statementEnd
  | choice => exact .of_backsTo fun _ => .choice
  | action => exact .of_backsTo fun _ => .action
  | sequence => exact .of_backsTo fun _ => .sequence
  | label => exact .label
  | labeled => exact .labeled
  | prefixed => exact .prefixed
  | suffixed => exact .suffixed
  | primary => exact .primary
  | literal => exact .literal
  | charClass => exact .charClass
  | any => exact .any
  | ruleRef => exact .ruleRef
  | predicate => exact .predicate
  | group => exact .group
  | afterTrivia => exact .afterTrivia _

end Productions

variable {α β : Type} {p : Reader α} {source : Text} {st : State}

theorem Result.failures_state (r : Result α) (st : State) : (r.state st).failures = r.failures := by
  cases r <;> rfl

/-- What a reader does to the place where reading stands in a document, and to the failures. -/
structure Backtracks (source : Text) (p : Reader α) (st : State) : Prop where
  restores : ∀ fs, p st = .unmatched fs →
    ((p st).state st).offset = st.offset ∧ ((p st).state st).rest = st.rest
  advances : ∀ a st', p st = .matched a st' →
    st'.At source ∧ st.offset ≤ st'.offset ∧ st'.offset ≤ source.byteSize
  forward : st.failures.Forward ((p st).state st).failures

namespace Offsets

def Outcome.cursor : Outcome α → Cursor
  | .matched _ c | .unmatched c | .disordered _ _ c => c

/-- What a reader at byte offsets does to the offset and to the failures. Here the place is a number
that each production sets back by itself; a reader of the text ahead that does not match returns none. -/
structure Backtracks (d : Document) (q : Reader β) (c : Cursor) : Prop where
  /-- There is no fault. -/
  ends : ∃ o, q d c = .ok o
  restores : ∀ c', q d c = .ok (.unmatched c') → c'.pos = c.pos
  advances : ∀ b c', q d c = .ok (.matched b c') →
    Boundary d.source c'.pos ∧ c.pos ≤ c'.pos ∧ c'.pos ≤ d.source.byteSize
  forward : ∀ o, q d c = .ok o → c.failures.Forward o.cursor.failures

variable {d : Document} {n : Nat} {R : α → β → Prop} {p : PegGrammar.Reader α} {q : Reader β}
  {lines : LineTable}

theorem Mirrored.failures_cursor {r : Result α} {o : Outcome β} (h : Mirrored d n R r o) :
    o.cursor.failures = r.failures := by
  cases h <;> rfl

theorem Backtracks.of_mirrorsAt (h : Reader.MirrorsAt d n R p q st) (hq : Reader.Restores d q)
    (hp : PegGrammar.Backtracks d.source p st) (hlines : lines.Exact d.source) :
    Backtracks d q ⟨st.offset, st.failures, lines⟩ := by
  obtain ⟨o, ho, hrun⟩ := h lines hlines
  refine ⟨⟨o, ho⟩, hq _, fun b c' hmatch => ?_, fun o' ho' => ?_⟩
  · rw [ho] at hmatch
    cases hmatch
    generalize hr : p st = r at hrun
    cases hrun with
    | matched _ _ hst' _ =>
        obtain ⟨-, hle, hsize⟩ := hp.advances _ _ hr
        exact ⟨hst'.boundary, hle, hsize⟩
  · obtain rfl : o = o' := Except.ok.inj (ho.symm.trans ho')
    rw [hrun.failures_cursor, ← Result.failures_state _ st]
    exact hp.forward

end Offsets

/-- Wherever a production is tried in a document, it keeps to these rules. At byte offsets it comes to the
same, and keeps to them as well. -/
theorem Production.backtracks {d : Offsets.Document} {R : α → β → Prop} {q : Offsets.Reader β}
    {lines : Offsets.LineTable} (h : Production d R p q) (hst : st.At d.source)
    (hlines : lines.Exact d.source) :
    Backtracks d.source p st ∧ Offsets.Reader.MirrorsAt d st.remaining R p q st ∧
      Offsets.Backtracks d q ⟨st.offset, st.failures, lines⟩ := by
  obtain ⟨log, hlog, -⟩ := h.traced st.remaining st (Nat.le_refl _)
  have hp : Backtracks d.source p st := by
    refine ⟨fun fs hmiss => ?_, fun a st' hmatch => ?_, ?_⟩
    · rw [hmiss]
      exact ⟨rfl, rfl⟩
    · obtain ⟨t, ht⟩ := hlog.passes hmatch
      have hst' := hst.passes ht
      exact ⟨hst', ht.offset_le, hst'.le_byteSize⟩
    · rw [Result.failures_state, hlog.failures_eq]
      exact Failures.forward_recordAll
  have hmirrors := h.mirrors st.remaining st (Nat.le_refl _) hst
  exact ⟨hp, hmirrors, .of_mirrorsAt hmirrors h.restores hp hlines⟩

theorem group_backtracks :
    let d : Offsets.Document := ⟨"a = (b".toList, none⟩
    let st : State := { rest := "(b".toList, offset := 4 }
    st.At d.source ∧ Offsets.LineTable.Exact d.source {} ∧
      Backtracks d.source (group expression) st ∧
      Offsets.Reader.MirrorsAt d st.remaining (Offsets.Reader.Mirrors.Spanned d) (group expression)
        (.group .expression) st ∧
      Offsets.Backtracks d (.group .expression) ⟨4, {}, {}⟩ :=
  have hat : State.At "a = (b".toList { rest := "(b".toList, offset := 4 } :=
    ⟨"a = ".toList, by decide, by decide⟩
  have hlines := Offsets.LineTable.exact_new "a = (b".toList
  ⟨hat, hlines, Production.backtracks .group hat hlines⟩

end PegGrammar
