import PegGrammar.Proofs.Rereading.Names
import PegGrammar.Reader.Expression

namespace PegGrammar

namespace Unicode

/-- No code point is in two ranges of different lists. -/
def Apart (as bs : List CodeRange) : Prop :=
  ∀ a ∈ as, ∀ b ∈ bs, a.last < b.first ∨ b.last < a.first

instance (as bs : List CodeRange) : Decidable (Apart as bs) :=
  inferInstanceAs (Decidable (∀ a ∈ as, ∀ b ∈ bs, a.last < b.first ∨ b.last < a.first))

theorem Apart.covers_eq_false {as bs : List CodeRange} (h : Apart as bs)
    (has : ascending 0 as = true) (hbs : ascending 0 bs = true) {n : Nat}
    (hn : covers bs n = true) : covers as n = false := by
  rw [Bool.eq_false_iff]
  intro hn'
  obtain ⟨a, ha, ha₁, ha₂⟩ := (covers_iff has n).1 hn'
  obtain ⟨b, hb, hb₁, hb₂⟩ := (covers_iff hbs n).1 hn
  have := h a ha b hb
  omega

theorem spaces_apart_letters : Apart spaces letters := by decide +kernel

theorem spaces_apart_nameMarks : Apart spaces nameMarks := by decide +kernel

end Unicode

open Unicode

theorem isSpace_eq_false_of_isNamePart {c : Char} (h : isNamePart c = true) : isSpace c = false := by
  simp only [isNamePart, isNameStart, Bool.or_eq_true, beq_iff_eq] at h
  rcases h with ((rfl | rfl) | hletter) | hmark
  · decide
  · decide
  · exact spaces_apart_letters.covers_eq_false ascending_spaces ascending_letters hletter
  · exact spaces_apart_nameMarks.covers_eq_false ascending_spaces ascending_nameMarks hmark

theorem isLineTerminator_eq_false_of_isNamePart {c : Char} (h : isNamePart c = true) :
    isLineTerminator c = false := by
  rw [Bool.eq_false_iff]
  intro hline
  simp only [isLineTerminator, Bool.or_eq_true, beq_iff_eq] at hline
  rcases hline with ((rfl | rfl) | rfl) | rfl
  all_goals exact absurd h (by decide +kernel)

/-- No trivia begins with this character. -/
structure Solid (c : Char) : Prop where
  space : isSpace c = false
  line : isLineTerminator c = false
  slash : c ≠ '/'

theorem solid_of_isNamePart {c : Char} (h : isNamePart c = true) : Solid c := by
  refine ⟨isSpace_eq_false_of_isNamePart h, isLineTerminator_eq_false_of_isNamePart h, ?_⟩
  rintro rfl
  exact absurd h (by decide +kernel)

instance (c : Char) : Decidable (Solid c) :=
  decidable_of_iff (isSpace c = false ∧ isLineTerminator c = false ∧ c ≠ '/')
    ⟨fun h => ⟨h.1, h.2.1, h.2.2⟩, fun h => ⟨h.space, h.line, h.slash⟩⟩

theorem forall_mem_of_all {P : Char → Prop} [DecidablePred P] {l : List Char}
    (h : l.all (P ·) = true) : ∀ c ∈ l, P c := by
  simpa using h

def opens (c : Char) : Bool :=
  isNameStart c || ['\\', '@', '&', '!', '(', '"', '\x27', '[', '.'].contains c

theorem solid_of_opens {c : Char} (h : opens c = true) : Solid c := by
  rw [opens, Bool.or_eq_true, List.contains_iff_mem] at h
  rcases h with h | h
  · exact solid_of_isNamePart (Name.isNamePart_of_isNameStart h)
  · exact forall_mem_of_all (by decide +kernel) c h

namespace Trivia

theorem space_eq_none {c : Char} (h : isSpace c = false) (s : Text) : space (c :: s) = none := by
  simp [space, h]

theorem lineEnd_eq_none {c : Char} (h : isLineTerminator c = false) (s : Text) :
    lineEnd (c :: s) = none := by
  rw [lineEnd.eq_def]
  split
  next heq =>
    cases heq
    exact absurd h (by decide)
  next heq =>
    cases heq
    simp [h]
  next => rfl

theorem lineComment_eq_none {c : Char} (h : c ≠ '/') (s : Text) : lineComment (c :: s) = none := by
  rw [lineComment.eq_def]
  split
  next heq => cases heq; exact (h rfl).elim
  next => rfl

theorem inlineComment_eq_none {c : Char} (h : c ≠ '/') (s : Text) :
    inlineComment (c :: s) = none := by
  rw [inlineComment.eq_def]
  split
  next heq => cases heq; exact (h rfl).elim
  next => rfl

theorem blockComment_eq_none {c : Char} (h : c ≠ '/') (s : Text) :
    blockComment (c :: s) = none := by
  rw [blockComment.eq_def]
  split
  next heq => cases heq; exact (h rfl).elim
  next => rfl

theorem unit_eq_none {c : Char} (h : Solid c) (s : Text) : unit (c :: s) = none := by
  simp [unit, comment, space_eq_none h.space, lineEnd_eq_none h.line, blockComment_eq_none h.slash,
    lineComment_eq_none h.slash]

theorem inlineUnit_eq_none {c : Char} (hspace : isSpace c = false) (hslash : c ≠ '/') (s : Text) :
    inlineUnit (c :: s) = none := by
  simp [inlineUnit, space_eq_none hspace, inlineComment_eq_none hslash]

section

variable {unit : Text → Option Nat} {c : Char} {s : Text}

theorem drop_run_of_eq_none (h : unit (c :: s) = none) :
    (c :: s).drop (run unit (c :: s)) = c :: s := by
  rw [run, h]
  rfl

theorem drop_run_of_eq_one (h : unit (c :: s) = some 1) :
    (c :: s).drop (run unit (c :: s)) = s.drop (run unit s) := by
  rw [run, h]
  simp only [List.drop_zero, Nat.zero_add]
  rw [Nat.add_comm, List.drop_succ_cons]

end

end Trivia

namespace Reader

theorem skipTrivia_skipTrivia (s : Text) : skipTrivia (skipTrivia s) = skipTrivia s := by
  rw [skipTrivia, skipTrivia, Trivia.skip, Trivia.run_drop_run, List.drop_zero]

theorem skipTrivia_nil : skipTrivia [] = [] := by
  rw [skipTrivia, List.drop_nil]

theorem skipTrivia_solid {c : Char} (h : Solid c) (s : Text) : skipTrivia (c :: s) = c :: s :=
  Trivia.drop_run_of_eq_none (Trivia.unit_eq_none h s)

theorem skipTrivia_slash (s : Text) : skipTrivia ('/' :: ' ' :: s) = '/' :: ' ' :: s :=
  Trivia.drop_run_of_eq_none rfl

theorem skipTrivia_space (s : Text) : skipTrivia (' ' :: s) = skipTrivia s :=
  Trivia.drop_run_of_eq_one rfl

theorem skipTrivia_newline (s : Text) : skipTrivia ('\n' :: s) = skipTrivia s :=
  Trivia.drop_run_of_eq_one rfl

end Reader

end PegGrammar
