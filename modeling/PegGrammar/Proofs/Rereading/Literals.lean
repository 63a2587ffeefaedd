import PegGrammar.Proofs.Recognition.CodeBlock
import PegGrammar.Proofs.Recognition.Literal
import PegGrammar.Proofs.Rereading.Names

namespace PegGrammar

namespace Escape

/-- The character after the backslash, and the rest of its escape, stand for `c`. -/
def Escapes (t : Text) (c : Char) : Prop := ∀ s, escaped (t ++ s) = some ⟨some c, t.length⟩

theorem escapes_upper_four {c : Char} (h : c.toNat ≤ 0xFFFF) :
    Escapes ('u' :: Hex.upper 4 c.toNat) c := by
  intro s
  have hu : escapeSequence ('u' :: (Hex.upper 4 c.toNat ++ s)) = some ⟨c, 5⟩ :=
    unicodeEscape_upper h s
  rw [List.cons_append, escaped, hu, List.length_cons, length_upper]

theorem escapes_upper_two {c : Char} (h : c.toNat < 0x100) :
    Escapes ('x' :: Hex.upper 2 c.toNat) c := by
  intro s
  have hx : escapeSequence ('x' :: (Hex.upper 2 c.toNat ++ s)) = some ⟨c, 3⟩ :=
    byteEscape_upper h s
  rw [List.cons_append, escaped, hx, List.length_cons, length_upper]

theorem escapeChar_cases (c : Char) :
    (Printer.escapeChar c = [c] ∧ c ≠ '\\' ∧ isLineTerminator c = false) ∨
      ∃ t, Printer.escapeChar c = '\\' :: t ∧ Escapes t c := by
  fun_cases Printer.escapeChar c with
  | case1 | case2 | case3 | case4 | case5 | case6 | case7 => exact .inr ⟨_, rfl, fun _ => rfl⟩
  | case8 c _ _ _ _ _ _ _ hc =>
      refine .inr ⟨_, rfl, escapes_upper_four ?_⟩
      rcases hc with rfl | rfl <;> decide
  | case9 c _ _ _ _ _ _ _ _ hc =>
      refine .inr ⟨_, rfl, escapes_upper_two ?_⟩
      omega
  | case10 c hslash _ _ hn hr _ _ hsep _ =>
      refine .inl ⟨rfl, hslash, ?_⟩
      rw [not_or] at hsep
      simp only [isLineTerminator, Bool.or_eq_false_iff, beq_eq_false_iff_ne]
      exact ⟨⟨⟨hn, hr⟩, hsep.1⟩, hsep.2⟩

end Escape

namespace StringLiteral

theorem quotedChars_stringChar (c : Char) (s : Text) :
    quotedChars '"' (Printer.stringChar c ++ s) = (quotedChars '"' s).map fun t =>
      ⟨c :: t.value, (Printer.stringChar c).length + t.length⟩ := by
  have escape {t : Text} (ht : Printer.stringChar c = '\\' :: t) (hc : Escape.Escapes t c) :
      quotedChars '"' (Printer.stringChar c ++ s) = (quotedChars '"' s).map fun u =>
        ⟨c :: u.value, (Printer.stringChar c).length + u.length⟩ := by
    rw [ht, List.cons_append, quotedChars]
    simp only [hc s, List.drop_left]
    simp [Nat.add_comm]
  by_cases hquote : c = '"'
  · subst hquote
    exact escape rfl fun _ => rfl
  · have hprint : Printer.stringChar c = Printer.escapeChar c := by
      rw [Printer.stringChar, if_neg hquote]
    rcases Escape.escapeChar_cases c with ⟨hplain, hslash, hline⟩ | ⟨t, ht, hc⟩
    · rw [hprint, hplain, List.singleton_append, quotedChars]
      simp [hquote, hslash, hline]
    · exact escape (hprint.trans ht) hc

theorem stringLiteral_quote (v F : Text) :
    stringLiteral (Printer.quote v ++ F) =
      some ⟨String.ofList v, (Printer.quote v).length⟩ := by
  have hchars : quotedChars '"' (v.flatMap Printer.stringChar ++ '"' :: F) =
      some ⟨v, (v.flatMap Printer.stringChar).length + 1⟩ := by
    induction v with
    | nil =>
        rw [List.flatMap_nil, List.nil_append, quotedChars]
        rfl
    | cons c v ih =>
        rw [List.flatMap_cons, List.append_assoc, quotedChars_stringChar, ih]
        simp [Nat.add_assoc]
  simp [Printer.quote, stringLiteral, hchars, isQuote]

end StringLiteral

namespace ClassBody

theorem classChar_classChar (c : Char) (s : Text) :
    classChar (Printer.classChar c ++ s) =
      some ⟨some c, (Printer.classChar c).length⟩ := by
  have escape {t : Text} (ht : Printer.classChar c = '\\' :: t) (hc : Escape.Escapes t c) :
      classChar (Printer.classChar c ++ s) = some ⟨some c, (Printer.classChar c).length⟩ := by
    rw [ht, List.cons_append, classChar, hc s]
    rfl
  by_cases hmark : c = ']' ∨ c = '^' ∨ c = '-'
  · have hprint : Printer.classChar c = ['\\', c] := by rw [Printer.classChar, if_pos hmark]
    refine escape hprint fun s => ?_
    rcases hmark with rfl | rfl | rfl <;> rfl
  · have hprint : Printer.classChar c = Printer.escapeChar c := by
      rw [Printer.classChar, if_neg hmark]
    rcases Escape.escapeChar_cases c with ⟨hplain, hslash, hline⟩ | ⟨t, ht, hc⟩
    · rw [not_or] at hmark
      rw [hprint, hplain, List.singleton_append, classChar]
      simp [hmark.1, hslash, hline]
    · exact escape (hprint.trans ht) hc

/-- A printed class goes on with neither the dash of a range nor the mark of an inverted class. -/
def Unmarked (s : Text) : Prop := ∀ c ∈ s.head?, c ≠ '-' ∧ c ≠ '^'

theorem unmarked_classChar (c : Char) (s : Text) : Unmarked (Printer.classChar c ++ s) := by
  by_cases hmark : c = ']' ∨ c = '^' ∨ c = '-'
  · rw [Printer.classChar, if_pos hmark]
    simp [Unmarked]
  · rw [Printer.classChar, if_neg hmark]
    rcases Escape.escapeChar_cases c with ⟨hplain, -, -⟩ | ⟨t, ht, -⟩
    · rw [hplain]
      simp only [not_or] at hmark
      simpa [Unmarked] using ⟨hmark.2.2, hmark.2.1⟩
    · rw [ht]
      simp [Unmarked]

theorem unmarked_parts (ps : List ClassPart) (F : Text) :
    Unmarked (ps.flatMap Printer.classPart ++ ']' :: F) := by
  cases ps with
  | nil => simp [Unmarked]
  | cons p ps =>
      cases p with
      | char c => simpa [Printer.classPart] using unmarked_classChar c _
      | range c d => simpa [Printer.classPart] using unmarked_classChar c _

theorem classPart_char {c : Char} {s : Text} (hs : Unmarked s) :
    classPart (Printer.classChar c ++ s) =
      some ⟨some (.char c), (Printer.classChar c).length⟩ := by
  have hrange : classRange (Printer.classChar c ++ s) = none := by
    rw [classRange, classChar_classChar]
    simp only [List.drop_left]
    split
    next h => exact ((hs '-' rfl).1 rfl).elim
    next => rfl
  rw [classPart, hrange, classChar_classChar]
  rfl

theorem classPart_range (c d : Char) (s : Text) :
    classPart (Printer.classChar c ++ '-' :: (Printer.classChar d ++ s)) =
      some ⟨some (.range c d), (Printer.classChar c ++ '-' :: Printer.classChar d).length⟩ := by
  have hrange : classRange (Printer.classChar c ++ '-' :: (Printer.classChar d ++ s)) =
      some ⟨(c, d), (Printer.classChar c).length + 1 + (Printer.classChar d).length⟩ := by
    rw [classRange, classChar_classChar]
    simp only [List.drop_left, classChar_classChar]
  rw [classPart, hrange]
  simp [Nat.add_assoc, Nat.add_comm 1]

theorem classPart_classPart (p : ClassPart) {s : Text} (hs : Unmarked s) :
    classPart (Printer.classPart p ++ s) =
      some ⟨some p, (Printer.classPart p).length⟩ := by
  cases p with
  | char c => exact classPart_char hs
  | range c d => simpa [Printer.classPart] using classPart_range c d s

theorem classParts_append {u rest : Text} {p : ClassPart} {ps : List ClassPart} {n : Nat}
    (h : classPart (u ++ rest) = some ⟨some p, u.length⟩) (hu : u ≠ [])
    (hp : p.isOrdered = true) (hrest : classParts rest = .ok ⟨ps, n⟩) :
    classParts (u ++ rest) = .ok ⟨p :: ps, u.length + n⟩ := by
  cases u with
  | nil => exact (hu rfl).elim
  | cons c u =>
      rw [List.cons_append] at h ⊢
      have hdrop : (u ++ rest).drop ((c :: u).length - 1) = rest := List.drop_left
      rw [classParts, h]
      simp [hp, hrest]

theorem classParts_flatMap {ps : List ClassPart} (hps : ∀ p ∈ ps, p.isOrdered = true) (F : Text) :
    classParts (ps.flatMap Printer.classPart ++ ']' :: F) =
      .ok ⟨ps, (ps.flatMap Printer.classPart).length⟩ := by
  induction ps with
  | nil =>
      rw [List.flatMap_nil, List.nil_append, classParts]
      rfl
  | cons p ps ih =>
      have hread := classPart_classPart p (unmarked_parts ps F)
      have hne : Printer.classPart p ≠ [] := by
        -- nothing is recognised in an empty text
        intro hnil
        have hread := classPart_classPart p (s := []) (by simp [Unmarked])
        rw [hnil] at hread
        cases hread
      have ih := ih fun q hq => hps q (List.mem_cons_of_mem p hq)
      rw [List.flatMap_cons, List.append_assoc,
        classParts_append hread hne (hps p List.mem_cons_self) ih, List.length_append]

def opening (inverted : Bool) : Text := '[' :: if inverted then ['^'] else []

/-- A printed class is taken for inverted exactly if it is. -/
theorem classBody_printed (ps : List ClassPart) (inverted : Bool) (F : Text) :
    classBody (Printer.classBody ps inverted ++ F) =
      closedParts (opening inverted) inverted (ps.flatMap Printer.classPart ++ ']' :: F) := by
  cases inverted with
  | true => simp [Printer.classBody, opening, classBody]
  | false =>
      have htext : Printer.classBody ps false ++ F =
          '[' :: (ps.flatMap Printer.classPart ++ ']' :: F) := by
        simp [Printer.classBody]
      have hcaret : ∀ s, ps.flatMap Printer.classPart ++ ']' :: F ≠ '^' :: s := by
        intro s heq
        exact (unmarked_parts ps F '^' (by rw [heq]; rfl)).2 rfl
      rw [htext, classBody]
      · rfl
      · exact hcaret

theorem length_classBody (ps : List ClassPart) (inverted : Bool) :
    (Printer.classBody ps inverted).length =
      (opening inverted).length + (ps.flatMap Printer.classPart).length + 1 := by
  simp [Printer.classBody, opening]
  omega

theorem classBody_classBody {ps : List ClassPart} (hps : ∀ p ∈ ps, p.isOrdered = true)
    (inverted : Bool) (F : Text) :
    classBody (Printer.classBody ps inverted ++ F) =
      .ok (some ⟨⟨ps, inverted⟩, (Printer.classBody ps inverted).length⟩) := by
  rw [classBody_printed, closedParts, classParts_flatMap hps, length_classBody]
  simp only [List.drop_left]

end ClassBody

namespace CodeBlock

theorem codeBlock_block {code : Text} (h : Balanced code) (F : Text) :
    codeBlock ('{' :: (code ++ '}' :: F)) = some code :=
  codeBlock_eq_some_iff.2 ⟨h, F, rfl⟩

end CodeBlock

end PegGrammar
