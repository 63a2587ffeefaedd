import PegGrammar.Printer
import PegGrammar.Proofs.StringForms

namespace PegGrammar

theorem Text.byteSize_eq_utf8ByteSize (s : Text) : s.byteSize = (String.ofList s).utf8ByteSize := by
  induction s with
  | nil => simp
  | cons c s ih =>
      have hcons : String.ofList (c :: s) = String.singleton c ++ String.ofList s := by
        rw [String.singleton_eq_ofList, ← String.ofList_append]
        rfl
      rw [hcons, String.utf8ByteSize_append, String.utf8ByteSize_singleton, byteSize_cons, ih]

namespace Printer

/-- A character that neither ends a line nor is one of the first control characters. -/
def Visible (c : Char) : Prop := isLineTerminator c = false ∧ 0x20 ≤ c.toNat

instance (c : Char) : Decidable (Visible c) := inferInstanceAs (Decidable (_ ∧ _))

theorem visible_upperDigit : ∀ d < 16, Visible (Hex.upperDigit d) := by decide

theorem visible_upper (width n : Nat) : ∀ c ∈ Hex.upper width n, Visible c := by
  induction width generalizing n with
  | zero => simp [Hex.upper, Hex.digits]
  | succ width ih =>
      have hdigit := visible_upperDigit (n % 16) (Nat.mod_lt n (by decide))
      simpa [Hex.upper, Hex.digits, or_imp, forall_and, hdigit] using ih (n / 16)

theorem visible_backslash : Visible '\\' := by decide

theorem visible_escapeChar (c : Char) : ∀ d ∈ escapeChar c, Visible d := by
  have escape {a : Char} {t : Text} (ha : Visible a) (ht : ∀ d ∈ t, Visible d) :
      ∀ d ∈ '\\' :: a :: t, Visible d := by
    simpa [visible_backslash, ha] using ht
  fun_cases escapeChar c with
  | case1 | case2 | case3 | case4 | case5 | case6 | case7 =>
      apply escape
      · decide
      · simp
  | case8 | case9 =>
      apply escape
      · decide
      · apply visible_upper
  | case10 c _ _ _ hn hr _ _ hsep hcontrol =>
      have hline : isLineTerminator c = false := by
        rw [not_or] at hsep
        simpa [isLineTerminator, hsep] using ⟨hn, hr⟩
      rw [not_or] at hcontrol
      simpa using ⟨hline, Nat.le_of_not_lt hcontrol.1⟩

theorem visible_quote (s : Text) : ∀ c ∈ quote s, Visible c := by
  have hquote : Visible '"' := by decide
  have hchars (c : Char) : ∀ d ∈ stringChar c, Visible d := by
    by_cases hc : c = '"'
    · rw [stringChar, if_pos hc]
      simp [visible_backslash, hquote]
    · rw [stringChar, if_neg hc]
      exact visible_escapeChar c
  intro c hc
  simp only [quote, List.mem_cons, List.mem_append, List.mem_flatMap, List.not_mem_nil,
    or_false] at hc
  rcases hc with rfl | ⟨d, -, hd⟩ | rfl
  · exact hquote
  · exact hchars d c hd
  · exact hquote

end Printer

open Offsets

/-- A string, quoted between two texts, and what is read at its opening quote. -/
structure QuotedReadsBack (v before after : String) : Prop where
  read : Text.Decodes (before ++ Printer.quoteString v ++ after).toList StringLiteral.stringLiteral v
    ⟨before.utf8ByteSize, (before ++ Printer.quoteString v).utf8ByteSize⟩
  /-- The same, going through the document by offsets. -/
  readAt : (Offsets.stringLiteral (before ++ Printer.quoteString v ++ after).toList
    before.utf8ByteSize).run = .ok (some (v, (before ++ Printer.quoteString v).utf8ByteSize))
  visible : ∀ c ∈ (Printer.quoteString v).toList, isLineTerminator c = false ∧ 0x20 ≤ c.toNat

theorem quotedReadsBack (v before after : String) : QuotedReadsBack v before after := by
  have hsize (s : String) : Text.byteSize s.toList = s.utf8ByteSize := by
    rw [Text.byteSize_eq_utf8ByteSize, String.ofList_toList]
  have hstands : StandsAt (before ++ Printer.quoteString v ++ after).toList
      (Printer.quote v.toList ++ after.toList) before.utf8ByteSize := by
    refine ⟨before.toList, ?_, (hsize before).symm⟩
    simp [Printer.quoteString]
  have hread : Text.Decodes (before ++ Printer.quoteString v ++ after).toList
      StringLiteral.stringLiteral v
      ⟨before.utf8ByteSize, (before ++ Printer.quoteString v).utf8ByteSize⟩ := by
    refine (Text.decodes_iff hstands).2 ⟨(Printer.quote v.toList).length, ?_, ?_⟩
    · rw [StringLiteral.stringLiteral_quote, String.ofList_toList]
    · rw [Text.stopAt_length, String.utf8ByteSize_append, ← hsize (Printer.quoteString v),
        Printer.quoteString, String.toList_ofList]
  constructor
  · exact hread
  · exact (Text.run_eq_some_iff stringLiteral_agrees).2 hread
  · rw [Printer.quoteString, String.toList_ofList]
    exact Printer.visible_quote v.toList

namespace ClassBody

variable {parts before : List ClassPart} {first last : Char}

theorem classParts_disordered (hbefore : ∀ p ∈ before, p.isOrdered = true) (hlt : last < first)
    (after : List ClassPart) (F : Text) :
    classParts ((before ++ .range first last :: after).flatMap Printer.classPart ++ ']' :: F) =
      .error ⟨before.flatMap Printer.classPart, Printer.classPart (.range first last)⟩ := by
  induction before with
  | nil =>
      have hread := classPart_classPart (.range first last) (unmarked_parts after F)
      have horder : ClassPart.isOrdered (.range first last) = false := by
        simpa [ClassPart.isOrdered] using hlt
      rw [List.nil_append, List.flatMap_cons, List.append_assoc, classParts_eq, hread]
      simp [horder]
  | cons p before ih =>
      have hread := classPart_classPart p
        (unmarked_parts (before ++ .range first last :: after) F)
      have ih := ih fun q hq => hbefore q (List.mem_cons_of_mem p hq)
      rw [List.cons_append, List.flatMap_cons, List.append_assoc, classParts_eq, hread]
      simp only [Option.all_some, hbefore p List.mem_cons_self, if_true, List.drop_left,
        List.take_left, ih, List.flatMap_cons]

theorem classBody_disordered (hbefore : ∀ p ∈ before, p.isOrdered = true) (hlt : last < first)
    (after : List ClassPart) (inverted : Bool) (F : Text) :
    classBody (Printer.classBody (before ++ .range first last :: after) inverted ++ F) =
      .error ⟨opening inverted ++ before.flatMap Printer.classPart,
        Printer.classPart (.range first last)⟩ := by
  rw [classBody_printed, closedParts, classParts_disordered hbefore hlt]

theorem exists_first_disordered (h : ∃ p ∈ parts, p.isOrdered = false) :
    ∃ before first last after, parts = before ++ .range first last :: after ∧
      (∀ p ∈ before, p.isOrdered = true) ∧ last < first := by
  obtain ⟨q, hfind⟩ : ∃ q, parts.find? (fun p => !p.isOrdered) = some q := by
    rw [← Option.isSome_iff_exists, List.find?_isSome]
    simpa using h
  obtain ⟨hdisordered, before, after, rfl, hbefore⟩ := List.find?_eq_some_iff_append.1 hfind
  clear hfind
  cases q with
  | char c => cases hdisordered
  | range first last =>
      refine ⟨before, first, last, after, rfl, ?_, ?_⟩
      · simpa using hbefore
      · simpa [ClassPart.isOrdered] using hdisordered

end ClassBody

/-- A class with ranges in the wrong order, refused at the first of them, `first-last`. -/
structure ClassRefused (parts : List ClassPart) (inverted : Bool) (before after : Text)
    (front : List ClassPart) (first last : Char) (back : List ClassPart) : Prop where
  parts_eq : parts = front ++ .range first last :: back
  ordered : ∀ p ∈ front, p.isOrdered = true
  disordered : last < first
  refused : ClassBody.classBody (Printer.classBody parts inverted ++ after) =
    .error ⟨ClassBody.opening inverted ++ front.flatMap Printer.classPart,
      Printer.classPart (.range first last)⟩
  /-- The same, going through the document by offsets. -/
  refusedAt : Offsets.classBody (before ++ Printer.classBody parts inverted ++ after)
    before.byteSize = .ok (.error (invalidAt before.byteSize
      ⟨ClassBody.opening inverted ++ front.flatMap Printer.classPart,
        Printer.classPart (.range first last)⟩))

/-- A class, printed between two texts, and what is read at its opening bracket. -/
structure ClassReadsBack (parts : List ClassPart) (inverted : Bool) (before after : Text) :
    Prop where
  /-- A printed class is what a class is written as, in front of its flag. -/
  written : ∀ ignoreCase (location : Span),
    (Expr.charClass parts inverted ignoreCase location).text =
      Printer.classBody parts inverted ++ Printer.caseFlag ignoreCase
  read : (∀ p ∈ parts, p.isOrdered = true) →
    ClassBody.classBody (Printer.classBody parts inverted ++ after) =
      .ok (some ⟨⟨parts, inverted⟩, (Printer.classBody parts inverted).length⟩)
  /-- The same, going through the document by offsets. -/
  readAt : (∀ p ∈ parts, p.isOrdered = true) →
    Offsets.classBody (before ++ Printer.classBody parts inverted ++ after) before.byteSize =
      .ok (.ok (some (⟨parts, inverted⟩, (before ++ Printer.classBody parts inverted).byteSize)))
  refused : (∃ p ∈ parts, p.isOrdered = false) →
    ∃ front first last back, ClassRefused parts inverted before after front first last back

/-- A printed class reads back in any context, unless a range is in the wrong order. -/
theorem classReadsBack (parts : List ClassPart) (inverted : Bool) (before after : Text) :
    ClassReadsBack parts inverted before after := by
  have hstands : StandsAt (before ++ Printer.classBody parts inverted ++ after)
      (Printer.classBody parts inverted ++ after) before.byteSize :=
    ⟨before, List.append_assoc .., rfl⟩
  constructor
  · intro ignoreCase location
    rw [Expr.text]
  · intro hordered
    exact ClassBody.classBody_classBody hordered inverted after
  · intro hordered
    rw [classBody_eq hstands, ClassBody.classBody_classBody hordered, classAt, Option.map_some,
      Text.stopAt_length, Text.byteSize_append]
  · intro hdisordered
    obtain ⟨front, first, last, back, rfl, hfront, hlt⟩ :=
      ClassBody.exists_first_disordered hdisordered
    have hread := ClassBody.classBody_disordered hfront hlt back inverted after
    refine ⟨front, first, last, back, rfl, hfront, hlt, hread, ?_⟩
    rw [classBody_eq hstands, hread, classAt]

end PegGrammar
