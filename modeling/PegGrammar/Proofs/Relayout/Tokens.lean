import PegGrammar.Proofs.Recognition.Literal
import PegGrammar.Proofs.Rereading.Front

namespace PegGrammar

def IsClose (c : Char) : Prop := c ∈ ['"', '\x27', ']']

namespace Escape

variable {q : Char} {s t u y : Text} {n : Nat}

theorem hexNumber?_append (h : n ≤ u.length) (value : Nat) (s y : Text) :
    hexNumber? n value (u ++ s) = hexNumber? n value (u ++ y) := by
  induction n generalizing value u with
  | zero => rfl
  | succ n ih =>
      cases u with
      | nil => cases h
      | cons c u =>
          rw [List.length_cons] at h
          simp only [List.cons_append, hexNumber?]
          cases hexValue? c with
          | none => rfl
          | some d => exact ih (by omega) _

theorem unicodeEscape_append (h : 5 ≤ u.length) (s y : Text) :
    unicodeEscape (u ++ s) = unicodeEscape (u ++ y) := by
  cases u with
  | nil => cases h
  | cons c u =>
      rw [List.length_cons] at h
      by_cases hc : c = 'u'
      · subst hc
        simp only [List.cons_append, unicodeEscape, hexChar?]
        rw [hexNumber?_append (by omega) 0 s y]
      · have hnone (s : Text) : unicodeEscape (c :: s) = none := by
          rw [unicodeEscape]
          rintro t ⟨⟩
          exact hc rfl
        rw [List.cons_append, List.cons_append, hnone, hnone]

theorem length_of_unicodeEscape {l : Lexeme Char} (h : unicodeEscape s = some l) : l.length = 5 := by
  revert h
  fun_cases unicodeEscape s with
  | case1 s =>
      intro h
      obtain ⟨c, -, rfl⟩ := Option.map_eq_some_iff.1 h
      rfl
  | case2 => rintro ⟨⟩

theorem hexNumber?_append_cons (hq : hexValue? q = none) (n value : Nat) (a s y : Text) :
    hexNumber? n value (a ++ q :: s) = hexNumber? n value (a ++ q :: y) := by
  induction n generalizing value a with
  | zero => rfl
  | succ n ih =>
      cases a with
      | nil => simp [hexNumber?, hq]
      | cons c a =>
          simp only [List.cons_append, hexNumber?]
          cases hexValue? c with
          | none => rfl
          | some d => exact ih _ a

theorem hexChar?_append_cons (hq : hexValue? q = none) (n : Nat) (a s y : Text) :
    hexChar? n (a ++ q :: s) = hexChar? n (a ++ q :: y) := by
  rw [hexChar?, hexChar?, hexNumber?_append_cons hq n 0 a s y]

theorem head?_append_cons (a s y : Text) : (a ++ q :: s).head? = (a ++ q :: y).head? := by
  cases a <;> rfl

theorem hexValue?_of_isClose (hq : IsClose q) : hexValue? q = none :=
  forall_mem_of_all (P := (hexValue? · = none)) (by decide) q hq

theorem escapeSequence_append_cons (hq : IsClose q) (a s y : Text) :
    escapeSequence (a ++ q :: s) = escapeSequence (a ++ q :: y) := by
  cases a with
  | nil =>
      simp only [IsClose, List.mem_cons, List.not_mem_nil, or_false] at hq
      rcases hq with rfl | rfl | rfl <;> rfl
  | cons c a =>
      have hhex := hexValue?_of_isClose hq
      have hbyte : byteEscape ('x' :: (a ++ q :: s)) = byteEscape ('x' :: (a ++ q :: y)) := by
        rw [byteEscape, byteEscape, hexChar?_append_cons hhex 2 a s y]
      have hunicode : unicodeEscape ('u' :: (a ++ q :: s)) = unicodeEscape ('u' :: (a ++ q :: y)) := by
        rw [unicodeEscape, unicodeEscape, hexChar?_append_cons hhex 4 a s y]
      have hdigit : startsWithDigit (a ++ q :: s) = startsWithDigit (a ++ q :: y) := by
        rw [startsWithDigit, startsWithDigit, head?_append_cons a s y]
      simp only [List.cons_append, escapeSequence, hdigit]
      by_cases hx : c = 'x'
      · subst hx
        exact hbyte
      · by_cases hu : c = 'u'
        · subst hu
          exact hunicode
        · simp only [if_neg hx, if_neg hu]

theorem lineEnd_append_cons (hq : IsClose q) (a s y : Text) :
    Trivia.lineEnd (a ++ q :: s) = Trivia.lineEnd (a ++ q :: y) := by
  cases a with
  | nil =>
      have hline : isLineTerminator q = false := 
        forall_mem_of_all (P := (isLineTerminator · = false)) (by decide) q hq
      exact (Trivia.lineEnd_eq_none hline s).trans (Trivia.lineEnd_eq_none hline y).symm
  | cons c a =>
      have hne : q ≠ '\n' := forall_mem_of_all (P := (· ≠ '\n')) (by decide) q hq
      cases a with
      | nil =>
          rw [List.cons_append, List.cons_append, Trivia.lineEnd, Trivia.lineEnd]
          · rintro t rfl ht
            exact hne (List.cons.inj ht).1
          · rintro t rfl ht
            exact hne (List.cons.inj ht).1
      | cons d a =>
          by_cases hcd : c = '\r' ∧ d = '\n'
          · obtain ⟨rfl, rfl⟩ := hcd
            rfl
          · simp only [List.cons_append]
            rw [Trivia.lineEnd, Trivia.lineEnd]
            · rintro t rfl ht
              exact hcd ⟨rfl, (List.cons.inj ht).1⟩
            · rintro t rfl ht
              exact hcd ⟨rfl, (List.cons.inj ht).1⟩

theorem escaped_append_cons (hq : IsClose q) (a s y : Text) :
    escaped (a ++ q :: s) = escaped (a ++ q :: y) := by
  rw [escaped, escaped, escapeSequence_append_cons hq a s y, lineEnd_append_cons hq a s y]

end Escape

namespace Name

variable {plain : Char → Bool} {s t u y : Text} {c : Char} {n : String}

theorem nameChar_append (h : nameChar plain (u ++ s) = some ⟨c, u.length⟩) (hu : u ≠ [])
    (y : Text) : nameChar plain (u ++ y) = some ⟨c, u.length⟩ := by
  cases u with
  | nil => exact (hu rfl).elim
  | cons d u =>
      simp only [List.cons_append, nameChar] at h ⊢
      split at h
      next hplain => rw [if_pos hplain, h]
      next hplain =>
        split at h
        next hslash =>
          obtain ⟨e, he, hlength⟩ := Option.map_eq_some_iff.1 h
          have hfive := Escape.length_of_unicodeEscape he
          have hu : 5 ≤ u.length := by
            have := congrArg Lexeme.length hlength
            simp only [List.length_cons] at this
            omega
          rw [if_neg hplain, if_pos hslash, ← Escape.unicodeEscape_append hu s y, h]
        next => cases h

theorem nameParts_of_some {w : Lexeme Char} (h : nameChar isNamePart s = some w) :
    nameParts s = ⟨w.value :: (nameParts (s.drop w.length)).value,
      w.length + (nameParts (s.drop w.length)).length⟩ := by
  cases s with
  | nil => cases h
  | cons c s =>
      obtain ⟨k, hk⟩ : ∃ k, w.length = k + 1 :=
        ⟨w.length - 1, by have := length_pos_of_nameChar h; omega⟩
      rw [nameParts, h]
      simp only [hk, Nat.add_sub_cancel, List.drop_succ_cons]

theorem exists_of_nameChar {w : Lexeme Char} (h : nameChar plain (t ++ s) = some w)
    (hle : w.length ≤ t.length) : ∃ u t', t = u ++ t' ∧ 0 < u.length ∧ w.length = u.length ∧
      ∀ y, nameChar plain (u ++ y) = some ⟨w.value, u.length⟩ := by
  have hlength := List.length_take_of_le hle
  have hpos := length_pos_of_nameChar h
  have hu : 0 < (t.take w.length).length := by omega
  refine ⟨t.take w.length, t.drop w.length, (List.take_append_drop _ t).symm, hu, hlength.symm,
    nameChar_append (s := t.drop w.length ++ s) ?_ (List.length_pos_iff.1 hu)⟩
  rw [← List.append_assoc, List.take_append_drop, h, hlength]

theorem nameParts_append_end (h : (nameParts (t ++ s)).length = t.length)
    (hy : nameChar isNamePart y = none) : nameParts (t ++ y) = nameParts (t ++ s) := by
  induction hk : t.length using Nat.strong_induction_on generalizing t with
  | _ k ih =>
      cases hc : nameChar isNamePart (t ++ s) with
      | none =>
          rw [nameParts_of_nameChar hc] at h
          obtain rfl := List.length_eq_zero_iff.1 h.symm
          rw [nameParts_of_nameChar hc]
          exact nameParts_of_nameChar hy
      | some w =>
          rw [nameParts_of_some hc] at h
          obtain ⟨u, t, rfl, hu, hw, hread⟩ := exists_of_nameChar hc (by rw [← h]; exact Nat.le_add_right _ _)
          rw [hw, List.append_assoc, List.drop_left, List.length_append, Nat.add_left_cancel_iff] at h
          have hlt : t.length < k := by
            rw [← hk, List.length_append]
            omega
          rw [List.append_assoc, List.append_assoc, nameParts_append hu (hread _),
            nameParts_append hu (hread _), ih _ hlt h rfl]

/-- A name that is recognised in front of one text is recognised in front of any other that does
not go on with it. -/
theorem name_append_end (h : name (t ++ s) = some ⟨n, t.length⟩)
    (hy : nameChar isNamePart y = none) : name (t ++ y) = some ⟨n, t.length⟩ := by
  obtain ⟨w, hw, hparts⟩ := Option.map_eq_some_iff.1 h
  have hlength := (Lexeme.mk.inj hparts).2
  obtain ⟨u, t, rfl, hu, hwu, hread⟩ := exists_of_nameChar hw (by omega)
  rw [hwu, List.append_assoc, List.drop_left, List.length_append, Nat.add_left_cancel_iff] at hlength
  rw [← h, List.append_assoc, List.append_assoc, name_append (hread _), name_append (hread _),
    nameParts_append_end hlength hy]

theorem nameChar_drop_nameParts (s : Text) :
    nameChar isNamePart (s.drop (nameParts s).length) = none := by
  induction hk : s.length using Nat.strong_induction_on generalizing s with
  | _ k ih =>
      cases hc : nameChar isNamePart s with
      | none => rwa [nameParts_of_nameChar hc]
      | some w =>
          have hpos := length_pos_of_nameChar hc
          have hs : s ≠ [] := by
            rintro rfl
            cases hc
          rw [nameParts_of_some hc, ← List.drop_drop]
          refine ih _ ?_ _ rfl
          rw [List.length_drop]
          have := List.length_pos_iff.2 hs
          omega

theorem nameChar_drop_name {l : Lexeme String} (h : name s = some l) :
    nameChar isNamePart (s.drop l.length) = none := by
  obtain ⟨w, hw, rfl⟩ := Option.map_eq_some_iff.1 h
  rw [← List.drop_drop]
  exact nameChar_drop_nameParts _

end Name

namespace StringLiteral

variable {q : Char} {s t y : Text}

theorem length_pos_of_quotedChars {l : Lexeme Text} (h : quotedChars q s = some l) :
    0 < l.length := by
  obtain ⟨t, ht, -⟩ := quotedText_of_quotedChars h
  have hlength := congrArg List.length ht
  rw [List.length_take, List.length_append, List.length_singleton] at hlength
  omega

theorem quotedChars_append (hq : IsClose q) {a : Text} {l : Lexeme Text}
    (h : quotedChars q (a ++ q :: s) = some l) (hl : l.length = a.length + 1) (y : Text) :
    quotedChars q (a ++ q :: y) = some l := by
  induction hk : a.length using Nat.strong_induction_on generalizing a l with
  | _ k ih =>
      cases a with
      | nil =>
          rw [List.nil_append, quotedChars, if_pos rfl] at h ⊢
          exact h
      | cons c a =>
          rw [List.length_cons] at hl hk
          rw [List.cons_append, quotedChars] at h ⊢
          split at h
          next hc => rw [if_pos hc, h]
          next hc =>
            rw [if_neg hc]
            split at h
            next hslash =>
              rw [if_pos hslash, Escape.escaped_append_cons hq a y s]
              cases he : Escape.escaped (a ++ q :: s) with
              | none =>
                  rw [he] at h
                  cases h
              | some e =>
                  rw [he] at h
                  obtain ⟨l, hread, rfl⟩ := Option.map_eq_some_iff.1 h
                  have hpos := length_pos_of_quotedChars hread
                  have hle : e.length ≤ a.length := by
                    simp only at hl
                    omega
                  have hlength := List.length_drop (i := e.length) (l := a)
                  rw [List.drop_append_of_le_length hle] at hread
                  simp only at hl
                  simp only [List.drop_append_of_le_length hle]
                  rw [ih _ (by omega) hread (by omega) rfl]
                  rfl
            next hslash =>
              rw [if_neg hslash]
              split at h
              next => cases h
              next hline =>
                rw [if_neg hline]
                obtain ⟨l, hread, rfl⟩ := Option.map_eq_some_iff.1 h
                simp only at hl
                rw [ih a.length (by omega) hread (by omega) rfl]
                rfl

theorem isClose_of_isQuote (h : isQuote q = true) : IsClose q := by
  simp only [isQuote, Bool.or_eq_true, beq_iff_eq] at h
  rcases h with rfl | rfl <;> simp [IsClose]

theorem stringLiteral_append {v : String} (h : stringLiteral (t ++ s) = some ⟨v, t.length⟩)
    (y : Text) : stringLiteral (t ++ y) = some ⟨v, t.length⟩ := by
  have hspelling := stringSpelling_of_stringLiteral h
  simp only [List.take_left] at hspelling
  obtain ⟨hquote, -⟩ := hspelling
  next q a s' =>
    simp only [List.cons_append, List.append_assoc, List.nil_append, stringLiteral,
      if_pos hquote] at h ⊢
    obtain ⟨l, hread, hvalue⟩ := Option.map_eq_some_iff.1 h
    have hlength := (Lexeme.mk.inj hvalue).2
    simp only [List.length_cons, List.length_append, List.length_nil] at hlength
    rw [quotedChars_append (isClose_of_isQuote hquote) hread (by omega) y, ← h, hread]

end StringLiteral

namespace ClassBody

variable {s t y : Text}

theorem classChar_append_cons (a s y : Text) :
    classChar (a ++ ']' :: s) = classChar (a ++ ']' :: y) := by
  cases a with
  | nil => rfl
  | cons c a =>
      rw [List.cons_append, List.cons_append, classChar, classChar,
        Escape.escaped_append_cons (q := ']') (by simp [IsClose]) a s y]

theorem length_le_of_classPart {u : Lexeme (Option Char)} {w : Lexeme (Option ClassPart)}
    (hu : classChar s = some u) (hw : classPart s = some w) : u.length ≤ w.length := by
  rw [classPart] at hw
  split at hw
  next r hr =>
    cases hw
    obtain ⟨n, t, m, hfirst, -, -, hlength⟩ := classRange_cases hr
    rw [hfirst] at hu
    cases hu
    simp only [hlength]
    omega
  next =>
    obtain ⟨u', hu', rfl⟩ := Option.map_eq_some_iff.1 hw
    rw [hu] at hu'
    cases hu'
    exact Nat.le_refl _

/-- A part of a class that does not reach beyond the closing bracket. -/
theorem classPart_append_cons {a : Text} {w : Lexeme (Option ClassPart)}
    (h : classPart (a ++ ']' :: s) = some w) (hle : w.length ≤ a.length) (y : Text) :
    classPart (a ++ ']' :: y) = some w := by
  have hrange : classRange (a ++ ']' :: y) = classRange (a ++ ']' :: s) := by
    rw [classRange, classRange, classChar_append_cons a y s]
    cases hc : classChar (a ++ ']' :: s) with
    | none => rfl
    | some u =>
        obtain ⟨o, n⟩ := u
        have hn : n ≤ a.length := (length_le_of_classPart hc h).trans hle
        cases o with
        | none => rfl
        | some first =>
            simp only [List.drop_append_of_le_length hn]
            cases ha : a.drop n with
            | nil => rfl
            | cons d a' =>
                by_cases hd : d = '-'
                · subst hd
                  simp only [List.cons_append, classChar_append_cons a' y s]
                · simp only [List.cons_append]
                  split <;> split <;> simp_all
  rw [classPart] at h ⊢
  rw [hrange, classChar_append_cons a y s, h]

theorem classParts_append_cons {a : Text} {l : Lexeme (List ClassPart)}
    (h : classParts (a ++ ']' :: s) = .ok l) (hl : l.length = a.length) (y : Text) :
    classParts (a ++ ']' :: y) = .ok l := by
  induction hk : a.length using Nat.strong_induction_on generalizing a l with
  | _ k ih =>
      cases a with
      | nil =>
          have hnone (s : Text) : classPart (']' :: s) = none := rfl
          rw [List.nil_append, classParts, hnone] at h ⊢
          exact h
      | cons c a =>
          rw [List.length_cons] at hl hk
          rw [List.cons_append, classParts] at h ⊢
          cases hu : classPart (c :: (a ++ ']' :: s)) with
          | none =>
              rw [hu] at h
              cases h
              cases hl
          | some u =>
              rw [hu] at h
              simp only at h
              split at h
              next hordered =>
                cases ht : classParts ((a ++ ']' :: s).drop (u.length - 1)) with
                | error e =>
                    rw [ht] at h
                    cases h
                | ok t =>
                    rw [ht] at h
                    cases h
                    have hpos := length_pos_of_classPart hu
                    have hle : u.length - 1 ≤ a.length := by
                      simp only at hl
                      omega
                    have hlength := List.length_drop (i := u.length - 1) (l := a)
                    rw [List.drop_append_of_le_length hle] at ht
                    simp only at hl
                    rw [← List.cons_append] at hu
                    have hpart := classPart_append_cons hu (by rw [List.length_cons]; omega) y
                    rw [List.cons_append] at hpart
                    rw [hpart]
                    simp only [if_pos hordered, List.drop_append_of_le_length hle]
                    rw [ih _ (by omega) ht (by omega) rfl]
              next => cases h

theorem closedParts_append {opening : Text} {inverted : Bool} {l : Lexeme ClassBody}
    (h : closedParts opening inverted s = .ok (some l)) : ∃ a r, s = a ++ ']' :: r ∧
      l.length = (opening ++ (a ++ [']'])).length ∧
      ∀ y, closedParts opening inverted (a ++ ']' :: y) = .ok (some l) := by
  rw [closedParts] at h
  split at h
  next => cases h
  next t ht =>
    split at h
    next r hr =>
      cases h
      have hs := List.take_append_drop t.length s
      have hlength : (s.take t.length).length = t.length := by
        have hr := congrArg List.length hr
        rw [List.length_drop, List.length_cons] at hr
        exact List.length_take_of_le (by omega)
      rw [hr] at hs
      refine ⟨s.take t.length, r, hs.symm, ?_, fun y => ?_⟩
      · simp only [List.length_append, List.length_singleton, hlength]
        omega
      · rw [← hs] at ht
        rw [closedParts, classParts_append_cons ht hlength.symm y]
        have hdrop : (s.take t.length ++ ']' :: y).drop t.length = ']' :: y :=
          List.drop_left' hlength
        simp only [hdrop]
    next => cases h

theorem classBody_append {b : ClassBody} (h : classBody (t ++ s) = .ok (some ⟨b, t.length⟩))
    (y : Text) : classBody (t ++ y) = .ok (some ⟨b, t.length⟩) := by
  have closed {opening u : Text} {inverted : Bool} (hu : t ++ s = opening ++ u)
      (h : closedParts opening inverted u = .ok (some ⟨b, t.length⟩)) :
      ∃ a, t ++ y = opening ++ (a ++ ']' :: y) ∧ (a ++ ']' :: y).head? = u.head? ∧
        closedParts opening inverted (a ++ ']' :: y) = .ok (some ⟨b, t.length⟩) := by
    obtain ⟨a, r, rfl, hlength, hy⟩ := closedParts_append h
    refine ⟨a, ?_, Escape.head?_append_cons a y r, hy y⟩
    have hu : t ++ s = (opening ++ (a ++ [']'])) ++ r := by simpa using hu
    rw [(List.append_inj hu hlength).1]
    simp
  generalize hv : t ++ s = v at h
  revert h
  fun_cases classBody v with
  | case1 v =>
      intro h
      obtain ⟨a, ht, -, hy⟩ := closed hv h
      rw [ht]
      exact hy
  | case2 v hne =>
      intro h
      obtain ⟨a, ht, hhead, hy⟩ := closed (hv.trans List.singleton_append.symm) h
      rw [ht, List.singleton_append, classBody]
      · exact hy
      · intro u hu
        rw [hu] at hhead
        obtain ⟨v, rfl⟩ := List.head?_eq_some_iff.1 hhead.symm
        exact hne v rfl
  | case3 => rintro ⟨⟩

end ClassBody

end PegGrammar
