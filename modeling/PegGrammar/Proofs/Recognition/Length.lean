import PegGrammar.Proofs.Recognition.Literal

namespace PegGrammar

variable {s : Text} {n : Nat}

theorem Trivia.length_le_of_lineEnd (h : Trivia.lineEnd s = some n) : n ≤ s.length := by
  revert h
  fun_cases Trivia.lineEnd s with
  | case1 t => rintro ⟨⟩; exact Nat.le_add_left 2 t.length
  | case2 c t => rintro ⟨⟩; exact Nat.le_add_left 1 t.length
  | case3 | case4 => rintro ⟨⟩

namespace Escape

theorem length_le_of_hexChar? {c : Char} (h : hexChar? n s = some c) : n ≤ s.length := by
  obtain ⟨ds, hlength, hmap, -⟩ := hexText_of_hexChar? h
  have htake := congrArg List.length hmap
  rw [List.length_map, List.length_map, List.length_take, hlength] at htake
  omega

theorem length_le_of_unicodeEscape {l : Lexeme Char} (h : unicodeEscape s = some l) :
    l.length ≤ s.length := by
  revert h
  fun_cases unicodeEscape s with
  | case1 s =>
      intro h
      obtain ⟨c, hc, rfl⟩ := Option.map_eq_some_iff.1 h
      exact Nat.succ_le_succ (length_le_of_hexChar? hc)
  | case2 => rintro ⟨⟩

theorem length_le_of_byteEscape {l : Lexeme Char} (h : byteEscape s = some l) :
    l.length ≤ s.length := by
  revert h
  fun_cases byteEscape s with
  | case1 s =>
      intro h
      obtain ⟨c, hc, rfl⟩ := Option.map_eq_some_iff.1 h
      exact Nat.succ_le_succ (length_le_of_hexChar? hc)
  | case2 => rintro ⟨⟩

theorem length_le_of_escapeSequence {l : Lexeme Char} (h : escapeSequence s = some l) :
    l.length ≤ s.length := by
  revert h
  fun_cases escapeSequence s with
  | case1 | case6 => rintro ⟨⟩
  | case2 | case5 | case7 => rintro ⟨⟩; exact Nat.succ_le_succ (Nat.zero_le _)
  | case3 => exact length_le_of_byteEscape
  | case4 => exact length_le_of_unicodeEscape

theorem length_pos_of_escapeSequence {l : Lexeme Char} (h : escapeSequence s = some l) :
    0 < l.length := by
  revert h
  fun_cases escapeSequence s with
  | case1 | case6 => rintro ⟨⟩
  | case2 | case5 | case7 => rintro ⟨⟩; exact Nat.one_pos
  | case3 | case4 =>
      intro h
      obtain ⟨c, -, rfl⟩ := Option.map_eq_some_iff.1 h
      exact Nat.succ_pos _

theorem length_le_of_escaped {l : Lexeme (Option Char)} (h : escaped s = some l) :
    l.length ≤ s.length := by
  rw [escaped] at h
  split at h
  next e he =>
    cases h
    exact length_le_of_escapeSequence he
  next =>
    obtain ⟨n, hn, rfl⟩ := Option.map_eq_some_iff.1 h
    exact Trivia.length_le_of_lineEnd hn

end Escape

namespace Name

theorem length_le_of_nameChar {plain : Char → Bool} {l : Lexeme Char}
    (h : nameChar plain s = some l) : l.length ≤ s.length := by
  revert h
  fun_cases nameChar plain s with
  | case1 | case4 => rintro ⟨⟩
  | case2 => rintro ⟨⟩; exact Nat.succ_le_succ (Nat.zero_le _)
  | case3 =>
      intro h
      obtain ⟨e, he, rfl⟩ := Option.map_eq_some_iff.1 h
      exact Nat.succ_le_succ (Escape.length_le_of_unicodeEscape he)

theorem length_nameParts_le (s : Text) : (nameParts s).length ≤ s.length := by
  fun_induction nameParts s with
  | case1 | case3 => exact Nat.zero_le _
  | case2 c s u hu t ih =>
      have hpos := length_pos_of_nameChar hu
      have hle := length_le_of_nameChar hu
      rw [List.length_drop] at ih
      rw [List.length_cons] at hle ⊢
      change u.length + (nameParts (s.drop (u.length - 1))).length ≤ _
      omega

theorem length_le_of_name {l : Lexeme String} (h : name s = some l) : l.length ≤ s.length := by
  obtain ⟨u, hu, rfl⟩ := Option.map_eq_some_iff.1 h
  have hle := length_le_of_nameChar hu
  have hparts := length_nameParts_le (s.drop u.length)
  rw [List.length_drop] at hparts
  change u.length + (nameParts (s.drop u.length)).length ≤ _
  omega

theorem length_pos_of_name {l : Lexeme String} (h : name s = some l) : 0 < l.length := by
  obtain ⟨u, hu, rfl⟩ := Option.map_eq_some_iff.1 h
  exact Nat.add_pos_left (length_pos_of_nameChar hu) _

end Name

namespace StringLiteral

theorem length_le_of_quotedChars {quote : Char} {l : Lexeme Text}
    (h : quotedChars quote s = some l) : l.length ≤ s.length := by
  fun_induction quotedChars quote s generalizing l with
  | case1 | case4 | case5 => cases h
  | case2 s =>
      cases h
      exact Nat.succ_le_succ (Nat.zero_le _)
  | case3 s e he hquote ih =>
      obtain ⟨t, ht, rfl⟩ := Option.map_eq_some_iff.1 h
      have hle := Escape.length_le_of_escaped he
      have hrest := ih ht
      rw [List.length_drop] at hrest
      change 1 + e.length + t.length ≤ s.length + 1
      omega
  | case6 c s hquote hslash hline ih =>
      obtain ⟨t, ht, rfl⟩ := Option.map_eq_some_iff.1 h
      have hrest := ih ht
      change 1 + t.length ≤ s.length + 1
      omega

theorem length_le_of_stringLiteral {l : Lexeme String} (h : stringLiteral s = some l) :
    l.length ≤ s.length := by
  revert h
  fun_cases stringLiteral s with
  | case1 | case3 => rintro ⟨⟩
  | case2 =>
      intro h
      obtain ⟨t, ht, rfl⟩ := Option.map_eq_some_iff.1 h
      exact Nat.succ_le_succ (length_le_of_quotedChars ht)

theorem length_pos_of_stringLiteral {l : Lexeme String} (h : stringLiteral s = some l) :
    0 < l.length := by
  revert h
  fun_cases stringLiteral s with
  | case1 | case3 => rintro ⟨⟩
  | case2 =>
      intro h
      obtain ⟨t, -, rfl⟩ := Option.map_eq_some_iff.1 h
      exact Nat.succ_pos _

end StringLiteral

namespace ClassBody

theorem length_of_closedParts {opening : Text} {inverted : Bool} {l : Lexeme ClassBody}
    (h : closedParts opening inverted s = .ok (some l)) :
    0 < l.length ∧ l.length ≤ (opening ++ s).length := by
  rw [closedParts] at h
  split at h
  next => cases h
  next t ht =>
    split at h
    next r hr =>
      cases h
      have hlength := congrArg List.length hr
      rw [List.length_drop, List.length_cons] at hlength
      rw [List.length_append]
      change 0 < opening.length + t.length + 1 ∧ opening.length + t.length + 1 ≤ _
      omega
    next => cases h

theorem length_of_classBody {l : Lexeme ClassBody} (h : classBody s = .ok (some l)) :
    0 < l.length ∧ l.length ≤ s.length := by
  revert h
  fun_cases classBody s with
  | case1 | case2 => exact length_of_closedParts
  | case3 => rintro ⟨⟩

theorem before_ne_nil_of_classBody {e : DisorderedRange} (h : classBody s = .error e) :
    e.before ≠ [] := by
  have closed {c : Char} {opening s : Text} {inverted : Bool}
      (h : closedParts (c :: opening) inverted s = .error e) : e.before ≠ [] := by
    rw [closedParts] at h
    split at h
    next =>
      cases h
      exact List.cons_ne_nil _ _
    next => split at h <;> cases h
  revert h
  fun_cases classBody s with
  | case1 | case2 => exact closed
  | case3 => rintro ⟨⟩

end ClassBody

end PegGrammar
