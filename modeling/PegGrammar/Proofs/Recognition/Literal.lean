import PegGrammar.Proofs.Recognition.Escape

namespace PegGrammar

theorem head?_append_of_take {s t u : Text} {n : Nat} (h : s.take n = t ++ u) (hu : u ≠ []) :
    s.head? = (t ++ u).head? := by
  rw [← h, List.head?_take, if_neg]
  rintro rfl
  simp [hu] at h

namespace StringLiteral

theorem quotedText_of_quotedChars {quote : Char} {s : Text} {l : Lexeme Text}
    (h : quotedChars quote s = some l) :
    ∃ t, s.take l.length = t ++ [quote] ∧ QuotedText quote t l.value := by
  fun_induction quotedChars quote s generalizing l with
  | case1 => cases h
  | case2 s =>
      cases h
      exact ⟨[], rfl, .nil⟩
  | case3 s e he hquote ih =>
      obtain ⟨l', hl', rfl⟩ := Option.map_eq_some_iff.1 h
      obtain ⟨t, ht, hs⟩ := ih hl'
      have htake : ('\\' :: s).take (1 + e.length + l'.length) =
          '\\' :: (s.take e.length ++ t) ++ [quote] := by
        rw [Nat.add_assoc, Nat.add_comm, List.take_succ_cons, List.take_add, ht]
        simp
      refine ⟨_, htake, ?_⟩
      rcases Escape.escaped_cases he with ⟨c, hc, hesc⟩ | ⟨hnone, hline⟩
      · rw [head?_append_of_take ht (by simp)] at hesc
        rw [hc]
        exact .escape hquote hesc hs
      · rw [hnone]
        exact .continued hquote hline hs
  | case4 => cases h
  | case5 => cases h
  | case6 c s hquote hslash hline ih =>
      obtain ⟨l', hl', rfl⟩ := Option.map_eq_some_iff.1 h
      obtain ⟨t, ht, hs⟩ := ih hl'
      refine ⟨c :: t, ?_, .plain hquote hslash (by simpa using hline) hs⟩
      rw [Nat.add_comm, List.take_succ_cons, ht]
      rfl

theorem stringSpelling_of_stringLiteral {s : Text} {l : Lexeme String}
    (h : stringLiteral s = some l) : StringSpelling (s.take l.length) l.value := by
  revert h
  fun_cases stringLiteral s with
  | case1 => rintro ⟨⟩
  | case2 c s hc =>
      intro h
      obtain ⟨l', hl', rfl⟩ := Option.map_eq_some_iff.1 h
      obtain ⟨t, ht, hs⟩ := quotedText_of_quotedChars hl'
      rw [List.take_succ_cons, ht]
      exact .mk hc hs
  | case3 => rintro ⟨⟩

end StringLiteral

namespace ClassBody

theorem classCharText_of_classChar {s : Text} {l : Lexeme (Option Char)}
    (h : classChar s = some l) :
    ClassCharText (s.drop l.length).head? (s.take l.length) l.value := by
  revert h
  fun_cases classChar s with
  | case1 | case2 | case4 => rintro ⟨⟩
  | case3 s hclose =>
      intro h
      obtain ⟨e, he, rfl⟩ := Option.map_eq_some_iff.1 h
      rcases Escape.escaped_cases he with ⟨c, hc, hesc⟩ | ⟨hnone, hline⟩
      · rw [hc]
        exact .escape hesc
      · rw [hnone]
        exact .continued hline
  | case5 c s hclose hslash hline =>
      rintro ⟨⟩
      exact .plain hclose hslash (by simpa using hline)

theorem length_pos_of_classChar {s : Text} {l : Lexeme (Option Char)}
    (h : classChar s = some l) : 0 < l.length := by
  revert h
  fun_cases classChar s with
  | case1 | case2 | case4 => rintro ⟨⟩
  | case3 s hclose =>
      intro h
      obtain ⟨e, he, rfl⟩ := Option.map_eq_some_iff.1 h
      exact Nat.succ_pos _
  | case5 c s hclose hslash hline => rintro ⟨⟩; exact Nat.one_pos

theorem classRange_cases {s : Text} {r : Lexeme (Char × Char)} (h : classRange s = some r) :
    ∃ n t m, classChar s = some ⟨some r.value.1, n⟩ ∧ s.drop n = '-' :: t ∧
      classChar t = some ⟨some r.value.2, m⟩ ∧ r.length = n + 1 + m := by
  revert h
  fun_cases classRange s with
  | case1 first n hfirst t ht last m hlast =>
      rintro ⟨⟩
      exact ⟨n, t, m, hfirst, ht, hlast, rfl⟩
  | case2 | case3 | case4 => rintro ⟨⟩

/-- A part of a class together with the parts of the text `v` after it. -/
theorem classPartsText_of_classPart {s v : Text} {l : Lexeme (Option ClassPart)}
    {parts : List ClassPart} (h : classPart s = some l) (hle : l.value.all ClassPart.isOrdered)
    (hnext : (s.drop l.length).head? = (v ++ [']']).head?) (hs : ClassPartsText v parts) :
    ClassPartsText (s.take l.length ++ v) (l.value.toList ++ parts) := by
  rw [classPart] at h
  split at h
  next r hr =>
    cases h
    obtain ⟨n, t, m, hfirst, hdash, hlast, hlen⟩ := classRange_cases hr
    have hc := classCharText_of_classChar hfirst
    have hd := classCharText_of_classChar hlast
    have hrest : s.drop r.length = t.drop m := by
      rw [hlen, Nat.add_assoc, ← List.drop_drop, hdash, Nat.add_comm, List.drop_succ_cons]
    have htake : s.take r.length ++ v = s.take n ++ '-' :: (t.take m ++ v) := by
      rw [hlen, Nat.add_assoc, List.take_add, hdash, Nat.add_comm, List.take_succ_cons]
      simp
    rw [hdash] at hc
    rw [← hrest, hnext] at hd
    rw [htake]
    exact .range hc hd (by simpa [ClassPart.isOrdered] using hle) hs
  next =>
    obtain ⟨u, hu, rfl⟩ := Option.map_eq_some_iff.1 h
    have hc := classCharText_of_classChar hu
    rw [hnext] at hc
    cases hv : u.value with
    | none =>
        rw [hv] at hc
        exact .continued hc hs
    | some c =>
        rw [hv] at hc
        exact .char hc hs

theorem length_pos_of_classPart {s : Text} {l : Lexeme (Option ClassPart)}
    (h : classPart s = some l) : 0 < l.length := by
  rw [classPart] at h
  split at h
  next r hr =>
    cases h
    obtain ⟨n, t, m, -, -, -, hlen⟩ := classRange_cases hr
    change 0 < r.length
    omega
  next =>
    obtain ⟨u, hu, rfl⟩ := Option.map_eq_some_iff.1 h
    exact length_pos_of_classChar hu

theorem classPartsText_of_classParts {s r : Text} {l : Lexeme (List ClassPart)}
    (h : classParts s = .ok l) (hclose : s.drop l.length = ']' :: r) :
    ClassPartsText (s.take l.length) l.value := by
  fun_induction classParts s generalizing l with
  | case1 | case2 =>
      cases h
      exact .nil
  | case3 c s u hu hle t ht ih =>
      cases h
      obtain ⟨n, hn⟩ : ∃ n, u.length = n + 1 :=
        ⟨u.length - 1, by have := length_pos_of_classPart hu; omega⟩
      simp only [hn, Nat.add_sub_cancel] at hclose ht ih ⊢
      have hdrop : (c :: s).drop (n + 1 + t.length) = (s.drop n).drop t.length := by
        rw [← List.drop_drop, List.drop_succ_cons]
      have htake : (c :: s).take (n + 1 + t.length) =
          (c :: s).take u.length ++ (s.drop n).take t.length := by
        rw [List.take_add, hn, List.drop_succ_cons]
      rw [hdrop] at hclose
      rw [htake]
      refine classPartsText_of_classPart hu hle ?_ (ih ht hclose)
      rw [hn, List.drop_succ_cons]
      calc
        (s.drop n).head? = ((s.drop n).take t.length ++ ']' :: r).head? := by
          rw [← hclose, List.take_append_drop]
        _ = _ := by cases (s.drop n).take t.length <;> rfl
  | case4 => cases h
  | case5 => cases h

theorem classSpelling_of_classBody {s : Text} {l : Lexeme ClassBody}
    (h : classBody s = .ok (some l)) : ClassSpelling (s.take l.length) l.value := by
  have closed {opening s : Text} {inverted : Bool} {l : Lexeme ClassBody}
      (h : closedParts opening inverted s = .ok (some l)) : ∃ t parts,
        ClassPartsText t parts ∧ l.value = ⟨parts, inverted⟩ ∧
          (opening ++ s).take l.length = opening ++ (t ++ [']']) := by
    rw [closedParts] at h
    split at h
    next => cases h
    next t ht =>
      split at h
      next r hr =>
        cases h
        refine ⟨_, _, classPartsText_of_classParts ht hr, rfl, ?_⟩
        rw [Nat.add_assoc, List.take_length_add_append, List.take_add, hr]
        rfl
      next => cases h
  revert h
  fun_cases classBody s with
  | case1 s =>
      intro h
      obtain ⟨t, parts, hparts, hvalue, htake⟩ := closed h
      rw [hvalue, show '[' :: '^' :: s = ['[', '^'] ++ s from rfl, htake]
      exact .inverted hparts
  | case2 s =>
      intro h
      obtain ⟨t, parts, hparts, hvalue, htake⟩ := closed h
      rw [hvalue, show '[' :: s = ['['] ++ s from rfl, htake]
      exact .plain hparts
  | case3 => rintro ⟨⟩

/-- A range in the wrong order is a part of the text, after what was read before it. -/
theorem text_of_classParts {s : Text} {e : DisorderedRange} (h : classParts s = .error e) :
    ∃ r, s = e.before ++ (e.text ++ r) := by
  fun_induction classParts s generalizing e with
  | case1 | case2 | case3 => cases h
  | case4 c s u hu hle e' he ih =>
      cases h
      obtain ⟨r, hr⟩ := ih he
      obtain ⟨n, hn⟩ : ∃ n, u.length = n + 1 :=
        ⟨u.length - 1, by have := length_pos_of_classPart hu; omega⟩
      refine ⟨r, ?_⟩
      rw [hn, Nat.add_sub_cancel] at hr
      rw [hn, List.take_succ_cons]
      change c :: s = c :: (s.take n ++ e'.before) ++ (e'.text ++ r)
      rw [List.cons_append, List.append_assoc, ← hr, List.take_append_drop]
  | case5 c s u hu hle =>
      cases h
      exact ⟨(c :: s).drop u.length, (List.take_append_drop _ _).symm⟩

theorem text_of_classBody {s : Text} {e : DisorderedRange} (h : classBody s = .error e) :
    ∃ r, s = e.before ++ (e.text ++ r) := by
  have closed {opening s : Text} {inverted : Bool} (h : closedParts opening inverted s = .error e) :
      ∃ r, opening ++ s = e.before ++ (e.text ++ r) := by
    rw [closedParts] at h
    split at h
    next e' he =>
      cases h
      obtain ⟨r, rfl⟩ := text_of_classParts he
      exact ⟨r, (List.append_assoc _ _ _).symm⟩
    next => split at h <;> cases h
  revert h
  fun_cases classBody s with
  | case1 | case2 => exact closed
  | case3 => exact nofun

end ClassBody

end PegGrammar
