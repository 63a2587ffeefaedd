import PegGrammar.Proofs.Recognition.Trivia

namespace PegGrammar

namespace Escape

theorem digits_of_hexNumber? {n value m : Nat} {s : Text} (h : hexNumber? n value s = some m) :
    ∃ ds : List Nat, ds.length = n ∧ (s.take n).map hexValue? = ds.map some ∧
      ds.foldl (fun value d => 16 * value + d) value = m := by
  induction n generalizing value s with
  | zero => exact ⟨[], rfl, rfl, by simpa [hexNumber?] using h⟩
  | succ n ih =>
      cases s with
      | nil => simp [hexNumber?] at h
      | cons c s =>
          rw [hexNumber?] at h
          obtain ⟨d, hd, h⟩ := Option.bind_eq_some_iff.1 h
          obtain ⟨ds, hlen, hmap, hfold⟩ := ih h
          exact ⟨d :: ds, by simp [hlen], by simp [hd, hmap], hfold⟩

theorem toNat_of_scalar? {n : Nat} {c : Char} (h : scalar? n = some c) : c.toNat = n := by
  rw [scalar?] at h
  split at h
  next hn =>
    cases h
    rw [Char.ofNat, dif_pos hn]
    rfl
  next => cases h

theorem hexText_of_hexChar? {n : Nat} {s : Text} {c : Char} (h : hexChar? n s = some c) :
    HexText n (s.take n) c := by
  obtain ⟨m, hm, hc⟩ := Option.bind_eq_some_iff.1 h
  obtain ⟨ds, hlen, hmap, hfold⟩ := digits_of_hexNumber? hm
  exact ⟨ds, hlen, hmap, by rw [hfold, toNat_of_scalar? hc]⟩

theorem hexText_of_unicodeEscape {s : Text} {l : Lexeme Char} (h : unicodeEscape s = some l) :
    ∃ t, s.take l.length = 'u' :: t ∧ HexText 4 t l.value := by
  revert h
  fun_cases unicodeEscape s with
  | case1 s =>
      intro h
      obtain ⟨c, hc, rfl⟩ := Option.map_eq_some_iff.1 h
      exact ⟨_, rfl, hexText_of_hexChar? hc⟩
  | case2 => rintro ⟨⟩

theorem hexText_of_byteEscape {s : Text} {l : Lexeme Char} (h : byteEscape s = some l) :
    ∃ t, s.take l.length = 'x' :: t ∧ HexText 2 t l.value := by
  revert h
  fun_cases byteEscape s with
  | case1 s =>
      intro h
      obtain ⟨c, hc, rfl⟩ := Option.map_eq_some_iff.1 h
      exact ⟨_, rfl, hexText_of_hexChar? hc⟩
  | case2 => rintro ⟨⟩

theorem escapeText_of_escapeSequence {s : Text} {l : Lexeme Char}
    (h : escapeSequence s = some l) :
    EscapeText (s.drop l.length).head? (s.take l.length) l.value := by
  revert h
  fun_cases escapeSequence s with
  | case1 => rintro ⟨⟩
  | case2 c s d hd => rintro ⟨⟩; exact .simple hd
  | case3 s hs =>
      intro h
      obtain ⟨t, ht, hx⟩ := hexText_of_byteEscape h
      rw [ht]
      exact .byte hx
  | case4 s hs hx =>
      intro h
      obtain ⟨t, ht, hx⟩ := hexText_of_unicodeEscape h
      rw [ht]
      exact .unicode hx
  | case5 c s hs hx hu hc =>
      rintro ⟨⟩
      obtain ⟨rfl, hdigit⟩ := hc
      exact .zero hdigit
  | case6 => rintro ⟨⟩
  | case7 c s hs hx hu hc hother =>
      rintro ⟨⟩
      rw [Bool.or_eq_true, not_or, Bool.not_eq_true, Bool.not_eq_true] at hother
      exact .self hs hx hu hother.1 hother.2

theorem escaped_cases {s : Text} {l : Lexeme (Option Char)} (h : escaped s = some l) :
    (∃ c, l.value = some c ∧ EscapeText (s.drop l.length).head? (s.take l.length) c) ∨
      (l.value = none ∧ LineEndText (s.take l.length)) := by
  rw [escaped] at h
  split at h
  next e he =>
    cases h
    exact .inl ⟨e.value, rfl, escapeText_of_escapeSequence he⟩
  next =>
    obtain ⟨n, hn, rfl⟩ := Option.map_eq_some_iff.1 h
    exact .inr ⟨rfl, Trivia.lineEndText_of_lineEnd hn⟩

end Escape

namespace Name

theorem nameCharText_of_nameChar {plain : Char → Bool} {s : Text} {l : Lexeme Char}
    (h : nameChar plain s = some l) : NameCharText plain (s.take l.length) l.value := by
  revert h
  fun_cases nameChar plain s with
  | case1 => rintro ⟨⟩
  | case2 c s hc => rintro ⟨⟩; exact .plain hc
  | case3 s hc =>
      intro h
      obtain ⟨e, he, rfl⟩ := Option.map_eq_some_iff.1 h
      obtain ⟨t, ht, hx⟩ := Escape.hexText_of_unicodeEscape he
      rw [List.take_succ_cons, ht]
      exact .escape hx
  | case4 => rintro ⟨⟩

theorem length_pos_of_nameChar {plain : Char → Bool} {s : Text} {l : Lexeme Char}
    (h : nameChar plain s = some l) : 0 < l.length := by
  revert h
  fun_cases nameChar plain s with
  | case1 => rintro ⟨⟩
  | case2 c s hc => rintro ⟨⟩; exact Nat.one_pos
  | case3 s hc =>
      intro h
      obtain ⟨e, he, rfl⟩ := Option.map_eq_some_iff.1 h
      exact Nat.succ_pos _
  | case4 => rintro ⟨⟩

theorem namePartsText_nameParts (s : Text) :
    NamePartsText (s.take (nameParts s).length) (nameParts s).value := by
  fun_induction nameParts s with
  | case1 => exact .nil
  | case2 c s u hu t ih =>
      obtain ⟨n, hn⟩ : ∃ n, u.length = n + 1 := ⟨u.length - 1, by have := length_pos_of_nameChar hu; omega⟩
      have ht : (c :: s).take (u.length + t.length) =
          (c :: s).take u.length ++ (s.drop (u.length - 1)).take t.length := by
        rw [List.take_add, hn]
        rfl
      rw [ht]
      exact .cons (nameCharText_of_nameChar hu) ih
  | case3 => exact .nil

theorem nameSpelling_of_name {s : Text} {l : Lexeme String} (h : name s = some l) :
    NameSpelling (s.take l.length) l.value := by
  obtain ⟨u, hu, rfl⟩ := Option.map_eq_some_iff.1 h
  simp only [List.take_add]
  exact .mk (nameCharText_of_nameChar hu) (namePartsText_nameParts _)

end Name

end PegGrammar
