import Mathlib.Algebra.Group.Nat.Defs
import PegGrammar.Printer
import PegGrammar.Proofs.Recognition.Escape

namespace PegGrammar

namespace Escape

theorem hexValue?_upperDigit : ∀ d < 16, hexValue? (Hex.upperDigit d) = some d := by decide

theorem length_upper (w n : Nat) : (Hex.upper w n).length = w := by
  induction w generalizing n with
  | zero => rfl
  | succ w ih =>
      rw [Hex.upper, Hex.digits, List.length_append, List.length_singleton]
      exact congrArg (· + 1) (ih (n / 16))

theorem hexNumber?_succ (w value : Nat) (s : Text) :
    hexNumber? (w + 1) value s = (hexNumber? w value s).bind fun u =>
      (s.drop w).head?.bind fun c => (hexValue? c).map (16 * u + ·) := by
  induction w generalizing value s with
  | zero =>
      cases s with
      | nil => rfl
      | cons c s =>
          simp only [hexNumber?, List.drop_zero, List.head?_cons, Option.bind_some]
          cases hexValue? c <;> rfl
  | succ w ih =>
      cases s with
      | nil => rfl
      | cons c s =>
          rw [hexNumber?, hexNumber?]
          cases hexValue? c with
          | none => rfl
          | some d => exact ih (16 * value + d) s

theorem hexNumber?_upper (w value n : Nat) (s : Text) :
    hexNumber? w value (Hex.upper w n ++ s) = some (16 ^ w * value + n % 16 ^ w) := by
  induction w generalizing n s with
  | zero => simp [hexNumber?, Nat.mod_one]
  | succ w ih =>
      have hsplit : Hex.upper (w + 1) n ++ s =
          Hex.upper w (n / 16) ++ (Hex.upperDigit (n % 16) :: s) := by
        simp [Hex.upper, Hex.digits]
      have hdrop : (Hex.upper w (n / 16) ++ (Hex.upperDigit (n % 16) :: s)).drop w =
          Hex.upperDigit (n % 16) :: s := List.drop_left' (length_upper w _)
      have hdigit := hexValue?_upperDigit (n % 16) (Nat.mod_lt n (by decide))
      rw [hexNumber?_succ, hsplit, ih, hdrop]
      simp only [Option.bind_some, List.head?_cons, hdigit, Option.map_some]
      rw [Nat.pow_succ, Nat.mul_comm (16 ^ w) 16, Nat.mod_mul, Nat.mul_assoc]
      congr 1
      omega

theorem scalar?_toNat (c : Char) : scalar? c.toNat = some c := by
  have hvalid : c.toNat.isValidChar := c.valid
  rw [scalar?, if_pos hvalid, Char.ofNat, dif_pos hvalid]
  rfl

theorem hexChar?_upper {w : Nat} {c : Char} (h : c.toNat < 16 ^ w) (s : Text) :
    hexChar? w (Hex.upper w c.toNat ++ s) = some c := by
  rw [hexChar?, hexNumber?_upper, Nat.mod_eq_of_lt h, Nat.mul_zero, Nat.zero_add, Option.bind_some,
    scalar?_toNat]

theorem unicodeEscape_upper {c : Char} (h : c.toNat ≤ 0xFFFF) (s : Text) :
    unicodeEscape ('u' :: (Hex.upper 4 c.toNat ++ s)) = some ⟨c, 5⟩ := by
  rw [unicodeEscape, hexChar?_upper (Nat.lt_succ_of_le h)]
  rfl

theorem byteEscape_upper {c : Char} (h : c.toNat < 0x100) (s : Text) :
    byteEscape ('x' :: (Hex.upper 2 c.toNat ++ s)) = some ⟨c, 3⟩ := by
  rw [byteEscape, hexChar?_upper h]
  rfl

theorem lt_of_hexValue? {c : Char} {d : Nat} (h : hexValue? c = some d) : d < 16 := by
  simp only [hexValue?, isDecimalDigit, Bool.and_eq_true, decide_eq_true_eq, Char.le_def,
    UInt32.le_iff_toNat_le] at h
  split at h
  next hc =>
    cases h
    have hle : c.toNat ≤ 57 := hc.2
    have hzero : '0'.toNat = 48 := rfl
    omega
  next =>
    split at h
    next hc =>
      cases h
      have hle : c.toNat ≤ 102 := hc.2
      have ha : 'a'.toNat = 97 := rfl
      omega
    next =>
      split at h
      next hc =>
        cases h
        have hle : c.toNat ≤ 70 := hc.2
        have ha : 'A'.toNat = 65 := rfl
        omega
      next => cases h

theorem foldl_digits_lt {ds : List Nat} (h : ∀ d ∈ ds, d < 16) (value : Nat) :
    ds.foldl (fun value d => 16 * value + d) value < 16 ^ ds.length * (value + 1) := by
  induction ds generalizing value with
  | nil => simp
  | cons d ds ih =>
      have hd : 16 * value + d + 1 ≤ 16 * (value + 1) := by
        have := h d List.mem_cons_self
        omega
      calc (d :: ds).foldl (fun value d => 16 * value + d) value
          < 16 ^ ds.length * (16 * value + d + 1) :=
            ih (fun x hx => h x (List.mem_cons_of_mem d hx)) _
        _ ≤ 16 ^ ds.length * (16 * (value + 1)) := Nat.mul_le_mul_left _ hd
        _ = 16 ^ (d :: ds).length * (value + 1) := by
            rw [List.length_cons, Nat.pow_succ, Nat.mul_assoc]

theorem toNat_lt_of_hexText {n : Nat} {t : Text} {c : Char} (h : HexText n t c) :
    c.toNat < 16 ^ n := by
  obtain ⟨ds, rfl, hmap, hfold⟩ := h
  have hds : ∀ d ∈ ds, d < 16 := by
    intro d hd
    have hmem : some d ∈ t.map hexValue? := hmap ▸ List.mem_map_of_mem hd
    obtain ⟨c, -, hc⟩ := List.mem_map.1 hmem
    exact lt_of_hexValue? hc
  simpa [hfold] using foldl_digits_lt hds 0

end Escape

namespace Name

/-- The next character, if there is one, cannot be part of a name. -/
def Ends (s : Text) : Prop := ∀ c ∈ s.head?, isNamePart c = false ∧ c ≠ '\\'

/-- A name can be read with this character where `plain` says which ones stand plainly. -/
def Writable (plain : Char → Bool) (c : Char) : Prop := plain c = true ∨ c.toNat ≤ 0xFFFF

theorem writable_of_nameCharText {plain : Char → Bool} {t : Text} {c : Char}
    (h : NameCharText plain t c) : Writable plain c := by
  cases h with
  | plain h => exact .inl h
  | escape h =>
      have hlt := Escape.toNat_lt_of_hexText h
      exact .inr (Nat.le_of_lt_succ hlt)

theorem nameChar_nameChar {plain plain' : Char → Bool} {c : Char} (h : Writable plain c)
    (himp : plain c = true → plain' c = true) (hslash : plain' '\\' = false) (s : Text) :
    nameChar plain' (Printer.nameChar plain c ++ s) =
      some ⟨c, (Printer.nameChar plain c).length⟩ := by
  by_cases hc : plain c = true
  · have hprint : Printer.nameChar plain c = [c] := by simp [Printer.nameChar, hc]
    rw [hprint]
    simp [nameChar, himp hc]
  · have hle : c.toNat ≤ 0xFFFF := h.resolve_left hc
    have hprint : Printer.nameChar plain c = '\\' :: 'u' :: Hex.upper 4 c.toNat := by
      rw [Printer.nameChar, if_neg]
      simpa [hc] using hle
    rw [hprint]
    simp only [List.cons_append, nameChar, hslash, Escape.unicodeEscape_upper hle]
    simp [Escape.length_upper]

theorem length_nameChar_pos (plain : Char → Bool) (c : Char) :
    0 < (Printer.nameChar plain c).length := by
  rw [Printer.nameChar]
  split <;> simp

theorem isNamePart_of_isNameStart {c : Char} (h : isNameStart c = true) : isNamePart c = true := by
  simp [isNamePart, h]

theorem nameChar_of_ends {s : Text} (h : Ends s) : nameChar isNamePart s = none := by
  cases s with
  | nil => rfl
  | cons c s =>
      obtain ⟨hpart, hslash⟩ := h c rfl
      simp [nameChar, hpart, hslash]

theorem nameParts_of_nameChar {s : Text} (h : nameChar isNamePart s = none) :
    nameParts s = ⟨[], 0⟩ := by
  cases s with
  | nil => rw [nameParts]
  | cons c s => rw [nameParts, h]

theorem nameParts_append {u rest : Text} {c : Char} (hu : 0 < u.length)
    (h : nameChar isNamePart (u ++ rest) = some ⟨c, u.length⟩) :
    nameParts (u ++ rest) = ⟨c :: (nameParts rest).value, u.length + (nameParts rest).length⟩ := by
  cases u with
  | nil => cases hu
  | cons d u =>
      rw [List.cons_append] at h ⊢
      have hdrop : (u ++ rest).drop ((d :: u).length - 1) = rest := List.drop_left
      rw [nameParts, h]
      simp only [hdrop]

theorem name_append {u rest : Text} {c : Char}
    (h : nameChar isNameStart (u ++ rest) = some ⟨c, u.length⟩) :
    name (u ++ rest) = some ⟨String.ofList (c :: (nameParts rest).value),
      u.length + (nameParts rest).length⟩ := by
  have hdrop : (u ++ rest).drop u.length = rest := List.drop_left
  rw [name, h, Option.map_some]
  simp only [hdrop]

theorem nameParts_flatMap {s F : Text} (hs : ∀ c ∈ s, Writable isNamePart c)
    (hF : nameChar isNamePart F = none) :
    nameParts (s.flatMap (Printer.nameChar isNamePart) ++ F) =
      ⟨s, (s.flatMap (Printer.nameChar isNamePart)).length⟩ := by
  induction s with
  | nil => exact nameParts_of_nameChar hF
  | cons c s ih =>
      have hread := nameChar_nameChar (hs c List.mem_cons_self) id (by decide)
        (s.flatMap (Printer.nameChar isNamePart) ++ F)
      rw [List.flatMap_cons, List.append_assoc,
        nameParts_append (length_nameChar_pos isNamePart c) hread,
        ih fun x hx => hs x (List.mem_cons_of_mem c hx), List.length_append]

/-- The characters of a name that can be read. -/
structure Readable (n : String) : Prop where
  chars : ∃ c s, n.toList = c :: s ∧ Writable isNameStart c ∧ ∀ d ∈ s, Writable isNamePart d

theorem writable_of_namePartsText {t s : Text} (h : NamePartsText t s) :
    ∀ c ∈ s, Writable isNamePart c := by
  induction h with
  | nil => simp
  | cons h _ ih => simpa using ⟨writable_of_nameCharText h, ih⟩

theorem readable_of_nameSpelling {t : Text} {n : String} (h : NameSpelling t n) : Readable n := by
  obtain ⟨h, hs⟩ := h
  exact ⟨_, _, String.toList_ofList, writable_of_nameCharText h, writable_of_namePartsText hs⟩

theorem name_nameText_append {n : String} (h : Readable n) {F : Text}
    (hF : nameChar isNamePart F = none) :
    name (Printer.nameText n.toList ++ F) = some ⟨n, (Printer.nameText n.toList).length⟩ := by
  obtain ⟨c, s, hn, hc, hs⟩ := h.chars
  have hread := nameChar_nameChar hc id (by decide)
    (s.flatMap (Printer.nameChar isNamePart) ++ F)
  rw [hn, Printer.nameText, List.append_assoc, name_append hread, nameParts_flatMap hs hF,
    ← hn, String.ofList_toList, List.length_append]

theorem name_nameText {n : String} (h : Readable n) {F : Text} (hF : Ends F) :
    name (Printer.nameText n.toList ++ F) = some ⟨n, (Printer.nameText n.toList).length⟩ :=
  name_nameText_append h (nameChar_of_ends hF)

/-- A dollar sign in front of a printed name is read as part of it. -/
theorem name_dollar_nameText {n : String} (h : Readable n) {F : Text} (hF : Ends F) :
    name ('$' :: (Printer.nameText n.toList ++ F)) =
      some ⟨String.ofList ('$' :: n.toList), (Printer.nameText n.toList).length + 1⟩ := by
  obtain ⟨c, s, hn, hc, hs⟩ := h.chars
  have hread := nameChar_nameChar hc isNamePart_of_isNameStart (by decide)
    (s.flatMap (Printer.nameChar isNamePart) ++ F)
  have hparts : nameParts (Printer.nameText n.toList ++ F) =
      ⟨n.toList, (Printer.nameText n.toList).length⟩ := by
    rw [hn, Printer.nameText, List.append_assoc,
      nameParts_append (length_nameChar_pos isNameStart c) hread,
      nameParts_flatMap hs (nameChar_of_ends hF), List.length_append]
  have hdollar : nameChar isNameStart (['$'] ++ (Printer.nameText n.toList ++ F)) =
      some ⟨'$', ['$'].length⟩ := rfl
  rw [← List.singleton_append, name_append hdollar, hparts, List.length_singleton, Nat.add_comm]

theorem name_flatMap {c : Char} {s F : Text} (hstart : isNameStart c = true ∨ isNamePart c = false)
    (hs : ∀ d ∈ c :: s, Writable isNamePart d) (hF : Ends F) :
    name ((c :: s).flatMap (Printer.nameChar isNamePart) ++ F) =
      some ⟨String.ofList (c :: s),
        ((c :: s).flatMap (Printer.nameChar isNamePart)).length⟩ := by
  have himp : isNamePart c = true → isNameStart c = true := by
    intro hpart
    simpa [hpart] using hstart
  have hread := nameChar_nameChar (hs c List.mem_cons_self) himp (by decide)
    (s.flatMap (Printer.nameChar isNamePart) ++ F)
  rw [List.flatMap_cons, List.append_assoc, name_append hread,
    nameParts_flatMap (fun d hd => hs d (List.mem_cons_of_mem c hd)) (nameChar_of_ends hF),
    List.length_append]

theorem name_eq_none {c : Char} {s : Text} (hstart : isNameStart c = false) (hslash : c ≠ '\\') :
    name (c :: s) = none := by
  simp [name, nameChar, hstart, hslash]

end Name

end PegGrammar
