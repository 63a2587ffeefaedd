import PegGrammar.Proofs.Offsets.Names
import PegGrammar.Proofs.PrintedLiterals

namespace PegGrammar

theorem Text.decodes_between {α : Type} {recognize : Text → Option (Lexeme α)} {t : Text} {v : α}
    {after : String} (h : recognize (t ++ after.toList) = some ⟨v, t.length⟩) (before : String) :
    Decodes (before ++ String.ofList t ++ after).toList recognize v
      ⟨before.utf8ByteSize, (before ++ String.ofList t).utf8ByteSize⟩ := by
  have hsize : Text.byteSize before.toList = before.utf8ByteSize := by
    rw [byteSize_eq_utf8ByteSize, String.ofList_toList]
  have hstands : StandsAt (before ++ String.ofList t ++ after).toList (t ++ after.toList)
      before.utf8ByteSize := ⟨before.toList, by simp, hsize.symm⟩
  refine (decodes_iff hstands).2 ⟨t.length, h, ?_⟩
  rw [stopAt_length, String.utf8ByteSize_append, byteSize_eq_utf8ByteSize]

theorem Escape.unicodeEscape_eq_none_iff {s : Text} : unicodeEscape s = none ↔
    ∀ t c rest, HexText 4 t c → s ≠ 'u' :: (t ++ rest) := by
  constructor
  · rintro h t c rest ht rfl
    rw [unicodeEscape, hexChar?_of_hexText ht] at h
    cases h
  · intro h
    rw [Option.eq_none_iff_forall_ne_some]
    intro l hl
    obtain ⟨t, htake, ht⟩ := hexText_of_unicodeEscape hl
    apply h t l.value (s.drop l.length) ht
    rw [← List.cons_append, ← htake, List.take_append_drop]

namespace Name

variable {s : Text} {n : String}

/-- The text begins with nothing that a name could go on with. -/
def Stops (s : Text) : Prop :=
  (∀ c ∈ s.head?, isNamePart c = false) ∧
    ∀ t c rest, HexText 4 t c → s ≠ '\\' :: 'u' :: (t ++ rest)

theorem nameChar_eq_none_iff : nameChar isNamePart s = none ↔ Stops s := by
  cases s with
  | nil => simp [nameChar, Stops]
  | cons c s =>
      have hslash : isNamePart '\\' = false := by decide +kernel
      by_cases hc : c = '\\'
      · subst hc
        simp [nameChar, Stops, hslash, Escape.unicodeEscape_eq_none_iff]
      · simp [nameChar, Stops, hc]

/-- Beyond four hexadecimal digits, every character of the name can stand at its place. -/
def Spellable (n : String) : Prop :=
  ∀ i c, n.toList[i]? = some c → 0xFFFF < c.toNat →
    (if i = 0 then isNameStart c else isNamePart c) = true

theorem writable_iff {plain : Char → Bool} {c : Char} :
    Writable plain c ↔ (0xFFFF < c.toNat → plain c = true) := by
  rw [Writable, or_iff_not_imp_right, Nat.not_le]

theorem readable_iff (hn : n ≠ "") : Readable n ↔ Spellable n := by
  have hne : n.toList ≠ [] := by simpa using hn
  obtain ⟨c, s, hchars⟩ := List.exists_cons_of_ne_nil hne
  constructor
  · rintro ⟨c', s', hchars', hstart, hparts⟩
    rw [hchars] at hchars'
    obtain ⟨rfl, rfl⟩ := List.cons.inj hchars'
    intro i d hd
    rw [hchars] at hd
    cases i with
    | zero =>
        cases hd
        exact writable_iff.1 hstart
    | succ i =>
        rw [List.getElem?_cons_succ] at hd
        exact writable_iff.1 (hparts d (List.mem_of_getElem? hd))
  · intro h
    rw [Spellable, hchars] at h
    refine ⟨c, s, hchars, writable_iff.2 (h 0 c rfl), fun d hd => ?_⟩
    obtain ⟨i, hi⟩ := List.mem_iff_getElem?.1 hd
    exact writable_iff.2 (h (i + 1) d hi)

theorem Readable.ne_empty (h : Readable n) : n ≠ "" := by
  obtain ⟨c, s, hchars, -⟩ := h.chars
  rintro rfl
  cases hchars

theorem spellable_of_decodes {source : Text} {pos stop : Nat}
    (h : source.Decodes name n ⟨pos, stop⟩) : Spellable n := by
  by_cases hpos : Boundary source pos
  · obtain ⟨s, hs⟩ := hpos
    obtain ⟨k, hread, -⟩ := (Text.decodes_iff hs).1 h
    have hreadable := readable_of_nameSpelling (nameSpelling_of_name hread)
    exact (readable_iff hreadable.ne_empty).1 hreadable
  · exact (Text.not_decodes hpos h).elim

end Name

namespace Printer

def name (n : String) : String := String.ofList (nameText n.toList)

end Printer

open Offsets

/-- A name, printed between two texts, and whether it is read there. -/
structure NameReadsBack (n before after : String) : Prop where
  /-- A reference to a rule is printed as the name of the rule. -/
  written : ∀ location : Span, (Expr.ruleRef n location).print = Printer.name n
  read : Text.Decodes (before ++ Printer.name n ++ after).toList Name.name n
    ⟨before.utf8ByteSize, (before ++ Printer.name n).utf8ByteSize⟩ ↔ Name.Spellable n
  /-- The same, going through the document by offsets. -/
  readAt : (Offsets.name (before ++ Printer.name n ++ after).toList before.utf8ByteSize).run =
    .ok (some (n, (before ++ Printer.name n).utf8ByteSize)) ↔ Name.Spellable n
  spellable : ∀ (source : String) m pos stop,
    Text.Decodes source.toList Name.name m ⟨pos, stop⟩ → Name.Spellable m
  spellableAt : ∀ (source : String) m pos stop,
    (Offsets.name source.toList pos).run = .ok (some (m, stop)) → Name.Spellable m

/-- A printed name reads back exactly if it can be spelled. -/
theorem nameReadsBack (n before after : String) (hn : n ≠ "") (hafter : Name.Stops after.toList) :
    NameReadsBack n before after := by
  have hread : Text.Decodes (before ++ Printer.name n ++ after).toList Name.name n
      ⟨before.utf8ByteSize, (before ++ Printer.name n).utf8ByteSize⟩ ↔ Name.Spellable n := by
    refine ⟨Name.spellable_of_decodes, fun h => Text.decodes_between ?_ before⟩
    exact Name.name_nameText_append ((Name.readable_iff hn).2 h) (Name.nameChar_eq_none_iff.2 hafter)
  constructor
  · intro location
    rw [Expr.print, Expr.text, Printer.name]
  · exact hread
  · exact (Text.run_eq_some_iff name_agrees).trans hread
  · exact fun source m pos stop h => Name.spellable_of_decodes h
  · exact fun source m pos stop h => Name.spellable_of_decodes ((Text.run_eq_some_iff name_agrees).1 h)

theorem nameReadsBack_digit : "1\\𝒳" ≠ "" ∧ Name.Stops "\\u12".toList ∧
    NameReadsBack "1\\𝒳" "é" "\\u12" := by
  have hstops : Name.Stops "\\u12".toList := Name.nameChar_eq_none_iff.1 (by decide +kernel)
  exact ⟨by decide, hstops, nameReadsBack _ _ _ (by decide) hstops⟩

end PegGrammar
