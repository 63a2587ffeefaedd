import PegGrammar.Proofs.Offsets.Literals
import PegGrammar.Proofs.Rereading.Literals
import PegGrammar.Proofs.Spans

namespace PegGrammar

theorem eq_ofNat_of_le {a c : Char} (h : a ≤ c) :
    c = Char.ofNat (a.toNat + (c.toNat - a.toNat)) := by
  have hle : a.toNat ≤ c.toNat := h
  rw [Nat.add_sub_cancel' hle, Char.ofNat_toNat]

theorem hexValue?_lowerDigit : ∀ d < 16, hexValue? (Hex.lowerDigit d) = some d := by decide

theorem hexValue?_eq_some_iff {c : Char} {d : Nat} :
    hexValue? c = some d ↔ d < 16 ∧ (c = Hex.upperDigit d ∨ c = Hex.lowerDigit d) := by
  constructor
  · intro h
    refine ⟨Escape.lt_of_hexValue? h, ?_⟩
    revert h
    fun_cases hexValue? c with
    | case1 hc =>
        rintro ⟨⟩
        obtain ⟨hzero, hnine⟩ : '0' ≤ c ∧ c ≤ '9' := by simpa [isDecimalDigit] using hc
        have hle : c.toNat ≤ 57 := hnine
        left
        rw [Hex.upperDigit, if_pos]
        · exact eq_ofNat_of_le hzero
        · change c.toNat - 48 < 10
          omega
    | case2 _ hc =>
        rintro ⟨⟩
        obtain ⟨ha, -⟩ : 'a' ≤ c ∧ c ≤ 'f' := by simpa using hc
        right
        rw [Hex.lowerDigit, if_neg (by omega), Nat.add_sub_cancel]
        exact eq_ofNat_of_le ha
    | case3 _ _ hc =>
        rintro ⟨⟩
        obtain ⟨ha, -⟩ : 'A' ≤ c ∧ c ≤ 'F' := by simpa using hc
        left
        rw [Hex.upperDigit, if_neg (by omega), Nat.add_sub_cancel]
        exact eq_ofNat_of_le ha
    | case4 => rintro ⟨⟩
  · rintro ⟨hd, rfl | rfl⟩
    · exact Escape.hexValue?_upperDigit d hd
    · exact hexValue?_lowerDigit d hd

theorem Trivia.lineEnd_append {t s : Text} (h : LineEndText t)
    (hs : ∀ c ∈ s.head?, isLineTerminator c = false) : lineEnd (t ++ s) = some t.length := by
  cases h with
  | crlf => rfl
  | @single c hc =>
      have hcrlf : ∀ u, c = '\r' → s = '\n' :: u → False := by
        rintro u - rfl
        have hline := hs '\n' rfl
        contradiction
      rw [List.singleton_append, lineEnd, if_pos hc]
      · rfl
      · exact hcrlf

namespace Escape

variable {n : Nat} {s t : Text} {c : Char}

theorem hexNumber?_of_digits {ds : List Nat} (h : t.map hexValue? = ds.map some) (value : Nat)
    (s : Text) : hexNumber? ds.length value (t ++ s) =
      some (ds.foldl (fun value d => 16 * value + d) value) := by
  induction ds generalizing t value with
  | nil => rfl
  | cons d ds ih =>
      cases t with
      | nil => simp at h
      | cons c t =>
          simp only [List.map_cons, List.cons.injEq] at h
          simp [hexNumber?, h.1, ih h.2]

theorem hexChar?_of_hexText (h : HexText n t c) (s : Text) : hexChar? n (t ++ s) = some c := by
  obtain ⟨ds, rfl, hmap, hfold⟩ := h
  rw [hexChar?, hexNumber?_of_digits hmap, hfold, Option.bind_some, scalar?_toNat]

theorem length_of_hexText (h : HexText n t c) : t.length = n := by
  obtain ⟨ds, rfl, hmap, -⟩ := h
  simpa using congrArg List.length hmap

theorem escapeSequence_of_escapeText (h : EscapeText s.head? t c) :
    escapeSequence (t ++ s) = some ⟨c, t.length⟩ := by
  cases h with
  | simple h => simp [escapeSequence, h]
  | byte h =>
      change byteEscape ('x' :: (_ ++ s)) = _
      simp [byteEscape, hexChar?_of_hexText h, length_of_hexText h]
  | unicode h =>
      change unicodeEscape ('u' :: (_ ++ s)) = _
      simp [unicodeEscape, hexChar?_of_hexText h, length_of_hexText h]
  | zero h => simp [escapeSequence, simple?, startsWithDigit, h]
  | self h hx hu hdigit hline =>
      have hzero : c ≠ '0' := by
        rintro rfl
        contradiction
      simp [escapeSequence, h, hx, hu, hzero, hdigit, hline]

theorem escapeSequence_of_lineEndText (h : LineEndText t) (s : Text) :
    escapeSequence (t ++ s) = none := by
  cases h with
  | crlf => rfl
  | single hc =>
      simp only [isLineTerminator, Bool.or_eq_true, beq_iff_eq] at hc
      rcases hc with ((rfl | rfl) | rfl) | rfl <;> rfl

theorem escaped_of_escapeText (h : EscapeText s.head? t c) :
    escaped (t ++ s) = some ⟨some c, t.length⟩ := by
  simp [escaped, escapeSequence_of_escapeText h]

theorem escaped_of_lineEndText (h : LineEndText t)
    (hs : ∀ c ∈ s.head?, isLineTerminator c = false) : escaped (t ++ s) = some ⟨none, t.length⟩ := by
  simp [escaped, escapeSequence_of_lineEndText h, Trivia.lineEnd_append h hs]

def meanings : List (Char × Char) :=
  [('\x27', '\x27'), ('"', '"'), ('\\', '\\'), ('b', '\x08'), ('f', '\x0c'), ('n', '\x0a'),
    ('r', '\x0d'), ('t', '\x09'), ('v', '\x0b')]

theorem simple?_eq_some_iff {c d : Char} : simple? c = some d ↔ (c, d) ∈ meanings := by
  fun_cases simple? c <;> simp_all [meanings, eq_comm]

end Escape

namespace StringLiteral

variable {quote : Char} {t v : Text}

theorem ne_of_isQuote (h : isQuote quote = true) :
    '\\' ≠ quote ∧ isLineTerminator quote = false := by
  simp only [isQuote, Bool.or_eq_true, beq_iff_eq] at h
  rcases h with rfl | rfl <;> decide

theorem head?_of_quotedText (hquote : isQuote quote = true) (h : QuotedText quote t v) (s : Text) :
    ∀ c ∈ (t ++ quote :: s).head?, isLineTerminator c = false := by
  cases h with
  | nil =>
      rintro c ⟨⟩
      exact (ne_of_isQuote hquote).2
  | plain _ _ hline =>
      rintro c ⟨⟩
      exact hline
  | escape | continued =>
      rintro c ⟨⟩
      rfl

theorem quotedChars_of_quotedText (hquote : isQuote quote = true) (h : QuotedText quote t v)
    (s : Text) : quotedChars quote (t ++ quote :: s) = some ⟨v, t.length + 1⟩ := by
  induction h with
  | nil => simp [quotedChars]
  | plain hne hslash hline _ ih =>
      rw [List.cons_append, quotedChars]
      simp [hne, hslash, hline, ih, Nat.add_comm]
  | @escape t u v c hslash hescape _ ih =>
      have hnext : (u ++ [quote]).head? = (u ++ quote :: s).head? := by cases u <;> rfl
      rw [hnext] at hescape
      have hread := Escape.escaped_of_escapeText hescape
      rw [List.cons_append, List.append_assoc, quotedChars, if_neg hslash, if_pos rfl, hread]
      simp [ih]
      omega
  | @continued t u v hslash hline hs ih =>
      have hread := Escape.escaped_of_lineEndText hline (head?_of_quotedText hquote hs s)
      rw [List.cons_append, List.append_assoc, quotedChars, if_neg hslash, if_pos rfl, hread]
      simp [ih]
      omega

theorem stringLiteral_of_stringSpelling {v : String} (h : StringSpelling t v) (s : Text) :
    stringLiteral (t ++ s) = some ⟨v, t.length⟩ := by
  obtain ⟨hquote, h⟩ := h
  rw [List.cons_append, stringLiteral, if_pos hquote, List.append_assoc, List.singleton_append,
    quotedChars_of_quotedText hquote h s]
  simp

theorem stringLiteral_eq_some_iff {s : Text} {l : Lexeme String} : stringLiteral s = some l ↔
    ∃ t u, s = t ++ u ∧ t.length = l.length ∧ StringSpelling t l.value := by
  constructor
  · intro h
    refine ⟨s.take l.length, s.drop l.length, (List.take_append_drop _ s).symm, ?_, ?_⟩
    · exact List.length_take_of_le (length_le_of_stringLiteral h)
    · exact stringSpelling_of_stringLiteral h
  · rintro ⟨t, u, rfl, hlength, h⟩
    rw [stringLiteral_of_stringSpelling h, hlength]

end StringLiteral

open Offsets

namespace Text

variable {α : Type} {source s : Text} {recognize : Text → Option (Lexeme α)} {v v' : α}
  {pos stop stop' : Nat}

theorem decodes_iff (h : StandsAt source s pos) : source.Decodes recognize v ⟨pos, stop⟩ ↔
    ∃ n, recognize s = some ⟨v, n⟩ ∧ s.stopAt pos n = stop := by
  rw [Decodes, recognizeAt, h.dropBytes?, Option.bind_some]
  constructor
  · rintro ⟨n, rest, hread, hrange⟩
    obtain ⟨l, hl, ⟨⟩⟩ := Option.map_eq_some_iff.1 hread
    exact ⟨n, hl, congrArg ByteRange.stop hrange⟩
  · rintro ⟨n, hread, rfl⟩
    exact ⟨n, s, by rw [hread, Option.map_some], rfl⟩

theorem not_decodes (h : ¬ Boundary source pos) : ¬ source.Decodes recognize v ⟨pos, stop⟩ := by
  rintro ⟨n, rest, hread, -⟩
  rw [recognizeAt, dropBytes?_eq_none h] at hread
  cases hread

theorem run_eq_some_iff {f : Nat → Checked (α × Nat)} (h : Agrees.Values source f recognize) :
    (f pos).run = .ok (some (v, stop)) ↔ source.Decodes recognize v ⟨pos, stop⟩ := by
  by_cases hpos : Boundary source pos
  · obtain ⟨s, hs⟩ := hpos
    have hrun : (f pos).run = .ok ((recognize s).map fun l => (l.value, s.stopAt pos l.length)) := by
      rw [h.there hs]
      rfl
    rw [hrun, decodes_iff hs, Except.ok.injEq, Option.map_eq_some_iff]
    constructor
    · rintro ⟨l, hl, ⟨⟩⟩
      exact ⟨l.length, hl, rfl⟩
    · rintro ⟨n, hread, rfl⟩
      exact ⟨_, hread, rfl⟩
  · have hrun : (f pos).run = .ok none := by
      rw [h.elsewhere hpos]
      rfl
    rw [hrun]
    exact ⟨nofun, fun hread => (not_decodes hpos hread).elim⟩

theorem Decodes.unique (h : source.Decodes recognize v ⟨pos, stop⟩)
    (h' : source.Decodes recognize v' ⟨pos, stop'⟩) : v = v' ∧ stop = stop' := by
  by_cases hpos : Boundary source pos
  · obtain ⟨s, hs⟩ := hpos
    obtain ⟨n, hread, rfl⟩ := (decodes_iff hs).1 h
    obtain ⟨n', hread', rfl⟩ := (decodes_iff hs).1 h'
    obtain ⟨⟩ := hread.symm.trans hread'
    exact ⟨rfl, rfl⟩
  · exact (not_decodes hpos h).elim

/-- A string of the value `v` is spelled in the document, from `pos` up to `stop`. -/
def SpellsString (source : Text) (v : String) (pos stop : Nat) : Prop :=
  ∃ t, part? source pos stop = some t ∧ StringSpelling t v

theorem spellsString_iff (h : StandsAt source s pos) {v : String} :
    source.SpellsString v pos stop ↔
      ∃ t u, s = t ++ u ∧ pos + t.byteSize = stop ∧ StringSpelling t v := by
  constructor
  · rintro ⟨t, hpart, hspelling⟩
    have hle : pos ≤ stop := by
      by_contra hlt
      rw [part?, if_neg hlt] at hpart
      cases hpart
    obtain ⟨n, rfl⟩ := Nat.exists_eq_add_of_le hle
    obtain ⟨u, hs, rfl⟩ := (part?_eq_some_iff h).1 hpart
    exact ⟨t, u, hs, rfl, hspelling⟩
  · rintro ⟨t, u, rfl, rfl, hspelling⟩
    exact ⟨t, part?_eq h, hspelling⟩

theorem decodes_string_iff {v : String} :
    source.Decodes StringLiteral.stringLiteral v ⟨pos, stop⟩ ↔ source.SpellsString v pos stop := by
  by_cases hpos : Boundary source pos
  · obtain ⟨s, hs⟩ := hpos
    simp only [decodes_iff hs, spellsString_iff hs, StringLiteral.stringLiteral_eq_some_iff]
    constructor
    · rintro ⟨n, ⟨t, u, rfl, rfl, hspelling⟩, rfl⟩
      refine ⟨t, u, rfl, ?_, hspelling⟩
      rw [stopAt_length]
    · rintro ⟨t, u, rfl, rfl, hspelling⟩
      exact ⟨t.length, ⟨t, u, rfl, rfl, hspelling⟩, stopAt_length t u pos⟩
  · constructor
    · exact fun hread => (not_decodes hpos hread).elim
    · rintro ⟨t, hpart, -⟩
      rw [part?, slice?, dropBytes?_eq_none hpos] at hpart
      split at hpart <;> cases hpart

end Text

/-- The strings of a document are what its text spells as strings. -/
structure StringsAsSpelled (source : Text) : Prop where
  read : ∀ v pos stop, source.Decodes StringLiteral.stringLiteral v ⟨pos, stop⟩ ↔
    source.SpellsString v pos stop
  /-- The same, going through the document by offsets. -/
  readAt : ∀ v pos stop, (Offsets.stringLiteral source pos).run = .ok (some (v, stop)) ↔
    source.SpellsString v pos stop
  unique : ∀ v v' pos stop stop', source.SpellsString v pos stop → source.SpellsString v' pos stop' →
    v = v' ∧ stop = stop'
  /-- What the escapes of a spelling are made of. -/
  meaning : ∀ c d, Escape.simple? c = some d ↔ (c, d) ∈ Escape.meanings
  digit : ∀ c d, hexValue? c = some d ↔ d < 16 ∧ (c = Hex.upperDigit d ∨ c = Hex.lowerDigit d)

theorem stringsAsSpelled (source : String) : StringsAsSpelled source.toList where
  read _ _ _ := Text.decodes_string_iff
  readAt _ _ _ := (Text.run_eq_some_iff stringLiteral_agrees).trans Text.decodes_string_iff
  unique _ _ _ _ _ h h' :=
    (Text.decodes_string_iff.2 h).unique (Text.decodes_string_iff.2 h')
  meaning _ _ := Escape.simple?_eq_some_iff
  digit _ _ := hexValue?_eq_some_iff

end PegGrammar
