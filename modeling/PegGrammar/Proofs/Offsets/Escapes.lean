import PegGrammar.Proofs.Offsets.Trivia

namespace PegGrammar

theorem utf8Size_of_le {c : Char} (h : c ≤ '\x7f') : c.utf8Size = 1 :=
  Char.utf8Size_eq_one_iff.2 h

theorem utf8Size_of_hexValue? {c : Char} {d : Nat} (h : hexValue? c = some d) : c.utf8Size = 1 := by
  have hle {a b : Char} (hb : b ≤ '\x7f') (hc : (a ≤ c && c ≤ b) = true) : c ≤ '\x7f' :=
    Char.le_trans (of_decide_eq_true (Bool.and_eq_true_iff.1 hc).2) hb
  revert h
  fun_cases hexValue? c with
  | case1 hc => exact fun _ => utf8Size_of_le (hle (by decide) hc)
  | case2 _ hc | case3 _ _ hc => exact fun _ => utf8Size_of_le (hle (by decide) hc)
  | case4 => exact nofun

namespace Escape

theorem utf8Size_of_simple? {c d : Char} (h : simple? c = some d) : c.utf8Size = 1 := by
  revert h
  fun_cases simple? c with
  | case10 => exact nofun
  | _ => exact fun _ => rfl

theorem byteSize_of_hexNumber? {n value m : Nat} {s : Text} (h : hexNumber? n value s = some m) :
    Text.byteSize (s.take n) = n := by
  induction n generalizing value s with
  | zero => rfl
  | succ n ih =>
      cases s with
      | nil => cases h
      | cons c s =>
          rw [hexNumber?] at h
          obtain ⟨d, hd, h⟩ := Option.bind_eq_some_iff.1 h
          rw [List.take_succ_cons, Text.byteSize_cons, utf8Size_of_hexValue? hd, ih h, Nat.add_comm]

theorem hexNumber?_eq_some_iff {n value m : Nat} {s : Text} : hexNumber? n value s = some m ↔
    ∃ t u ds, s = t ++ u ∧ Text.byteSize t = n ∧ t.mapM hexValue? = some ds ∧
      ds.foldl (fun value d => 16 * value + d) value = m := by
  induction n generalizing value s with
  | zero =>
      constructor
      · rintro ⟨⟩
        exact ⟨[], s, [], rfl, rfl, rfl, rfl⟩
      · rintro ⟨t, u, ds, -, hsize, hds, rfl⟩
        rw [StandsAt.eq_nil_of_byteSize_eq_zero hsize] at hds
        cases hds
        rfl
  | succ n ih =>
      constructor
      · intro h
        cases s with
        | nil => cases h
        | cons c s =>
            rw [hexNumber?] at h
            obtain ⟨d, hd, h⟩ := Option.bind_eq_some_iff.1 h
            obtain ⟨t, u, ds, rfl, hsize, hds, hfold⟩ := ih.1 h
            refine ⟨c :: t, u, d :: ds, rfl, ?_, ?_, hfold⟩
            · rw [Text.byteSize_cons, utf8Size_of_hexValue? hd, hsize, Nat.add_comm]
            · simp [hd, hds]
      · rintro ⟨t, u, ds, rfl, hsize, hds, hfold⟩
        cases t with
        | nil => cases hsize
        | cons c t =>
            rw [List.mapM_cons] at hds
            obtain ⟨d, hd, hrest⟩ := Option.bind_eq_some_iff.1 hds
            obtain ⟨ds', hds', ⟨⟩⟩ := Option.bind_eq_some_iff.1 hrest
            rw [Text.byteSize_cons, utf8Size_of_hexValue? hd] at hsize
            rw [List.cons_append, hexNumber?, hd, Option.bind_some]
            exact ih.2 ⟨t, u, ds', rfl, by omega, hds', hfold⟩

end Escape

namespace Offsets

open Checked

variable (source : Text)

def hexDigits (pos count : Nat) : Checked (Nat × Nat) := do
  let digits ← found (part? source pos (pos + count))
  let values ← found (digits.mapM hexValue?)
  return (values.foldl (fun value d => 16 * value + d) 0, pos + count)

def hexEscape (letter : Char) (count pos : Nat) : Checked (Char × Nat) := do
  let digits ← found (literalAt? source pos [letter])
  let (value, stop) ← hexDigits source digits count
  let c ← found (Escape.scalar? value)
  return (c, stop)

def isEscapeChar (c : Char) : Bool :=
  (Escape.simple? c).isSome || isDecimalDigit c || c == 'x' || c == 'u'

def escapeSequence (pos : Nat) : Checked (Char × Nat) := do
  let c ← found (charAt? source pos)
  match Escape.simple? c with
  | some d => return (d, pos + 1)
  | none =>
    if !isEscapeChar c && !isLineTerminator c then return (c, pos + c.utf8Size)
    else if c = '0' ∧ (charAt? source (pos + 1)).any isDecimalDigit = false then
      return ('\x00', pos + 1)
    else if c = 'x' then hexEscape source 'x' 2 pos
    else if c = 'u' then hexEscape source 'u' 4 pos
    else found none

def lineContinuation (pos : Nat) : Checked Nat := do
  let body ← found (literalAt? source pos ['\\'])
  lineEnd source body

def escaped (pos : Nat) : Checked (Option Char × Nat) :=
  (do let (c, stop) ← escapeSequence source (pos + 1); return (some c, stop)) <|>
  (do let stop ← lineContinuation source pos; return (none, stop))

variable {source} {s : Text} {pos : Nat} {c : Char}

theorem part?_eq_some_iff {n : Nat} {t : Text} (h : StandsAt source s pos) :
    part? source pos (pos + n) = some t ↔ ∃ u, s = t ++ u ∧ t.byteSize = n := by
  rw [part?, if_pos (Nat.le_add_right _ _), Text.slice?, h.dropBytes?, Nat.add_sub_cancel_left]
  change (s.splitAtByte? n).bind (fun cut => some cut.1) = some t ↔ _
  constructor
  · intro hpart
    obtain ⟨⟨a, b⟩, hcut, ⟨⟩⟩ := Option.bind_eq_some_iff.1 hpart
    exact ⟨b, Text.append_of_splitAtByte? hcut⟩
  · rintro ⟨u, rfl, rfl⟩
    exact Option.bind_eq_some_iff.2 ⟨(t, u), Text.splitAtByte?_append t u, rfl⟩

theorem hexDigits_eq (h : StandsAt source s pos) (count : Nat) : hexDigits source pos count =
    found ((Escape.hexNumber? count 0 s).map (·, s.stopAt pos count)) := by
  rw [hexDigits]
  cases hn : Escape.hexNumber? count 0 s with
  | some m =>
      obtain ⟨t, u, ds, hs, hsize, hds, hfold⟩ := Escape.hexNumber?_eq_some_iff.1 hn
      rw [(part?_eq_some_iff h).2 ⟨u, hs, hsize⟩, found_bind_some, hds, found_bind_some, hfold,
        Option.map_some, Text.stopAt, Escape.byteSize_of_hexNumber? hn]
      rfl
  | none =>
      cases hpart : part? source pos (pos + count) with
      | none => rfl
      | some t =>
          cases hds : t.mapM hexValue? with
          | none => rw [found_bind_some, hds]; rfl
          | some ds =>
              obtain ⟨u, hs, hsize⟩ := (part?_eq_some_iff h).1 hpart
              cases hn.symm.trans
                (Escape.hexNumber?_eq_some_iff.2 ⟨t, u, ds, hs, hsize, hds, rfl⟩)

theorem hexEscape_eq {letter : Char} (h : StandsAt source (letter :: s) pos) (count : Nat) :
    hexEscape source letter count pos = found ((Escape.hexChar? count s).map fun c =>
      (c, Text.stopAt (letter :: s) pos (count + 1))) := by
  rw [hexEscape, literalAt?_head h, found_bind_some, hexDigits_eq h.tail,
    Escape.hexChar?, Text.stopAt_cons]
  cases Escape.hexNumber? count 0 s with
  | none => rfl
  | some value =>
      rw [Option.map_some, found_bind_some, Option.bind_some]
      exact found_bind_pure _ _

theorem unicodeEscape_eq (h : StandsAt source s pos) : hexEscape source 'u' 4 pos =
    found ((Escape.unicodeEscape s).map fun l => (l.value, s.stopAt pos l.length)) := by
  fun_cases Escape.unicodeEscape s with
  | case1 s => rw [hexEscape_eq h, Option.map_map]; rfl
  | case2 _ hnot => rw [hexEscape, literalAt?_of_ne h hnot]; rfl

theorem escapeSequence_agrees :
    Agrees.Values source (escapeSequence source) Escape.escapeSequence where
  there {s pos} h := by
    rw [escapeSequence, charAt?_eq h]
    fun_cases Escape.escapeSequence s with
    | case1 => rfl
    | case2 c s d hd =>
        rw [List.head?_cons, found_bind_some, hd, Option.map_some, Text.stopAt_one,
          Escape.utf8Size_of_simple? hd]
        rfl
    | case3 s =>
        rw [Escape.byteEscape, Option.map_map]
        exact hexEscape_eq h 2
    | case4 s =>
        exact unicodeEscape_eq h
    | case5 c s hd hx hu hc =>
        obtain ⟨rfl, hdigit⟩ := hc
        have hnext : charAt? source (pos + 1) = s.head? := charAt?_eq h.tail
        rw [List.head?_cons, found_bind_some, hd, hnext, Option.map_some, Text.stopAt_one]
        change (if '0' = '0' ∧ s.head?.any isDecimalDigit = false then _ else _) = _
        rw [if_pos ⟨rfl, hdigit⟩]
        rfl
    | case6 c s hd hx hu hc hother =>
        have hescape : (!isEscapeChar c && !isLineTerminator c) = false := by
          rcases Bool.or_eq_true_iff.1 hother with hdigit | hline
          · simp [isEscapeChar, hdigit]
          · simp [hline]
        have hzero : ¬ (c = '0' ∧ (charAt? source (pos + 1)).any isDecimalDigit = false) := by
          rintro ⟨rfl, hdigit⟩
          have hnext : charAt? source (pos + 1) = s.head? := charAt?_eq h.tail
          rw [hnext] at hdigit
          exact hc ⟨rfl, hdigit⟩
        rw [List.head?_cons, found_bind_some, hd]
        simp only [hescape, if_neg hzero, if_neg hx, if_neg hu]
        rfl
    | case7 c s hd hx hu hc hother =>
        have hescape : (!isEscapeChar c && !isLineTerminator c) = true := by
          rw [Bool.or_eq_true, not_or, Bool.not_eq_true, Bool.not_eq_true] at hother
          simp [isEscapeChar, hd, hother, hx, hu]
        rw [List.head?_cons, found_bind_some, hd, Option.map_some, Text.stopAt_one]
        exact if_pos hescape
  elsewhere h := by rw [escapeSequence, charAt?_eq_none h, found_bind_none]

theorem lineContinuation_agrees :
    Agrees.Ends source (lineContinuation source) Escape.lineContinuation where
  there {s pos} h := by
    fun_cases Escape.lineContinuation s with
    | case1 s =>
        rw [lineContinuation, literalAt?_head h, found_bind_some, lineEnd_agrees.there h.tail,
          Option.map_map]
        exact congrArg (found <| Option.map · _) (funext fun n => (Text.stopAt_cons _ s pos n).symm)
    | case2 _ hnot => rw [lineContinuation, literalAt?_of_ne h hnot]; rfl
  elsewhere h := by rw [lineContinuation, literalAt?_eq_none h, found_bind_none]

theorem escaped_eq (h : StandsAt source ('\\' :: s) pos) : escaped source pos =
    found ((Escape.escaped s).map fun l =>
      (l.value, Text.stopAt ('\\' :: s) pos (l.length + 1))) := by
  have hnext : StandsAt source s (pos + 1) := h.tail
  rw [escaped, escapeSequence_agrees.there hnext, lineContinuation_agrees.there h, Escape.escaped]
  cases Escape.escapeSequence s with
  | some l => rw [Option.map_some, Option.map_some, Text.stopAt_cons]; rfl
  | none =>
      rw [Escape.lineContinuation]
      cases Trivia.lineEnd s <;> rfl

end Offsets

end PegGrammar
