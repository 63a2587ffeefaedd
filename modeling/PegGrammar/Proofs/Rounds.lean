import PegGrammar.Proofs.Boundary
import PegGrammar.Proofs.Recognition.Length

namespace PegGrammar

/-- A round takes something, and no more than there is. -/
def Advances (round : Text → Option Nat) : Prop := ∀ s n, round s = some n → 0 < n ∧ n ≤ s.length

theorem Advances.orElse {r r' : Text → Option Nat} (hr : Advances r) (hr' : Advances r') :
    Advances fun s => r s <|> r' s := by
  intro s n h
  simp only [Option.orElse_eq_orElse, Option.orElse_eq_or, Option.or_eq_some_iff] at h
  rcases h with h | ⟨-, h⟩
  · exact hr s n h
  · exact hr' s n h

namespace Trivia

theorem advances_space : Advances space := by
  intro s n h
  revert h
  fun_cases space s with
  | case1 c s => rintro ⟨⟩; exact ⟨Nat.one_pos, Nat.le_add_left 1 s.length⟩
  | case2 | case3 => rintro ⟨⟩

theorem advances_lineEnd : Advances lineEnd := by
  intro s n h
  refine ⟨?_, length_le_of_lineEnd h⟩
  revert h
  fun_cases lineEnd s with
  | case1 | case2 => rintro ⟨⟩; decide
  | case3 | case4 => rintro ⟨⟩

theorem length_le_of_throughClose {s : Text} {n : Nat} (h : throughClose s = some n) :
    n ≤ s.length := by
  fun_induction throughClose s generalizing n with
  | case1 s => cases h; exact Nat.le_add_left 2 s.length
  | case2 c s _ ih =>
      obtain ⟨m, hm, rfl⟩ := Option.map_eq_some_iff.1 h
      exact Nat.succ_le_succ (ih hm)
  | case3 => cases h

theorem advances_blockComment : Advances blockComment := by
  intro s n h
  revert h
  fun_cases blockComment s with
  | case1 s =>
      intro h
      obtain ⟨m, hm, rfl⟩ := Option.map_eq_some_iff.1 h
      exact ⟨Nat.succ_pos _, Nat.add_le_add_right (length_le_of_throughClose hm) 2⟩
  | case2 => rintro ⟨⟩

theorem advances_inlineComment : Advances inlineComment :=
  fun s n h => advances_blockComment s n (blockComment_of_inlineComment h).1

theorem advances_lineComment : Advances lineComment := by
  intro s n h
  revert h
  fun_cases lineComment s with
  | case1 s =>
      rintro ⟨⟩
      exact ⟨Nat.succ_pos _, Nat.add_le_add_right (List.takeWhile_prefix _).length_le 2⟩
  | case2 => rintro ⟨⟩

theorem advances_comment : Advances comment := advances_blockComment.orElse advances_lineComment

theorem advances_unit : Advances unit :=
  advances_space.orElse (advances_lineEnd.orElse advances_comment)

theorem advances_inlineUnit : Advances inlineUnit := advances_space.orElse advances_inlineComment

/-- Units that take something are skipped as long as there are any. -/
theorem run_eq {unit : Text → Option Nat} (h : Advances unit) (s : Text) :
    run unit s = (unit s).elim 0 fun n => n + run unit (s.drop n) := by
  cases hn : unit s with
  | none =>
      cases s with
      | nil => rw [run]; rfl
      | cons c s => rw [run, hn]; rfl
  | some n =>
      obtain ⟨hpos, hle⟩ := h s n hn
      obtain ⟨n, rfl⟩ : ∃ m, n = m + 1 := ⟨n - 1, by omega⟩
      cases s with
      | nil => cases hle
      | cons c s => rw [run, hn]; rfl

theorem run_le {unit : Text → Option Nat} (h : Advances unit) (s : Text) :
    run unit s ≤ s.length := by
  fun_induction run unit s with
  | case1 | case3 => exact Nat.zero_le _
  | case2 c s n hn ih =>
      have hle := (h _ _ hn).2
      rw [List.length_drop] at ih
      rw [List.length_cons] at hle ⊢
      omega

theorem unit_drop_skip (s : Text) : unit (s.drop (skip s)) = none := by
  have hzero : skip (s.drop (skip s)) = 0 := run_drop_run unit s
  rw [skip, run_eq advances_unit] at hzero
  cases hunit : unit (s.drop (skip s)) with
  | none => rfl
  | some n =>
      have hpos := (advances_unit _ _ hunit).1
      rw [← skip, hunit, Option.elim_some] at hzero
      omega

theorem unit_eq_none_iff {s : Text} : unit s = none ↔
    ∀ recognize ∈ [space, lineEnd, blockComment, lineComment], recognize s = none := by
  simp [unit, comment]

theorem lineEnd_ne_none {t : Text} (h : LineEndText t) (s : Text) : lineEnd (t ++ s) ≠ none := by
  obtain ⟨c, u, htext, hc⟩ := h.exists_cons s
  rw [htext]
  intro hend
  rw [lineEnd.eq_def] at hend
  split at hend
  next => cases hend
  next heq =>
    cases heq
    rw [if_pos hc] at hend
    cases hend
  next heq => cases heq

theorem throughClose_ne_none (b s : Text) : throughClose (b ++ '*' :: '/' :: s) ≠ none := by
  induction b with
  | nil => nofun
  | cons c b ih =>
      rw [List.cons_append, throughClose.eq_def]
      split
      next => nofun
      next heq =>
        cases heq
        rwa [ne_eq, Option.map_eq_none_iff]
      next heq => cases heq

theorem blockComment_ne_none {t : Text} (h : BlockText t) (s : Text) :
    blockComment (t ++ s) ≠ none := by
  cases h with
  | @mk b _ =>
      have htext : '/' :: '*' :: (b ++ ['*', '/']) ++ s = '/' :: '*' :: (b ++ '*' :: '/' :: s) := by
        simp
      rw [htext, blockComment, ne_eq, Option.map_eq_none_iff]
      exact throughClose_ne_none b s

/-- Trivia begins a text exactly where a unit of it is found. -/
theorem noTrivia_iff {s : Text} : NoTrivia s ↔ unit s = none := by
  constructor
  · intro h
    cases hunit : unit s with
    | none => rfl
    | some n => exact (h _ _ (triviaPiece_of_unit hunit) (List.take_append_drop n s).symm).elim
  · rintro hunit t rest h rfl
    rw [unit_eq_none_iff, List.forall_mem_cons, List.forall_mem_cons, List.forall_mem_cons,
      List.forall_mem_singleton] at hunit
    obtain ⟨hspace, hend, hblock, hline⟩ := hunit
    cases h with
    | space hc => simp [space, hc] at hspace
    | lineEnd h => exact lineEnd_ne_none h rest hend
    | block h => exact blockComment_ne_none h rest hblock
    | line h =>
        cases h
        cases hline

theorem noTrivia_drop_skip (s : Text) : NoTrivia (s.drop (skip s)) :=
  noTrivia_iff.2 (unit_drop_skip s)

end Trivia

namespace Name

theorem advances_nameChar (plain : Char → Bool) :
    Advances fun s => (nameChar plain s).map Lexeme.length := by
  intro s n h
  obtain ⟨u, hu, rfl⟩ := Option.map_eq_some_iff.1 h
  exact ⟨length_pos_of_nameChar hu, length_le_of_nameChar hu⟩

theorem nameParts_eq (s : Text) : nameParts s =
    match nameChar isNamePart s with
    | some u =>
      let t := nameParts (s.drop u.length)
      ⟨u.value :: t.value, u.length + t.length⟩
    | none => ⟨[], 0⟩ := by
  cases s with
  | nil => rw [nameParts]; rfl
  | cons c s =>
      rw [nameParts]
      cases hu : nameChar isNamePart (c :: s) with
      | none => rfl
      | some u =>
          obtain ⟨n, hn⟩ : ∃ n, u.length = n + 1 :=
            ⟨u.length - 1, by have := length_pos_of_nameChar hu; omega⟩
          simp only [hn, Nat.add_sub_cancel, List.drop_succ_cons]

end Name

namespace StringLiteral

/-- What one round reads between quotes: a character, or an escape and what it stands for. -/
def quotedChar (quote : Char) : Text → Option (Lexeme (Option Char))
  | [] => none
  | c :: s =>
    if c = quote then none
    else if c = '\\' then (Escape.escaped s).map fun e => ⟨e.value, 1 + e.length⟩
    else if isLineTerminator c then none
    else some ⟨some c, 1⟩

theorem advances_quotedChar (quote : Char) :
    Advances fun s => (quotedChar quote s).map Lexeme.length := by
  intro s n h
  obtain ⟨u, hu, rfl⟩ := Option.map_eq_some_iff.1 h
  revert hu
  fun_cases quotedChar quote s with
  | case1 | case2 | case4 => rintro ⟨⟩
  | case3 s =>
      intro hu
      obtain ⟨e, he, rfl⟩ := Option.map_eq_some_iff.1 hu
      have hle := Escape.length_le_of_escaped he
      simp only [List.length_cons]
      omega
  | case5 c s =>
      rintro ⟨⟩
      exact ⟨Nat.one_pos, Nat.le_add_left 1 s.length⟩

theorem quotedChars_eq (quote : Char) (s : Text) : quotedChars quote s =
    match quotedChar quote s with
    | some u => (quotedChars quote (s.drop u.length)).map fun t =>
        ⟨u.value.toList ++ t.value, u.length + t.length⟩
    | none => if s.head? = some quote then some ⟨[], 1⟩ else none := by
  fun_cases quotedChar quote s with
  | case1 => rw [quotedChars]; rfl
  | case2 s => rw [quotedChars, if_pos rfl, List.head?_cons, if_pos rfl]
  | case3 s hquote =>
      rw [quotedChars, if_neg hquote, if_pos rfl]
      cases Escape.escaped s with
      | none => simp [hquote]
      | some e => simp [Nat.add_comm 1]
  | case4 c s hquote hslash hline =>
      rw [quotedChars, if_neg hquote, if_neg hslash, if_pos hline]
      simp [hquote]
  | case5 c s hquote hslash hline =>
      rw [quotedChars, if_neg hquote, if_neg hslash, if_neg hline]
      rfl

end StringLiteral

namespace ClassBody

theorem length_le_of_classChar {s : Text} {l : Lexeme (Option Char)} (h : classChar s = some l) :
    l.length ≤ s.length := by
  revert h
  fun_cases classChar s with
  | case1 | case2 | case4 => rintro ⟨⟩
  | case3 s hclose =>
      intro h
      obtain ⟨e, he, rfl⟩ := Option.map_eq_some_iff.1 h
      exact Nat.succ_le_succ (Escape.length_le_of_escaped he)
  | case5 c s => rintro ⟨⟩; exact Nat.le_add_left 1 s.length

theorem advances_classPart : Advances fun s => (classPart s).map Lexeme.length := by
  intro s n h
  obtain ⟨u, hu, rfl⟩ := Option.map_eq_some_iff.1 h
  refine ⟨length_pos_of_classPart hu, ?_⟩
  rw [classPart] at hu
  split at hu
  next r hr =>
    cases hu
    obtain ⟨n, t, m, hfirst, hdash, hlast, hlength⟩ := classRange_cases hr
    have hle : m ≤ t.length := length_le_of_classChar hlast
    have hrest := congrArg List.length hdash
    rw [List.length_drop, List.length_cons] at hrest
    simp only [hlength]
    omega
  next =>
    obtain ⟨v, hv, rfl⟩ := Option.map_eq_some_iff.1 hu
    exact length_le_of_classChar hv

theorem classParts_eq (s : Text) : classParts s =
    match classPart s with
    | none => .ok ⟨[], 0⟩
    | some u =>
      if u.value.all ClassPart.isOrdered then
        match classParts (s.drop u.length) with
        | .ok t => .ok ⟨u.value.toList ++ t.value, u.length + t.length⟩
        | .error e => .error ⟨s.take u.length ++ e.before, e.text⟩
      else .error ⟨[], s.take u.length⟩ := by
  cases s with
  | nil => rw [classParts]; rfl
  | cons c s =>
      rw [classParts]
      cases hu : classPart (c :: s) with
      | none => rfl
      | some u =>
          obtain ⟨v, n⟩ := u
          cases n with
          | zero => exact absurd (length_pos_of_classPart hu) (Nat.lt_irrefl 0)
          | succ n => rfl

end ClassBody

namespace CodeBlock

/-- What one round does to the number of open braces. The brace that ends the code is in no round. -/
def codeChar (depth : Nat) : Text → Option (Lexeme Nat)
  | [] => none
  | c :: _ =>
    if c = '{' then some ⟨depth + 1, 1⟩
    else if c = '}' then
      match depth with
      | 0 => none
      | depth + 1 => some ⟨depth, 1⟩
    else some ⟨depth, 1⟩

theorem advances_codeChar (depth : Nat) :
    Advances fun s => (codeChar depth s).map Lexeme.length := by
  intro s n h
  obtain ⟨u, hu, rfl⟩ := Option.map_eq_some_iff.1 h
  revert hu
  fun_cases codeChar depth s with
  | case1 | case3 => rintro ⟨⟩
  | case2 | case4 | case5 =>
      rintro ⟨⟩
      exact ⟨Nat.one_pos, Nat.le_add_left 1 _⟩

theorem codeUpTo_eq (depth : Nat) (s : Text) : codeUpTo depth s =
    match codeChar depth s with
    | some u => (codeUpTo u.value (s.drop u.length)).map (s.take u.length ++ ·)
    | none => if s.head? = some '}' then some [] else none := by
  cases s with
  | nil => rw [codeUpTo.eq_def]; rfl
  | cons c s =>
      rw [codeUpTo.eq_def, codeChar.eq_def]
      dsimp only
      by_cases hopen : c = '{'
      · rw [if_pos hopen, if_pos hopen]
        rfl
      · rw [if_neg hopen, if_neg hopen]
        by_cases hclose : c = '}'
        · subst hclose
          cases depth <;> rfl
        · rw [if_neg hclose, if_neg hclose]
          rfl

end CodeBlock

theorem StandsAt.lt_of_length_lt {source t u : Text} {n m : Nat} (h : StandsAt source t n)
    (h' : StandsAt source u m) (hlt : u.length < t.length) : n < m := by
  by_contra hle
  obtain ⟨between, rfl, -⟩ := h'.exists_between h (Nat.le_of_not_lt hle)
  rw [List.length_append] at hlt
  omega

theorem Scan.Along.offset_lt {source : Text} {scan : Scan} (h : scan.Along source)
    (hrest : scan.rest ≠ []) : scan.position.offset < scan.step.position.offset ∧
      scan.step.position.offset ≤ source.byteSize :=
  ⟨h.stands.lt_of_length_lt h.step.stands (length_step_lt hrest), h.step.stands.le_byteSize⟩

/-- Every loop of the recognisers and the locator goes round by round, and every round advances. -/
structure RoundsAdvance : Prop where
  trivia : Advances Trivia.unit ∧
    ∀ s, Trivia.skip s = (Trivia.unit s).elim 0 fun n => n + Trivia.skip (s.drop n)
  inlineTrivia : Advances Trivia.inlineUnit ∧
    ∀ s, Trivia.skipInline s =
      (Trivia.inlineUnit s).elim 0 fun n => n + Trivia.skipInline (s.drop n)
  name : (∀ plain, Advances fun s => (Name.nameChar plain s).map Lexeme.length) ∧
    ∀ s, Name.nameParts s = match Name.nameChar isNamePart s with
      | some u =>
        let t := Name.nameParts (s.drop u.length)
        ⟨u.value :: t.value, u.length + t.length⟩
      | none => ⟨[], 0⟩
  string : ∀ quote, (Advances fun s => (StringLiteral.quotedChar quote s).map Lexeme.length) ∧
    ∀ s, StringLiteral.quotedChars quote s = match StringLiteral.quotedChar quote s with
      | some u => (StringLiteral.quotedChars quote (s.drop u.length)).map fun t =>
          ⟨u.value.toList ++ t.value, u.length + t.length⟩
      | none => if s.head? = some quote then some ⟨[], 1⟩ else none
  charClass : (Advances fun s => (ClassBody.classPart s).map Lexeme.length) ∧
    ∀ s, ClassBody.classParts s = match ClassBody.classPart s with
      | none => .ok ⟨[], 0⟩
      | some u =>
        if u.value.all ClassPart.isOrdered then
          match ClassBody.classParts (s.drop u.length) with
          | .ok t => .ok ⟨u.value.toList ++ t.value, u.length + t.length⟩
          | .error e => .error ⟨s.take u.length ++ e.before, e.text⟩
        else .error ⟨[], s.take u.length⟩
  code : ∀ depth, (Advances fun s => (CodeBlock.codeChar depth s).map Lexeme.length) ∧
    ∀ s, CodeBlock.codeUpTo depth s = match CodeBlock.codeChar depth s with
      | some u => (CodeBlock.codeUpTo u.value (s.drop u.length)).map (s.take u.length ++ ·)
      | none => if s.head? = some '}' then some [] else none
  scan : (∀ {source : Text} {scan : Scan}, scan.Along source → scan.rest ≠ [] →
      scan.step.Along source ∧ scan.step.rest.length < scan.rest.length ∧
      scan.position.offset < scan.step.position.offset ∧
      scan.step.position.offset ≤ source.byteSize) ∧
    ∀ (target : Nat) (scan : Scan), scan.upTo target =
      if scan.rest = [] ∨ target ≤ scan.position.offset then scan else scan.step.upTo target

theorem rounds_advance : RoundsAdvance where
  trivia := ⟨Trivia.advances_unit, Trivia.run_eq Trivia.advances_unit⟩
  inlineTrivia := ⟨Trivia.advances_inlineUnit, Trivia.run_eq Trivia.advances_inlineUnit⟩
  name := ⟨Name.advances_nameChar, Name.nameParts_eq⟩
  string quote := ⟨StringLiteral.advances_quotedChar quote, StringLiteral.quotedChars_eq quote⟩
  charClass := ⟨ClassBody.advances_classPart, ClassBody.classParts_eq⟩
  code depth := ⟨CodeBlock.advances_codeChar depth, CodeBlock.codeUpTo_eq depth⟩
  scan := ⟨fun h hrest => ⟨h.step, Scan.length_step_lt hrest, h.offset_lt hrest⟩, Scan.upTo_eq⟩

end PegGrammar
