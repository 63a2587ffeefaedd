import PegGrammar.Proofs.Offsets.Checked

namespace PegGrammar.Offsets

open Checked

variable (source : Text)

def space (pos : Nat) : Checked Nat := do
  let c ← found (charAt? source pos)
  if isSpace c then return pos + c.utf8Size else found none

def lineEnd (pos : Nat) : Checked Nat := do
  let c ← found (charAt? source pos)
  if c = '\r' then return (literalAt? source pos ['\r', '\n']).getD (pos + 1)
  else if isLineTerminator c then return pos + c.utf8Size
  else found none

def blockComment (pos : Nat) : Checked Nat := do
  let body ← found (literalAt? source pos ['/', '*'])
  let rest ← sliceFrom source body
  let close ← found (find? (List.isPrefixOf ['*', '/']) rest)
  return body + close + 2

def closeRound (_ : Unit) (pos : Nat) : Except Fault (Round Unit (Option Nat)) :=
  match literalAt? source pos ['*', '/'] with
  | some stop => .ok (.done (some stop))
  | none =>
    match charAt? source pos with
    | some c =>
      if isLineTerminator c then .ok (.done none) else .ok (.again () (pos + c.utf8Size))
    | none => .ok (.done none)

def inlineComment (pos : Nat) : Checked Nat := do
  let body ← found (literalAt? source pos ['/', '*'])
  OptionT.mk (loop source (closeRound source) () body)

/-- The number of bytes before the next line end, if there is one. -/
def findLineEnd? : Text → Option Nat := find? fun s => s.head?.any isLineTerminator

def lineComment (pos : Nat) : Checked Nat := do
  let body ← found (literalAt? source pos ['/', '/'])
  let rest ← sliceFrom source body
  return body + (findLineEnd? rest).getD (source.byteSize - body)

def comment (pos : Nat) : Checked Nat := blockComment source pos <|> lineComment source pos

def unit (pos : Nat) : Checked Nat := space source pos <|> lineEnd source pos <|> comment source pos

def inlineUnit (pos : Nat) : Checked Nat := space source pos <|> inlineComment source pos

def skipRound (unit : Nat → Checked Nat) (_ : Unit) (pos : Nat) :
    Except Fault (Round Unit Nat) := do
  match ← (unit pos).run with
  | some next => return .again () next
  | none => return .done pos

def skip (pos : Nat) : Except Fault Nat := loop source (skipRound (unit source)) () pos

def skipInline (pos : Nat) : Except Fault Nat := loop source (skipRound (inlineUnit source)) () pos

variable {source} {s t : Text} {pos : Nat}

theorem space_agrees : Agrees.Ends source (space source) Trivia.space where
  there {s pos} h := by
    rw [space, charAt?_eq h]
    cases s with
    | nil => rfl
    | cons c s =>
        rw [List.head?_cons, found_bind_some, Trivia.space]
        split
        next => rw [Option.map_some, Text.stopAt_one]; rfl
        next => rfl
  elsewhere h := by rw [space, charAt?_eq_none h, found_bind_none]

theorem lineEnd_agrees : Agrees.Ends source (lineEnd source) Trivia.lineEnd where
  there {s pos} h := by
    rw [lineEnd, charAt?_eq h]
    fun_cases Trivia.lineEnd s with
    | case1 t =>
        rw [List.head?_cons, found_bind_some, if_pos rfl, (literalAt?_two h).1, Option.map_some]
        rfl
    | case2 c t hcr hc =>
        rw [List.head?_cons, found_bind_some, if_pos hc, Option.map_some, Text.stopAt_one]
        split
        next heq =>
          subst heq
          rw [literalAt?_two_of_ne h fun u hu => hcr u rfl (List.cons.inj hu).2]
          rfl
        next => rfl
    | case3 c t hcr hc =>
        rw [List.head?_cons, found_bind_some, if_neg (by rintro rfl; exact hc rfl), if_neg hc]
        rfl
    | case4 => rfl
  elsewhere h := by rw [lineEnd, charAt?_eq_none h, found_bind_none]

theorem find?_close (s : Text) (pos : Nat) :
    (find? (List.isPrefixOf ['*', '/']) s).map (pos + · + 2) =
      (Trivia.throughClose s).map (s.stopAt pos) := by
  fun_induction Trivia.throughClose s generalizing pos with
  | case1 s => rfl
  | case2 c s hnot ih =>
      have hpair : ¬ List.isPrefixOf ['*', '/'] (c :: s) = true := by
        rw [List.isPrefixOf_iff_prefix]
        rintro ⟨t, ht⟩
        cases ht
        exact hnot t rfl rfl
      rw [find?, if_neg hpair, Option.map_map, Option.map_map]
      have hright : Text.stopAt (c :: s) pos ∘ (· + 1) = Text.stopAt s (pos + c.utf8Size) :=
        funext fun n => Text.stopAt_cons c s pos n
      have hleft : (pos + · + 2) ∘ (c.utf8Size + ·) = (pos + c.utf8Size + · + 2) :=
        funext fun n => by simp [Nat.add_assoc]
      rw [hleft, hright, ih]
  | case3 => rfl

theorem map_stopAt_two (a b : Char) (s : Text) (pos : Nat) (o : Option Nat) :
    (o.map (· + 2)).map (Text.stopAt (a :: b :: s) pos) =
      o.map (s.stopAt (pos + a.utf8Size + b.utf8Size)) := by
  rw [Option.map_map]
  refine congrArg (o.map ·) (funext fun n => ?_)
  change Text.stopAt (a :: b :: s) pos (n + 1 + 1) = _
  rw [Text.stopAt_cons, Text.stopAt_cons]

theorem blockComment_agrees : Agrees.Ends source (blockComment source) Trivia.blockComment where
  there {s pos} h := by
    fun_cases Trivia.blockComment s with
    | case1 t =>
        obtain ⟨hbody, hrest⟩ := literalAt?_two h
        rw [map_stopAt_two, blockComment, hbody, found_bind_some, sliceFrom_eq hrest, ← find?_close,
          ← found_bind_pure]
        rfl
    | case2 _ hnot => rw [blockComment, literalAt?_two_of_ne h hnot]; rfl
  elsewhere h := by rw [blockComment, literalAt?_eq_none h, found_bind_none]

theorem loop_closeRound (h : StandsAt source s pos) : loop source (closeRound source) () pos =
    .ok ((Trivia.throughCloseInline s).map (s.stopAt pos)) := by
  refine loop_eq (fun _ s pos => (Trivia.throughCloseInline s).map (s.stopAt pos))
    (fun _ s pos h => ?_) () h
  have hnone (hnot : ∀ t, s = '*' :: '/' :: t → False) : literalAt? source pos ['*', '/'] = none :=
    literalAt?_two_of_ne h hnot
  fun_cases Trivia.throughCloseInline s with
  | case1 t =>
      rw [closeRound, (literalAt?_two h).1]
      exact .inl rfl
  | case2 c t hnot hc =>
      rw [closeRound, hnone fun u hu => by cases hu; exact hnot u rfl rfl, charAt?_eq h]
      exact .inl (if_pos hc)
  | case3 c t hnot hc =>
      rw [closeRound, hnone fun u hu => by cases hu; exact hnot u rfl rfl, charAt?_eq h]
      refine .inr ⟨(), 1, Nat.one_pos, Nat.le_add_left 1 t.length, ?_, ?_⟩
      · rw [Text.stopAt_one]
        exact if_neg hc
      · rw [Text.stopAt_one, Option.map_map]
        exact congrArg (Option.map · _) (funext fun n => (Text.stopAt_cons c t pos n).symm)
  | case4 =>
      rw [closeRound, hnone nofun, charAt?_eq h]
      exact .inl rfl

theorem inlineComment_agrees : Agrees.Ends source (inlineComment source) Trivia.inlineComment where
  there {s pos} h := by
    fun_cases Trivia.inlineComment s with
    | case1 t =>
        obtain ⟨hbody, hrest⟩ := literalAt?_two h
        rw [map_stopAt_two, inlineComment, hbody, found_bind_some, loop_closeRound hrest]
        rfl
    | case2 _ hnot => rw [inlineComment, literalAt?_two_of_ne h hnot]; rfl
  elsewhere h := by rw [inlineComment, literalAt?_eq_none h, found_bind_none]

theorem findLineEnd?_eq (s : Text) : (findLineEnd? s).getD s.byteSize =
    (Trivia.restOfLine s).byteSize := by
  rw [findLineEnd?]
  induction s with
  | nil => rfl
  | cons c s ih =>
      rw [Trivia.restOfLine] at ih ⊢
      rw [find?, List.takeWhile_cons]
      cases hc : isLineTerminator c with
      | true => simp [hc]
      | false =>
          cases hfind : find? (fun s => s.head?.any isLineTerminator) s <;> simp_all

theorem byteSize_sub (h : StandsAt source s pos) : source.byteSize - pos = s.byteSize := by
  obtain ⟨before, rfl, rfl⟩ := h
  rw [Text.byteSize_append, Nat.add_sub_cancel_left]

theorem lineComment_agrees : Agrees.Ends source (lineComment source) Trivia.lineComment where
  there {s pos} h := by
    fun_cases Trivia.lineComment s with
    | case1 t =>
        obtain ⟨hbody, hrest⟩ := literalAt?_two h
        obtain ⟨u, hu⟩ : Trivia.restOfLine t <+: t := List.takeWhile_prefix _
        have hstop : Text.stopAt t (pos + '/'.utf8Size + '/'.utf8Size) (Trivia.restOfLine t).length =
            pos + '/'.utf8Size + '/'.utf8Size + (Trivia.restOfLine t).byteSize := by
          rw [← Text.stopAt_length _ u, hu]
        rw [lineComment, hbody, found_bind_some, sliceFrom_eq hrest, byteSize_sub hrest,
          Option.map_some, Text.stopAt_cons, Text.stopAt_cons, hstop, ← findLineEnd?_eq]
        rfl
    | case2 _ hnot => rw [lineComment, literalAt?_two_of_ne h hnot]; rfl
  elsewhere h := by rw [lineComment, literalAt?_eq_none h, found_bind_none]

theorem comment_agrees : Agrees.Ends source (comment source) Trivia.comment :=
  blockComment_agrees.orElse lineComment_agrees

theorem unit_agrees : Agrees.Ends source (unit source) Trivia.unit :=
  space_agrees.orElse (lineEnd_agrees.orElse comment_agrees)

theorem inlineUnit_agrees : Agrees.Ends source (inlineUnit source) Trivia.inlineUnit :=
  space_agrees.orElse inlineComment_agrees

section Skip

variable {unit : Nat → Checked Nat} {recognize : Text → Option Nat}

theorem loop_skipRound (hunit : Agrees.Ends source unit recognize) (hadvances : Advances recognize)
    (h : StandsAt source s pos) :
    loop source (skipRound unit) () pos = .ok (s.stopAt pos (Trivia.run recognize s)) := by
  refine loop_eq (fun _ s pos => s.stopAt pos (Trivia.run recognize s))
    (fun _ s pos h => ?_) () h
  rw [skipRound, hunit.there h, run_found_bind, Trivia.run_eq hadvances s]
  cases hn : recognize s with
  | none => exact .inl rfl
  | some n =>
      obtain ⟨hpos, hle⟩ := hadvances s n hn
      refine .inr ⟨(), n, hpos, hle, rfl, ?_⟩
      exact (Text.stopAt_add s pos n _).symm

theorem loop_skipRound_of_not_boundary (hunit : Agrees.Ends source unit recognize)
    (h : ¬ Boundary source pos) : loop source (skipRound unit) () pos = .ok pos := by
  rw [loop, skipRound, hunit.elsewhere h]
  rfl

end Skip

theorem skip_eq (h : StandsAt source s pos) : skip source pos = .ok (s.stopAt pos (Trivia.skip s)) :=
  loop_skipRound unit_agrees Trivia.advances_unit h

theorem skipInline_eq (h : StandsAt source s pos) :
    skipInline source pos = .ok (s.stopAt pos (Trivia.skipInline s)) :=
  loop_skipRound inlineUnit_agrees Trivia.advances_inlineUnit h

end PegGrammar.Offsets
