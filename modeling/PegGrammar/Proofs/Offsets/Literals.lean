import PegGrammar.Proofs.Offsets.Escapes

namespace PegGrammar.Offsets

open Checked

variable (source : Text)

def quotedRound (quote : Char) (value : Text) (pos : Nat) :
    Except Fault (Round Text (Option (String × Nat))) :=
  match charAt? source pos with
  | none => .ok (.done none)
  | some c =>
    if c = quote then .ok (.done (some (String.ofList value, pos + 1)))
    else if c = '\\' then do
      match ← (escaped source pos).run with
      | some (decoded, next) => return .again (value ++ decoded.toList) next
      | none => return .done none
    else if isLineTerminator c then .ok (.done none)
    else .ok (.again (value ++ [c]) (pos + c.utf8Size))

def stringLiteral (pos : Nat) : Checked (String × Nat) := do
  let quote ← found ((charAt? source pos).filter StringLiteral.isQuote)
  OptionT.mk (loop source (quotedRound source quote) [] (pos + 1))

def classChar (pos : Nat) : Checked (Option Char × Nat) := do
  let c ← found (charAt? source pos)
  if c = ']' then found none
  else if c = '\\' then escaped source pos
  else if isLineTerminator c then found none
  else return (some c, pos + c.utf8Size)

/-- A class range in the wrong order, as written. -/
structure InvalidRange where
  text : String
  range : ByteRange
  deriving DecidableEq, Repr

def classRange (pos : Nat) : Except Fault (Except InvalidRange (Option ((Char × Char) × Nat))) := do
  match ← (classChar source pos).run with
  | some (some first, dash) =>
    match literalAt? source dash ['-'] with
    | some after =>
      match ← (classChar source after).run with
      | some (some last, stop) =>
        if first ≤ last then return .ok (some ((first, last), stop))
        else
          let text ← slice source pos stop
          return .error ⟨String.ofList text, ⟨pos, stop⟩⟩
      | _ => return .ok none
    | none => return .ok none
  | _ => return .ok none

/-- In a class: a range where one can be read, else a single character. -/
def classRound (parts : List ClassPart) (pos : Nat) :
    Except Fault (Round (List ClassPart) (Except InvalidRange (List ClassPart × Nat))) := do
  match ← classRange source pos with
  | .error e => return .done (.error e)
  | .ok (some ((first, last), next)) => return .again (parts ++ [.range first last]) next
  | .ok none =>
    match ← (classChar source pos).run with
    | some (c, next) => return .again (parts ++ (c.map ClassPart.char).toList) next
    | none => return .done (.ok (parts, pos))

def closedParts (inverted : Bool) (pos : Nat) :
    Except Fault (Except InvalidRange (Option (ClassBody × Nat))) := do
  match ← loop source (classRound source) [] pos with
  | .error e => return .error e
  | .ok (parts, close) =>
    return .ok ((literalAt? source close [']']).map fun stop => (⟨parts, inverted⟩, stop))

def classBody (pos : Nat) : Except Fault (Except InvalidRange (Option (ClassBody × Nat))) :=
  match literalAt? source pos ['['] with
  | none => .ok (.ok none)
  | some body =>
    match literalAt? source body ['^'] with
    | some body => closedParts source true body
    | none => closedParts source false body

variable {source} {s : Text} {pos : Nat} {c : Char}

theorem quotedRound_eq {quote : Char} (hquote : quote.utf8Size = 1) (value : Text)
    (h : StandsAt source s pos) : quotedRound source quote value pos =
      .ok (match StringLiteral.quotedChar quote s with
        | some u => .again (value ++ u.value.toList) (s.stopAt pos u.length)
        | none => .done (if s.head? = some quote then some (String.ofList value, s.stopAt pos 1)
            else none)) := by
  rw [quotedRound, charAt?_eq h]
  fun_cases StringLiteral.quotedChar quote s with
  | case1 => rfl
  | case2 s =>
      simp only [List.head?_cons, if_true, Text.stopAt_one, hquote]
  | case3 s hc =>
      simp only [List.head?_cons, if_neg hc, if_true, escaped_eq h, run_found_bind]
      cases Escape.escaped s with
      | none => simp only [Option.map_none, Option.some.injEq, if_neg hc]; rfl
      | some l => simp only [Option.map_some, Nat.add_comm 1]; rfl
  | case4 c s hc hslash hline =>
      simp only [List.head?_cons, if_neg hc, if_neg hslash, if_pos hline, Option.some.injEq]
  | case5 c s hc hslash hline =>
      simp only [List.head?_cons, if_neg hc, if_neg hslash, if_neg hline, Text.stopAt_one]
      rfl

theorem loop_quotedRound {quote : Char} (hquote : quote.utf8Size = 1) (value : Text)
    (h : StandsAt source s pos) : loop source (quotedRound source quote) value pos =
      .ok ((StringLiteral.quotedChars quote s).map fun l =>
        (String.ofList (value ++ l.value), s.stopAt pos l.length)) := by
  refine loop_eq (fun value s pos => (StringLiteral.quotedChars quote s).map fun l =>
    (String.ofList (value ++ l.value), s.stopAt pos l.length)) (fun value s pos h => ?_) value h
  rw [quotedRound_eq hquote value h, StringLiteral.quotedChars_eq]
  cases hu : StringLiteral.quotedChar quote s with
  | none =>
      refine .inl ?_
      by_cases hs : s.head? = some quote <;> simp [hs]
  | some u =>
      obtain ⟨hpos, hle⟩ := StringLiteral.advances_quotedChar quote s u.length
        (congrArg (Option.map Lexeme.length) hu)
      refine .inr ⟨_, u.length, hpos, hle, rfl, ?_⟩
      rw [Option.map_map]
      refine congrArg (Option.map · _) (funext fun l => ?_)
      rw [Function.comp_apply, List.append_assoc, Text.stopAt_add]

theorem utf8Size_of_isQuote (h : StringLiteral.isQuote c = true) : c.utf8Size = 1 := by
  rw [StringLiteral.isQuote, Bool.or_eq_true, beq_iff_eq, beq_iff_eq] at h
  rcases h with rfl | rfl <;> rfl

theorem stringLiteral_agrees :
    Agrees.Values source (stringLiteral source) StringLiteral.stringLiteral where
  there {s pos} h := by
    rw [stringLiteral, charAt?_eq h]
    fun_cases StringLiteral.stringLiteral s with
    | case1 => rfl
    | case2 c s hc =>
        have hsize := utf8Size_of_isQuote hc
        have hbody : StandsAt source s (pos + 1) := by simpa only [hsize] using h.tail
        rw [List.head?_cons, Option.filter_some, if_pos hc, found_bind_some,
          loop_quotedRound hsize [] hbody, Option.map_map]
        refine congrArg (found <| Option.map · _) (funext fun l => ?_)
        rw [Function.comp_apply, Text.stopAt_cons, hsize, List.nil_append]
    | case3 c s hc =>
        rw [List.head?_cons, Option.filter_some, if_neg hc]
        rfl
  elsewhere h := by rw [stringLiteral, charAt?_eq_none h]; rfl

theorem classChar_agrees : Agrees.Values source (classChar source) ClassBody.classChar where
  there {s pos} h := by
    rw [classChar, charAt?_eq h]
    fun_cases ClassBody.classChar s with
    | case1 => rfl
    | case2 s => rfl
    | case3 s hclose =>
        rw [List.head?_cons, found_bind_some, if_neg hclose, if_pos rfl, escaped_eq h,
          Option.map_map]
        rfl
    | case4 c s hclose hslash hline =>
        rw [List.head?_cons, found_bind_some, if_neg hclose, if_neg hslash, if_pos hline]
        rfl
    | case5 c s hclose hslash hline =>
        rw [List.head?_cons, found_bind_some, if_neg hclose, if_neg hslash, if_neg hline,
          Option.map_some, Text.stopAt_one]
        rfl
  elsewhere h := by rw [classChar, charAt?_eq_none h, found_bind_none]

/-- A range is read, or it is cut out when it is in the wrong order. -/
theorem classRange_eq (h : StandsAt source s pos) : classRange source pos =
    .ok (match ClassBody.classRange s with
      | some r =>
        if r.value.1 ≤ r.value.2 then .ok (some (r.value, s.stopAt pos r.length))
        else .error ⟨String.ofList (s.take r.length), ⟨pos, s.stopAt pos r.length⟩⟩
      | none => .ok none) := by
  rw [classRange, classChar_agrees.there h, run_found_bind]
  fun_cases ClassBody.classRange s with
  | case1 first n hfirst t hdash last m hlast =>
      have hrest : StandsAt source ('-' :: t) (s.stopAt pos n) := hdash ▸ h.stopAt n
      have hstop : Text.stopAt t (s.stopAt pos n + '-'.utf8Size) m = s.stopAt pos (n + 1 + m) := by
        rw [Nat.add_assoc, Text.stopAt_add s pos n, hdash, Nat.add_comm 1, Text.stopAt_cons]
      have hslice : slice source pos (s.stopAt pos (n + 1 + m)) = .ok (s.take (n + 1 + m)) :=
        slice_eq (s := s.drop (n + 1 + m)) (by rwa [List.take_append_drop])
      simp only [hfirst, Option.map_some, literalAt?_head hrest, classChar_agrees.there hrest.tail,
        run_found_bind, hlast, hstop, hslice]
      split
      next => rfl
      next => rfl
  | case2 first n hfirst t hdash hnot =>
      have hrest : StandsAt source ('-' :: t) (s.stopAt pos n) := hdash ▸ h.stopAt n
      simp only [hfirst, Option.map_some, literalAt?_head hrest, classChar_agrees.there hrest.tail,
        run_found_bind]
      rcases hlast : ClassBody.classChar t with _ | ⟨_ | last, m⟩
      · rfl
      · rfl
      · exact (hnot last m hlast).elim
  | case3 first n hfirst hnot =>
      simp only [hfirst, Option.map_some, literalAt?_of_ne (h.stopAt n) hnot]
      rfl
  | case4 hnot =>
      rcases hfirst : ClassBody.classChar s with _ | ⟨_ | first, n⟩
      · rfl
      · rfl
      · exact (hnot first n hfirst).elim

theorem classRound_eq (parts : List ClassPart) (h : StandsAt source s pos) :
    classRound source parts pos = .ok (match ClassBody.classPart s with
      | some u =>
        if u.value.all ClassPart.isOrdered then
          .again (parts ++ u.value.toList) (s.stopAt pos u.length)
        else .done (.error ⟨String.ofList (s.take u.length), ⟨pos, s.stopAt pos u.length⟩⟩)
      | none => .done (.ok (parts, pos))) := by
  rw [classRound, classRange_eq h, ClassBody.classPart]
  cases ClassBody.classRange s with
  | some r =>
      obtain ⟨⟨first, last⟩, n⟩ := r
      dsimp only
      by_cases hle : first ≤ last
      · simp only [Option.all_some, ClassPart.isOrdered, decide_eq_true hle, if_pos hle, if_true]
        rfl
      · simp only [Option.all_some, ClassPart.isOrdered, decide_eq_false hle, if_neg hle]
        rfl
  | none =>
      change ((classChar source pos).run >>= _) = _
      rw [classChar_agrees.there h, run_found_bind]
      rcases ClassBody.classChar s with _ | ⟨_ | c, n⟩ <;> rfl

/-- Where a range in the wrong order stands when the class begins at `pos`. -/
def invalidAt (pos : Nat) (e : DisorderedRange) : InvalidRange :=
  ⟨String.ofList e.text, ⟨pos + e.before.byteSize, pos + e.before.byteSize + e.text.byteSize⟩⟩

theorem invalidAt_append (pos : Nat) (t u v : Text) :
    invalidAt pos ⟨t ++ u, v⟩ = invalidAt (pos + t.byteSize) ⟨u, v⟩ := by
  simp only [invalidAt, Text.byteSize_append, Nat.add_assoc]

/-- What the parts of a class come to, after the parts that were read before. -/
def partsAt (parts : List ClassPart) (s : Text) (pos : Nat) :
    Except InvalidRange (List ClassPart × Nat) :=
  match ClassBody.classParts s with
  | .ok l => .ok (parts ++ l.value, s.stopAt pos l.length)
  | .error e => .error (invalidAt pos e)

theorem loop_classRound (parts : List ClassPart) (h : StandsAt source s pos) :
    loop source (classRound source) parts pos = .ok (partsAt parts s pos) := by
  refine loop_eq partsAt (fun parts s pos h => ?_) parts h
  rw [classRound_eq parts h, partsAt, ClassBody.classParts_eq]
  cases hu : ClassBody.classPart s with
  | none => exact .inl (by simp)
  | some u =>
      obtain ⟨hpos, hle⟩ := ClassBody.advances_classPart s u.length
        (congrArg (Option.map Lexeme.length) hu)
      by_cases hordered : u.value.all ClassPart.isOrdered
      · simp only [if_pos hordered]
        refine .inr ⟨_, u.length, hpos, hle, rfl, ?_⟩
        rw [partsAt]
        cases ClassBody.classParts (s.drop u.length) with
        | ok l => simp only [List.append_assoc, Text.stopAt_add]
        | error e => simp only [invalidAt_append, Text.stopAt]
      · simp only [if_neg hordered]
        exact .inl rfl

def classAt (s : Text) (pos : Nat) :
    Except DisorderedRange (Option (Lexeme ClassBody)) → Except InvalidRange (Option (ClassBody × Nat))
  | .ok l => .ok (l.map fun l => (l.value, s.stopAt pos l.length))
  | .error e => .error (invalidAt pos e)

theorem closedParts_eq (opening : Text) (inverted : Bool) (h : StandsAt source (opening ++ s) pos) :
    closedParts source inverted (pos + opening.byteSize) =
      .ok (classAt (opening ++ s) pos (ClassBody.closedParts opening inverted s)) := by
  have hbody := h.append
  rw [closedParts, loop_classRound [] hbody, partsAt, ClassBody.closedParts]
  cases ClassBody.classParts s with
  | error e => exact congrArg (Except.ok <| Except.error ·) (invalidAt_append pos opening _ _).symm
  | ok l =>
      have hclose := hbody.stopAt l.length
      dsimp only
      split
      next t ht =>
        rw [ht] at hclose
        have hstop : Text.stopAt (opening ++ s) pos (opening.length + l.length + 1) =
            s.stopAt (pos + opening.byteSize) l.length + ']'.utf8Size := by
          rw [Nat.add_assoc, Text.stopAt_add, Text.stopAt_length, List.drop_left', Text.stopAt_add, ht,
            Text.stopAt_one]
          rfl
        rw [classAt, Option.map_some, hstop]
        change Except.ok (Except.ok ((literalAt? source _ _).map _)) = _
        rw [literalAt?_head hclose]
        rfl
      next hnot =>
        change Except.ok (Except.ok ((literalAt? source _ _).map _)) = _
        rw [literalAt?_of_ne hclose hnot]
        rfl

theorem classBody_eq (h : StandsAt source s pos) :
    classBody source pos = .ok (classAt s pos (ClassBody.classBody s)) := by
  rw [classBody]
  fun_cases ClassBody.classBody s with
  | case1 t =>
      have hclosed := closedParts_eq ['[', '^'] true (s := t) h
      rw [literalAt?_head h]
      dsimp only
      rw [literalAt?_head h.tail]
      exact hclosed
  | case2 t hnot =>
      have hclosed := closedParts_eq ['['] false (s := t) h
      rw [literalAt?_head h]
      dsimp only
      rw [literalAt?_of_ne h.tail hnot]
      exact hclosed
  | case3 _ _ hnot =>
      rw [literalAt?_of_ne h hnot]
      rfl

theorem classBody_of_not_boundary (h : ¬ Boundary source pos) :
    classBody source pos = .ok (.ok none) := by
  rw [classBody, literalAt?_eq_none h]

end PegGrammar.Offsets
