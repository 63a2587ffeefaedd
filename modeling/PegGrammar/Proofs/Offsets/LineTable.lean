import PegGrammar.Proofs.Offsets.Trivia

namespace PegGrammar.Offsets

open Checked Text

/-- The starts of the lines before `scanned`, and the offset and the column that were asked for last. -/
structure LineTable where
  starts : List Nat := [0]
  scanned : Nat := 0
  lastOffset : Nat := 0
  lastColumn : Nat := 1
  deriving DecidableEq, Repr

namespace LineTable

variable (source : Text)

/-- Looks for a line end, one character after another, up to `target`. -/
def scanRound (target : Nat) (starts : List Nat) (pos : Nat) :
    Except Fault (Round (List Nat) (List Nat × Nat)) :=
  if pos < target then do
    let rest ← sliceFrom source pos
    match rest.head? with
    | none => return .done (starts, pos)
    | some c =>
      match ← (lineEnd source pos).run with
      | some next => return .again (starts ++ [next]) next
      | none => return .again starts (pos + c.utf8Size)
  else .ok (.done (starts, pos))

/-- The number of the line that an offset is in: that many lines start at or before it. -/
def lineOf (starts : List Nat) (offset : Nat) : Nat := (starts.takeWhile (· ≤ offset)).length

def startOf (starts : List Nat) (line : Nat) : Except Fault Nat :=
  match (if line = 0 then none else starts[line - 1]?) with
  | some start => .ok start
  | none => .error (.index line)

/-- The column of an offset on the line that starts at `start`. It is counted on from the last one if
that is earlier on the same line. -/
def column (t : LineTable) (start offset : Nat) : Except Fault Nat := do
  if start ≤ t.lastOffset ∧ t.lastOffset ≤ offset then
    let between ← slice source t.lastOffset offset
    return t.lastColumn + between.length
  else
    let before ← slice source start offset
    return before.length + 1

/-- The position of an offset; one beyond the end stands for the end. -/
def position (t : LineTable) (offset : Nat) : Except Fault (Position × LineTable) := do
  let offset := min offset source.byteSize
  let (starts, scanned) ← loop source (scanRound source offset) t.starts t.scanned
  let line := lineOf starts offset
  let start ← startOf starts line
  let column ← t.column source start offset
  return (⟨offset, line, column⟩, ⟨starts, scanned, offset, column⟩)

def span (t : LineTable) (tag : SourceTag) (range : ByteRange) :
    Except Fault (Span × LineTable) := do
  let (start, t) ← t.position source range.start
  let (stop, t) ← t.position source range.stop
  return (⟨tag, start, stop⟩, t)

variable {source}

/-- The starts of all lines that begin up to an offset. -/
structure Starts (source : Text) (starts : List Nat) (scanned : Nat) : Prop where
  front : ∃ rest column, Position.Exact source rest ⟨scanned, starts.length, column⟩
  each : ∀ i start, starts[i]? = some start → ∃ rest, Position.Exact source rest ⟨start, i + 1, 1⟩
  first : ∃ others, starts = 0 :: others
  passed : ∀ e ∈ lineEnds 0 source, e ≤ scanned → e ∈ starts
  behind : ∀ start ∈ starts, start ≤ scanned
  sorted : starts.Pairwise (· < ·)

/-- What a table of the document holds at any time. -/
structure Exact (source : Text) (t : LineTable) : Prop where
  starts : Starts source t.starts t.scanned
  boundary : Boundary source t.lastOffset
  last : ∃ line, source.positionAt t.lastOffset = some ⟨t.lastOffset, line, t.lastColumn⟩

namespace Starts

variable {s : Text} {starts : List Nat} {pos offset i start : Nat}

theorem new (source : Text) : Starts source [0] 0 where
  front := ⟨source, 1, .start source⟩
  each i start hi := by
    obtain ⟨hlt, rfl⟩ := List.getElem?_eq_some_iff.1 hi
    obtain rfl : i = 0 := Nat.lt_one_iff.1 hlt
    exact ⟨source, .start source⟩
  first := ⟨[], rfl⟩
  passed e he hle := (Nat.not_le_of_lt (lt_of_mem_lineEnds he) hle).elim
  behind start hstart := (List.mem_singleton.1 hstart).le
  sorted := List.pairwise_singleton _ 0

theorem front_of_stands (h : Starts source starts pos) (hs : StandsAt source s pos) :
    ∃ column, Position.Exact source s ⟨pos, starts.length, column⟩ := by
  obtain ⟨rest, column, hp⟩ := h.front
  have hrest := hp.standsAt.dropBytes?
  rw [hs.dropBytes?] at hrest
  exact ⟨column, Option.some.inj hrest ▸ hp⟩

theorem lineEnd {k : Nat} (h : Starts source starts pos) (hs : StandsAt source s pos)
    (hk : Trivia.lineEnd s = some k) :
    Starts source (starts ++ [s.stopAt pos k]) (s.stopAt pos k) := by
  obtain ⟨column, hp⟩ := h.front_of_stands hs
  obtain ⟨hpos, hle⟩ := Trivia.advances_lineEnd s k hk
  have hlt := (hs.lt_stopAt hpos hle).1
  have hnext : Position.Exact source (s.drop k) ⟨s.stopAt pos k, starts.length + 1, 1⟩ :=
    hp.lineEnd hk
  constructor
  case front => exact ⟨_, 1, by rwa [List.length_append]⟩
  case each =>
    intro i start hi
    rw [List.getElem?_append] at hi
    split at hi
    next => exact h.each i start hi
    next hge =>
      obtain ⟨hzero, rfl⟩ := List.getElem?_eq_some_iff.1 hi
      rw [List.length_singleton, Nat.lt_one_iff] at hzero
      obtain rfl : i = starts.length := by omega
      simp only [hzero, List.getElem_singleton]
      exact ⟨_, hnext⟩
  case first =>
    obtain ⟨others, rfl⟩ := h.first
    exact ⟨_, rfl⟩
  case passed =>
    intro e he hle
    rcases hp.behind_or_ahead he with hbehind | hahead
    · exact List.mem_append_left _ (h.passed e he hbehind)
    · rw [(lineEnds_of_lineEnd hk _).2] at hahead
      rcases List.mem_cons.1 hahead with rfl | hahead
      · exact List.mem_append_right _ (List.mem_singleton.2 rfl)
      · exact absurd hle (Nat.not_le_of_lt (lt_of_mem_lineEnds hahead))
  case behind =>
    intro start hstart
    rcases List.mem_append.1 hstart with hold | hnew
    · exact (h.behind start hold).trans hlt.le
    · exact (List.mem_singleton.1 hnew).le
  case sorted =>
    refine List.pairwise_append.2 ⟨h.sorted, List.pairwise_singleton _ _, fun start hold n hn => ?_⟩
    rw [List.mem_singleton.1 hn]
    exact (h.behind start hold).trans_lt hlt

theorem char {c : Char} (h : Starts source starts pos) (hs : StandsAt source (c :: s) pos)
    (hc : Trivia.lineEnd (c :: s) = none) : Starts source starts (pos + c.utf8Size) := by
  obtain ⟨column, hp⟩ := h.front_of_stands hs
  refine ⟨⟨s, _, hp.char hc⟩, h.each, h.first, fun e he hle => ?_, fun start hstart => ?_, h.sorted⟩
  · rcases hp.behind_or_ahead he with hbehind | hahead
    · exact h.passed e he hbehind
    · rw [lineEnds_of_not_lineEnd hc] at hahead
      exact absurd hle (Nat.not_le_of_lt (lt_of_mem_lineEnds hahead))
  · exact (h.behind start hstart).trans (Nat.le_add_right _ _)

theorem scan {target : Nat} (h : Starts source starts pos) (htarget : target ≤ source.byteSize) :
    ∃ r, loop source (scanRound source target) starts pos = .ok r ∧
      Starts source r.1 r.2 ∧ target ≤ r.2 := by
  refine loop_spec (I := Starts source) (P := fun r : List Nat × Nat => Starts source r.1 r.2 ∧ target ≤ r.2)
    (fun starts pos h => ?_) starts pos h
  obtain ⟨s, column, hp⟩ := h.front
  have hs : StandsAt source s pos := hp.standsAt
  rw [scanRound]
  split
  next hlt =>
    rw [sliceFrom_eq hs, lineEnd_agrees.there hs]
    cases s with
    | nil =>
        have hend := hs.eq_nil_iff.1 rfl
        exact (Nat.not_lt_of_le htarget (hend ▸ hlt)).elim
    | cons c s =>
        cases hk : Trivia.lineEnd (c :: s) with
        | some k =>
            obtain ⟨hpos, hle⟩ := Trivia.advances_lineEnd _ k hk
            exact .inr ⟨_, _, rfl, hs.lt_stopAt hpos hle, h.lineEnd hs hk⟩
        | none =>
            have hnext := hs.lt_stopAt Nat.one_pos (Nat.le_add_left 1 s.length)
            rw [stopAt_one] at hnext
            exact .inr ⟨_, _, rfl, hnext, h.char hs hk⟩
  next hge => exact .inl ⟨_, rfl, h, Nat.le_of_not_lt hge⟩

theorem mem_takeWhile {e : Nat} : ∀ {starts : List Nat}, starts.Pairwise (· < ·) → e ∈ starts →
    e ≤ offset → e ∈ starts.takeWhile (· ≤ offset)
  | start :: starts, hsorted, he, hle => by
      obtain ⟨hfirst, hrest⟩ := List.pairwise_cons.1 hsorted
      rcases List.mem_cons.1 he with rfl | he
      · rw [List.takeWhile_cons, if_pos (decide_eq_true hle)]
        exact List.mem_cons_self
      · have hstart : start ≤ offset := (hfirst e he).le.trans hle
        rw [List.takeWhile_cons, if_pos (decide_eq_true hstart)]
        exact List.mem_cons_of_mem start (mem_takeWhile hrest he hle)

/-- Among the lines, the one of an offset is the last that starts at or before it. -/
theorem exists_line (h : Starts source starts pos) (offset : Nat) :
    ∃ i start, lineOf starts offset = i + 1 ∧ startOf starts (i + 1) = .ok start ∧
      starts[i]? = some start ∧ start ≤ offset ∧ ∀ e ∈ starts, e ≤ offset → e ≤ start := by
  obtain ⟨init, start, hinit⟩ : ∃ init start, starts.takeWhile (· ≤ offset) = init ++ [start] := by
    obtain ⟨others, rfl⟩ := h.first
    rcases List.eq_nil_or_concat (List.takeWhile (· ≤ offset) (0 :: others)) with hnil | hconcat
    · simp at hnil
    · simpa only [List.concat_eq_append] using hconcat
  obtain ⟨later, hlater⟩ := List.takeWhile_prefix (l := starts) (· ≤ offset)
  have hsplit : starts = init ++ start :: later := by
    rw [← hlater, hinit, List.append_assoc, List.singleton_append]
  have hget : starts[init.length]? = some start := by rw [hsplit]; simp
  have hle : start ≤ offset := by
    have hmem : start ∈ starts.takeWhile (· ≤ offset) := by rw [hinit]; simp
    simpa using List.mem_takeWhile_imp hmem
  refine ⟨init.length, start, by rw [lineOf, hinit]; simp, ?_, hget, hle, fun e he heo => ?_⟩
  · simp only [startOf, Nat.succ_ne_zero, if_false, Nat.add_sub_cancel, hget]
  · have hmem := mem_takeWhile h.sorted he heo
    rw [hinit] at hmem
    rcases List.mem_append.1 hmem with hmem | hmem
    · rw [hsplit] at h
      exact ((List.pairwise_append.1 h.sorted).2.2 e hmem start List.mem_cons_self).le
    · exact (List.mem_singleton.1 hmem).le

theorem positionAt (h : Starts source starts pos) (hi : starts[i]? = some start)
    (hreached : offset ≤ pos) (hlatest : ∀ e ∈ starts, e ≤ offset → e ≤ start) {n : Nat}
    (hstart : start ≤ n) (hn : n ≤ offset) (hs : StandsAt source s n) :
    ∃ t : Text, source.positionAt n = some ⟨n, i + 1, 1 + t.length⟩ ∧
      StandsAt source (t ++ s) start ∧ start + t.byteSize = n := by
  obtain ⟨rest, hp⟩ := h.each i start hi
  obtain ⟨t, rfl, hsize⟩ := hp.standsAt.exists_between hs hstart
  have hsum : start + t.byteSize = n := by
    dsimp only at hsize
    omega
  have hposition := hp.positionAt fun e he hle =>
    hlatest e (h.passed e he (by dsimp only at hle; omega)) (by dsimp only at hle; omega)
  dsimp only at hposition
  rw [hsum] at hposition
  exact ⟨t, hposition, hp.standsAt, hsum⟩

end Starts

theorem exact_new (source : Text) : Exact source {} where
  starts := .new source
  boundary := (StandsAt.start source).boundary
  last := by
    have hposition := (Position.Exact.start source).positionAt (t := [])
      fun e he hle => (Nat.not_le_of_lt (lt_of_mem_lineEnds he) hle).elim
    exact ⟨1, hposition⟩

/-- At an offset between characters, there is no fault, and the position is the one that the text
gives. -/
theorem position_eq {t : LineTable} {offset : Nat} (h : t.Exact source)
    (hoffset : Boundary source offset) : ∃ p t', source.positionAt offset = some p ∧
      t.position source offset = .ok (p, t') ∧ t'.Exact source := by
  obtain ⟨s, hs⟩ := hoffset
  have hmin : min offset source.byteSize = offset := Nat.min_eq_left hs.le_byteSize
  obtain ⟨⟨starts, scanned⟩, hscan, hstarts, hreached⟩ := h.starts.scan hs.le_byteSize
  obtain ⟨i, start, hline, hstart, hi, hle, hlatest⟩ := hstarts.exists_line offset
  obtain ⟨u, hposition, hstands, hsum⟩ :=
    hstarts.positionAt hi hreached hlatest hle (Nat.le_refl _) hs
  have hcolumn : t.column source start offset = .ok (1 + u.length) := by
    rw [column]
    split
    next hlast =>
      obtain ⟨r, hr⟩ := h.boundary
      obtain ⟨line, hposition'⟩ := h.last
      obtain ⟨v, hv, hstands', -⟩ :=
        hstarts.positionAt hi hreached hlatest hlast.1 hlast.2 hr
      obtain ⟨between, rfl, hsize⟩ := hr.exists_between hs hlast.2
      obtain rfl : u = v ++ between := by
        have hrest := hstands.dropBytes?
        rw [hstands'.dropBytes?, ← List.append_assoc] at hrest
        exact (List.append_cancel_right (Option.some.inj hrest)).symm
      have hslice := slice_eq hr
      rw [hsize, Nat.add_sub_cancel' hlast.2] at hslice
      have hcount : t.lastColumn = 1 + v.length :=
        congrArg Position.column (Option.some.inj (hposition'.symm.trans hv))
      rw [hslice, List.length_append, ← Nat.add_assoc, ← hcount]
      rfl
    next =>
      have hslice := slice_eq hstands
      rw [hsum] at hslice
      rw [hslice, Nat.add_comm]
      rfl
  refine ⟨_, ⟨starts, scanned, offset, 1 + u.length⟩, hposition, ?_, hstarts, hs.boundary, _, hposition⟩
  rw [position, hmin, hscan]
  dsimp only at hline hstart
  simp only [bind, Except.bind, hline, hstart, hcolumn]
  rfl

theorem span_eq {t : LineTable} {r : ByteRange} (tag : SourceTag) (h : t.Exact source)
    (hr : Inside source r) : ∃ p q t', source.positionAt r.start = some p ∧
      source.positionAt r.stop = some q ∧ t.span source tag r = .ok (⟨tag, p, q⟩, t') ∧
      t'.Exact source := by
  obtain ⟨p, t₁, hp, hrun, h₁⟩ := position_eq h hr.1
  obtain ⟨q, t₂, hq, hrun', h₂⟩ := position_eq h₁ hr.2
  refine ⟨p, q, t₂, hp, hq, ?_, h₂⟩
  rw [span, hrun]
  simp only [bind, Except.bind, hrun']
  rfl

end LineTable

end PegGrammar.Offsets
