import PegGrammar.Locator
import PegGrammar.Proofs.Locations

namespace PegGrammar

def StandsAt (source rest : Text) (n : Nat) : Prop :=
  ∃ before, source = before ++ rest ∧ n = before.byteSize

/-- The offset does not fall inside a character or beyond the end. -/
def Boundary (source : Text) (n : Nat) : Prop := ∃ rest, StandsAt source rest n

/-- A range between two characters of a document. -/
def Inside (source : Text) (r : ByteRange) : Prop := Boundary source r.start ∧ Boundary source r.stop

namespace StandsAt

variable {source rest t u : Text} {n m : Nat}

theorem start (source : Text) : StandsAt source source 0 := ⟨[], rfl, rfl⟩

theorem boundary (h : StandsAt source rest n) : Boundary source n := ⟨rest, h⟩

theorem append (h : StandsAt source (t ++ rest) n) : StandsAt source rest (n + t.byteSize) := by
  obtain ⟨before, hs, rfl⟩ := h
  exact ⟨before ++ t, by rw [hs, List.append_assoc], (Text.byteSize_append before t).symm⟩

theorem drop (h : StandsAt source rest n) (k : Nat) :
    StandsAt source (rest.drop k) (n + Text.byteSize (rest.take k)) :=
  append (by rwa [List.take_append_drop])

theorem le_byteSize (h : StandsAt source rest n) : n ≤ source.byteSize := by
  obtain ⟨before, rfl, rfl⟩ := h
  rw [Text.byteSize_append]
  exact Nat.le_add_right _ _

theorem dropBytes? (h : StandsAt source rest n) : source.dropBytes? n = some rest := by
  obtain ⟨before, rfl, rfl⟩ := h
  rw [Text.dropBytes?, Text.splitAtByte?_append]
  rfl

theorem eq_nil_of_byteSize_eq_zero (h : Text.byteSize t = 0) : t = [] := by
  cases t with
  | nil => rfl
  | cons c t =>
      have hpos := c.utf8Size_pos
      rw [Text.byteSize_cons] at h
      omega

theorem eq_nil_iff (h : StandsAt source rest n) :
    rest = [] ↔ n = source.byteSize := by
  obtain ⟨before, rfl, rfl⟩ := h
  rw [Text.byteSize_append]
  constructor
  · rintro rfl
    rfl
  · exact fun hsize => eq_nil_of_byteSize_eq_zero (by omega)

theorem exists_between (h : StandsAt source t n) (h' : StandsAt source u m) (hle : n ≤ m) :
    ∃ between, t = between ++ u ∧ Text.byteSize between = m - n := by
  obtain ⟨a, hs, rfl⟩ := h
  obtain ⟨b, hs', rfl⟩ := h'
  rcases List.append_eq_append_iff.1 (hs.symm.trans hs') with ⟨x, hb, ht⟩ | ⟨x, ha, hu⟩
  · refine ⟨x, ht, ?_⟩
    rw [hb, Text.byteSize_append]
    omega
  · rw [ha, Text.byteSize_append] at hle
    have hx : x = [] := eq_nil_of_byteSize_eq_zero (by omega)
    subst hx
    refine ⟨[], hu.symm, ?_⟩
    simp [ha]

end StandsAt

/-- The text from byte offset `a` up to, not including, `b`. -/
def Text.slice? (s : Text) (a b : Nat) : Option Text := do
  let t ← s.dropBytes? a
  let (u, _) ← t.splitAtByte? (b - a)
  return u

theorem Text.slice?_append {s t u x : Text} {a b : Nat} (h : x = s ++ (t ++ u))
    (ha : s.byteSize = a) (hb : a + t.byteSize = b) : x.slice? a b = some t := by
  subst h ha hb
  rw [slice?, dropBytes?, splitAtByte?_append, Nat.add_sub_cancel_left]
  change (do let (u, _) ← (t ++ u).splitAtByte? t.byteSize; return u) = _
  rw [splitAtByte?_append]
  rfl

namespace Scan

/-- A way through the document: the marks stand in it, one of them at its start. -/
structure Along (source : Text) (scan : Scan) : Prop where
  stands : StandsAt source scan.rest scan.position.offset
  marks : ∀ m ∈ scan.marks, StandsAt source m.rest m.position.offset
  start : ∃ m ∈ scan.marks, m.position.offset = 0

theorem Along.mark {source : Text} {scan : Scan} (h : scan.Along source) (m : Mark)
    (hm : StandsAt source m.rest m.position.offset) :
    Along source ⟨m.position, m :: scan.marks, m.rest⟩ := by
  obtain ⟨m₀, hmem, hzero⟩ := h.start
  refine ⟨hm, ?_, m₀, List.mem_cons_of_mem _ hmem, hzero⟩
  intro x hx
  rcases List.mem_cons.1 hx with rfl | hx
  · exact hm
  · exact h.marks x hx

def step : Scan → Scan
  | ⟨p, marks, []⟩ => ⟨p, marks, []⟩
  | ⟨p, marks, c :: s⟩ =>
    match Trivia.lineEnd (c :: s) with
    | some n =>
      let next : Position := ⟨p.offset + Text.byteSize ((c :: s).take n), p.line + 1, 1⟩
      ⟨next, ⟨next, s.drop (n - 1)⟩ :: marks, s.drop (n - 1)⟩
    | none =>
      let next : Position := ⟨p.offset + c.utf8Size, p.line, p.column + 1⟩
      ⟨next, if next.column % stride = 0 then ⟨next, s⟩ :: marks else marks, s⟩

theorem upTo_eq (target : Nat) (scan : Scan) : scan.upTo target =
    if scan.rest = [] ∨ target ≤ scan.position.offset then scan else scan.step.upTo target := by
  obtain ⟨p, marks, rest⟩ := scan
  cases rest with
  | nil => rw [if_pos (.inl rfl), upTo]
  | cons c s =>
      rw [upTo]
      by_cases hle : target ≤ p.offset
      · rw [if_pos hle, if_pos (.inr hle)]
      · rw [if_neg hle, if_neg (not_or.2 ⟨List.cons_ne_nil c s, hle⟩), step]
        cases Trivia.lineEnd (c :: s) <;> rfl

theorem Along.step {source : Text} {scan : Scan} (h : scan.Along source) :
    scan.step.Along source := by
  fun_cases Scan.step scan with
  | case1 => exact h
  | case2 p marks c s n hn next =>
      have hnext : StandsAt source (s.drop (n - 1)) next.offset := by
        cases n with
        | zero =>
            -- a line end takes at least one character
            simp only [Trivia.lineEnd] at hn
            split at hn <;> simp_all
        | succ n => exact h.stands.drop (n + 1)
      exact h.mark ⟨next, s.drop (n - 1)⟩ hnext
  | case3 p marks c s _ next =>
      have hnext : StandsAt source s next.offset := by simpa using h.stands.drop 1
      split
      · exact h.mark ⟨next, s⟩ hnext
      · exact ⟨hnext, h.marks, h.start⟩

theorem length_step_lt {scan : Scan} (h : scan.rest ≠ []) :
    scan.step.rest.length < scan.rest.length := by
  revert h
  fun_cases step scan with
  | case1 => exact fun h => absurd rfl h
  | case2 p marks c s n => exact fun _ => Nat.lt_succ_of_le (List.length_drop ▸ Nat.sub_le ..)
  | case3 p marks c s => exact fun _ => Nat.lt_succ_self _

theorem along_upTo {source : Text} {scan : Scan} (target : Nat) (h : scan.Along source) :
    (scan.upTo target).Along source := by
  rw [upTo_eq]
  split
  next => exact h
  next hnot =>
    have := length_step_lt (not_or.1 hnot).1
    exact along_upTo target h.step
termination_by scan.rest.length

end Scan

namespace Locator

/-- What a locator of the document knows at any time. -/
structure Knows (source : Text) (l : Locator) : Prop where
  size : l.size = source.byteSize
  scan : l.scan.Along source

theorem knows_ofText (source : Text) : (ofText source).Knows source :=
  ⟨rfl, .start source, by simp [ofText, StandsAt.start], by simp [ofText]⟩

theorem exists_locate {source : Text} {l : Locator} (h : l.Knows source) {n : Nat}
    (hn : Boundary source n) : ∃ p, l.locate n = some p ∧ p.offset = n := by
  obtain ⟨rest, hrest⟩ := hn
  obtain ⟨m₀, hmem, hzero⟩ := h.scan.start
  have hfind : (l.scan.marks.find? (·.position.offset ≤ n)).isSome := by
    rw [List.find?_isSome]
    exact ⟨m₀, hmem, by simp [hzero]⟩
  obtain ⟨m, hm⟩ := Option.isSome_iff_exists.1 hfind
  have hle : m.position.offset ≤ n := by simpa using List.find?_some hm
  have hstands := h.scan.marks m (List.mem_of_find?_eq_some hm)
  obtain ⟨between, hsplit, hsize⟩ := hstands.exists_between hrest hle
  have hcut := Text.splitAtByte?_eq_some_iff.2 ⟨hsplit, hsize⟩
  refine ⟨⟨n, m.position.line, m.position.column + between.length⟩, ?_, rfl⟩
  simp only [locate, hm, hcut, Option.bind_eq_bind, Option.bind_some, Option.pure_def]

theorem gives_position? {source : Text} {n : Nat} (hn : Boundary source n) :
    Gives (Knows source) (position? n) (·.offset = n) := by
  intro l hl
  obtain ⟨rest, hrest⟩ := hn
  have hmin : min n l.size = n := by
    rw [hl.size]
    exact Nat.min_eq_left hrest.le_byteSize
  have hknows : Knows source { l with scan := l.scan.upTo n } :=
    ⟨hl.size, Scan.along_upTo n hl.scan⟩
  obtain ⟨p, hp, hoffset⟩ := exists_locate hknows hrest.boundary
  refine ⟨p, { l with scan := l.scan.upTo n }, ?_, hoffset, hknows⟩
  change lookup l n = _
  simp only [lookup, hmin, hp]

theorem gives_span? {source : Text} (tag : SourceTag) {r : ByteRange} (hr : Inside source r) :
    Gives (Knows source) (span? tag r) (·.range = r) := by
  refine (gives_position? hr.1).bind fun p hp => (gives_position? hr.2).bind fun q hq => .pure ?_
  rw [Span.range, hp, hq]

end Locator

end PegGrammar
