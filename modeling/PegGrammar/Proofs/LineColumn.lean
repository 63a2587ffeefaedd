import PegGrammar.Proofs.Boundary
import PegGrammar.Proofs.Recognition.Trivia

namespace PegGrammar

namespace Text

/-- The offsets at which the line ends of a text end when it stands at `n`. -/
def lineEnds : Nat → Text → List Nat
  | n, '\r' :: '\n' :: s => (n + 2) :: lineEnds (n + 2) s
  | n, c :: s =>
    if isLineTerminator c then (n + c.utf8Size) :: lineEnds (n + c.utf8Size) s
    else lineEnds (n + c.utf8Size) s
  | _, [] => []

def lineEndsUpTo (source : Text) (offset : Nat) : List Nat :=
  (source.lineEnds 0).filter (· ≤ offset)

/-- The position of an offset, counted from the start of the text. -/
def positionAt (source : Text) (offset : Nat) : Option Position := do
  let offset := min offset (byteSize source)
  let ends := lineEndsUpTo source offset
  let (before, _) ← splitAtByte? source offset
  let (_, line) ← splitAtByte? before (ends.getLast?.getD 0)
  return ⟨offset, 1 + ends.length, 1 + line.length⟩

theorem lineEnds_of_lineEnd {s : Text} {k : Nat} (h : Trivia.lineEnd s = some k) (n : Nat) :
    0 < k ∧ lineEnds n s =
      (n + byteSize (s.take k)) :: lineEnds (n + byteSize (s.take k)) (s.drop k) := by
  revert h
  fun_cases Trivia.lineEnd s with
  | case1 t => rintro ⟨⟩; exact ⟨Nat.two_pos, rfl⟩
  | case2 c t hcr hc =>
      rintro ⟨⟩
      refine ⟨Nat.one_pos, ?_⟩
      rw [lineEnds, if_pos hc]
      · simp
      · exact hcr
  | case3 | case4 => rintro ⟨⟩

theorem lineEnds_of_not_lineEnd {c : Char} {s : Text} (h : Trivia.lineEnd (c :: s) = none)
    (n : Nat) : lineEnds n (c :: s) = lineEnds (n + c.utf8Size) s := by
  have hcr : ∀ t, c = '\r' → s = '\n' :: t → False := by
    rintro t rfl rfl
    cases h
  have hc : isLineTerminator c = false := by
    rw [Trivia.lineEnd] at h
    · simpa using h
    · exact hcr
  rw [lineEnds, if_neg (by simp [hc])]
  exact hcr

theorem lt_of_mem_lineEnds {n e : Nat} {s : Text} (h : e ∈ lineEnds n s) : n < e := by
  fun_induction lineEnds n s with
  | case1 n s ih =>
      rcases List.mem_cons.1 h with rfl | h
      · omega
      · have := ih h
        omega
  | case2 n c s hcr hc ih =>
      have hpos := c.utf8Size_pos
      rcases List.mem_cons.1 h with rfl | h
      · omega
      · have := ih h
        omega
  | case3 n c s hcr hc ih =>
      have hpos := c.utf8Size_pos
      have := ih h
      omega
  | case4 => cases h

end Text

open Text

/-- The position of the text `rest` at the end of the document. No line end begins before that text
and ends in it. -/
structure Position.Exact (source rest : Text) (p : Position) : Prop where
  counted : ∃ before line ends, source = before ++ (line ++ rest) ∧
    byteSize before = ends.getLast?.getD 0 ∧
    p = ⟨byteSize before + byteSize line, 1 + ends.length, 1 + line.length⟩ ∧
    lineEnds 0 source = ends ++ lineEnds p.offset rest ∧ ∀ e ∈ ends, e ≤ p.offset

namespace Position.Exact

variable {source rest s t : Text} {c : Char} {p : Position} {k : Nat}

theorem start (source : Text) : Exact source source {} :=
  ⟨[], [], [], rfl, rfl, rfl, rfl, by simp⟩

theorem standsAt (h : Exact source rest p) : StandsAt source rest p.offset := by
  obtain ⟨before, line, ends, hs, -, rfl, -⟩ := h.counted
  exact ⟨before ++ line, by rw [hs, List.append_assoc], (byteSize_append _ _).symm⟩

theorem lineEnd (h : Exact source s p) (hk : Trivia.lineEnd s = some k) :
    Exact source (s.drop k) ⟨p.offset + byteSize (s.take k), p.line + 1, 1⟩ := by
  obtain ⟨before, line, ends, hs, hbefore, rfl, hends, hle⟩ := h.counted
  rw [(lineEnds_of_lineEnd hk _).2] at hends
  refine ⟨before ++ (line ++ s.take k), [],
    ends ++ [byteSize before + byteSize line + byteSize (s.take k)], ?_, ?_, ?_, ?_, ?_⟩
  · simpa using hs
  · simp [Nat.add_assoc]
  · simp [Nat.add_assoc]
  · simpa using hends
  · intro e he
    rcases List.mem_append.1 he with he | he
    · exact Nat.le_trans (hle e he) (Nat.le_add_right _ _)
    · exact Nat.le_of_eq (List.mem_singleton.1 he)

theorem char (h : Exact source (c :: s) p) (hc : Trivia.lineEnd (c :: s) = none) :
    Exact source s ⟨p.offset + c.utf8Size, p.line, p.column + 1⟩ := by
  obtain ⟨before, line, ends, hs, hbefore, rfl, hends, hle⟩ := h.counted
  rw [lineEnds_of_not_lineEnd hc] at hends
  refine ⟨before, line ++ [c], ends, by simpa using hs, hbefore, ?_, hends, ?_⟩
  · simp [Nat.add_assoc]
  · exact fun e he => Nat.le_trans (hle e he) (Nat.le_add_right _ _)

theorem behind_or_ahead (h : Exact source rest p) {e : Nat} (he : e ∈ lineEnds 0 source) :
    e ≤ p.offset ∨ e ∈ lineEnds p.offset rest := by
  obtain ⟨before, line, ends, -, -, -, hends, hle⟩ := h.counted
  rw [hends] at he
  rcases List.mem_append.1 he with he | he
  · exact .inl (hle e he)
  · exact .inr he

theorem positionAt (h : Exact source (t ++ rest) p)
    (hline : ∀ e ∈ lineEnds 0 source, e ≤ p.offset + byteSize t → e ≤ p.offset) :
    source.positionAt (p.offset + byteSize t) =
      some ⟨p.offset + byteSize t, p.line, p.column + t.length⟩ := by
  obtain ⟨before, line, ends, hs, hbefore, rfl, hends, hle⟩ := h.counted
  dsimp only at hline hends hle ⊢
  have hmin : min (byteSize before + byteSize line + byteSize t) (byteSize source) =
      byteSize before + byteSize line + byteSize t := by
    refine Nat.min_eq_left ?_
    rw [hs]
    simp only [byteSize_append]
    omega
  have hpassed : lineEndsUpTo source (byteSize before + byteSize line + byteSize t) = ends := by
    have hlater : (lineEnds (byteSize before + byteSize line) (t ++ rest)).filter
        (· ≤ byteSize before + byteSize line + byteSize t) = [] := by
      refine List.filter_eq_nil_iff.2 fun e he hle => ?_
      have hlt := lt_of_mem_lineEnds he
      have hmem : e ∈ lineEnds 0 source := by
        rw [hends]
        exact List.mem_append_right _ he
      exact absurd (hline e hmem (by simpa using hle)) (by omega)
    rw [lineEndsUpTo, hends, List.filter_append, hlater, List.append_nil]
    refine List.filter_eq_self.2 fun e he => ?_
    have := hle e he
    simp only [decide_eq_true_eq]
    omega
  have hcut : splitAtByte? source (byteSize before + byteSize line + byteSize t) =
      some (before ++ (line ++ t), rest) :=
    splitAtByte?_eq_some_iff.2 ⟨by rw [hs]; simp, by simp [Nat.add_assoc]⟩
  have hlast : splitAtByte? (before ++ (line ++ t)) (ends.getLast?.getD 0) =
      some (before, line ++ t) := splitAtByte?_eq_some_iff.2 ⟨rfl, hbefore⟩
  rw [Text.positionAt, hmin, hpassed, hcut]
  simp only [Option.bind_eq_bind, Option.bind_some, hlast, List.length_append, Nat.add_assoc,
    Option.pure_def]

end Position.Exact

namespace Scan

/-- A way through the document on which everything is exact. The latest mark comes first, and there
is one at every line end that was passed. -/
structure Exact (source : Text) (scan : Scan) : Prop where
  front : scan.position.Exact source scan.rest
  marks : ∀ m ∈ scan.marks, m.position.Exact source m.rest
  start : ∃ m ∈ scan.marks, m.position.offset = 0
  passed : ∀ e ∈ lineEnds 0 source, e ≤ scan.position.offset →
    ∃ m ∈ scan.marks, m.position.offset = e
  sorted : scan.marks.Pairwise fun m m' => m'.position.offset ≤ m.position.offset
  behind : ∀ m ∈ scan.marks, m.position.offset ≤ scan.position.offset

section

variable {source rest : Text} {scan : Scan} {p : Position}

theorem Exact.forward (h : scan.Exact source) (hp : p.Exact source rest)
    (hle : scan.position.offset ≤ p.offset)
    (hpassed : ∀ e ∈ lineEnds 0 source, e ≤ p.offset → e ≤ scan.position.offset) :
    Exact source ⟨p, scan.marks, rest⟩ where
  front := hp
  marks := h.marks
  start := h.start
  passed e he hep := h.passed e he (hpassed e he hep)
  sorted := h.sorted
  behind m hm := Nat.le_trans (h.behind m hm) hle

theorem Exact.mark (h : scan.Exact source) (hp : p.Exact source rest)
    (hle : scan.position.offset ≤ p.offset)
    (hpassed : ∀ e ∈ lineEnds 0 source, e ≤ p.offset → e ≤ scan.position.offset ∨ e = p.offset) :
    Exact source ⟨p, ⟨p, rest⟩ :: scan.marks, rest⟩ := by
  obtain ⟨m₀, hmem, hzero⟩ := h.start
  have hbehind : ∀ m ∈ scan.marks, m.position.offset ≤ p.offset :=
    fun m hm => Nat.le_trans (h.behind m hm) hle
  refine ⟨hp, ?_, ⟨m₀, List.mem_cons_of_mem _ hmem, hzero⟩, ?_, ?_, ?_⟩
  · simpa using ⟨hp, h.marks⟩
  · intro e he hep
    rcases hpassed e he hep with hold | rfl
    · obtain ⟨m, hm, hme⟩ := h.passed e he hold
      exact ⟨m, List.mem_cons_of_mem _ hm, hme⟩
    · exact ⟨_, List.mem_cons_self, rfl⟩
  · exact List.pairwise_cons.2 ⟨hbehind, h.sorted⟩
  · simpa using hbehind

theorem exact_upTo (target : Nat) (h : scan.Exact source) :
    (scan.upTo target).Exact source ∧
      (target ≤ (scan.upTo target).position.offset ∨ (scan.upTo target).rest = []) := by
  fun_induction upTo target scan with
  | case1 => exact ⟨h, .inr rfl⟩
  | case2 p marks c s hle => exact ⟨h, .inl hle⟩
  | case3 p marks c s _ n hn next rest ih =>
      obtain ⟨k, rfl⟩ : ∃ k, n = k + 1 := ⟨n - 1, by have := (lineEnds_of_lineEnd hn 0).1; omega⟩
      have hnext : next.Exact source rest := h.front.lineEnd hn
      refine ih (h.mark hnext (Nat.le_add_right _ _) fun e he hle => ?_)
      rcases h.front.behind_or_ahead he with hbehind | hahead
      · exact .inl hbehind
      · rw [(lineEnds_of_lineEnd hn _).2] at hahead
        rcases List.mem_cons.1 hahead with rfl | hahead
        · exact .inr rfl
        · exact absurd hle (Nat.not_le_of_lt (lt_of_mem_lineEnds hahead))
  | case4 p marks c s _ hn next ih =>
      have hnext : next.Exact source s := h.front.char hn
      have hpassed : ∀ e ∈ lineEnds 0 source, e ≤ next.offset → e ≤ p.offset := by
        intro e he hle
        rcases h.front.behind_or_ahead he with hbehind | hahead
        · exact hbehind
        · rw [lineEnds_of_not_lineEnd hn] at hahead
          exact absurd hle (Nat.not_le_of_lt (lt_of_mem_lineEnds hahead))
      apply ih
      split
      · exact h.mark hnext (Nat.le_add_right _ _) fun e he hle => .inl (hpassed e he hle)
      · exact h.forward hnext (Nat.le_add_right _ _) hpassed

end

end Scan

theorem boundary_iff {source : Text} {n : Nat} :
    Boundary source n ↔ ∃ a b, splitAtByte? source n = some (a, b) := by
  constructor
  · rintro ⟨b, a, hs, hn⟩
    exact ⟨a, b, splitAtByte?_eq_some_iff.2 ⟨hs, hn.symm⟩⟩
  · rintro ⟨a, b, h⟩
    obtain ⟨hs, hn⟩ := splitAtByte?_eq_some_iff.1 h
    exact ⟨b, a, hs, hn.symm⟩

namespace Locator

structure Exact (source : Text) (l : Locator) : Prop where
  size : l.size = byteSize source
  scan : l.scan.Exact source

theorem exact_ofText (source : Text) : (ofText source).Exact source where
  size := rfl
  scan := by
    refine ⟨.start source, ?_, ⟨_, List.mem_cons_self, rfl⟩, ?_, ?_, ?_⟩
    · simpa [ofText] using Position.Exact.start source
    · exact fun e he hle => absurd hle (Nat.not_le_of_lt (lt_of_mem_lineEnds he))
    · simp [ofText]
    · simp [ofText]

theorem find?_latest {source : Text} {l : Locator} (h : l.Exact source) (n : Nat) :
    ∃ m ∈ l.scan.marks, l.scan.marks.find? (·.position.offset ≤ n) = some m ∧
      m.position.offset ≤ n ∧
      ∀ m' ∈ l.scan.marks, m'.position.offset ≤ n → m'.position.offset ≤ m.position.offset := by
  obtain ⟨m₀, hmem, hzero⟩ := h.scan.start
  have hfind : (l.scan.marks.find? (·.position.offset ≤ n)).isSome := by
    rw [List.find?_isSome]
    exact ⟨m₀, hmem, by simp [hzero]⟩
  obtain ⟨m, hm⟩ := Option.isSome_iff_exists.1 hfind
  obtain ⟨hle, later, earlier, hmarks, hlater⟩ := List.find?_eq_some_iff_append.1 hm
  refine ⟨m, List.mem_of_find?_eq_some hm, hm, by simpa using hle, fun m' hm' hle' => ?_⟩
  have hsorted := h.scan.sorted
  rw [hmarks] at hm' hsorted
  rcases List.mem_append.1 hm' with hm' | hm'
  · have hnot := hlater m' hm'
    simp [hle'] at hnot
  · rcases List.mem_cons.1 hm' with rfl | hm'
    · exact Nat.le_refl _
    · exact (List.pairwise_cons.1 (List.pairwise_append.1 hsorted).2.1).1 m' hm'

/-- On an offset that the scan has reached, a locator knows all there is to know. -/
theorem locate_eq {source : Text} {l : Locator} {n : Nat} (h : l.Exact source)
    (hn : n ≤ byteSize source) (hscan : n ≤ l.scan.position.offset ∨ l.scan.rest = []) :
    l.locate n = source.positionAt n := by
  have hreached : n ≤ l.scan.position.offset := by
    rcases hscan with hle | hrest
    · exact hle
    · obtain ⟨before, hs, hoffset⟩ := h.scan.front.standsAt
      rw [hrest, List.append_nil] at hs
      rwa [hoffset, ← hs]
  obtain ⟨m, hmem, hfind, hle, hlatest⟩ := find?_latest h n
  have hm := h.scan.marks m hmem
  cases hcut : splitAtByte? m.rest (n - m.position.offset) with
  | none =>
      have hnone : splitAtByte? source n = none := by
        refine Option.eq_none_iff_forall_ne_some.2 fun ⟨a, b⟩ hab => ?_
        obtain ⟨hs, hsize⟩ := splitAtByte?_eq_some_iff.1 hab
        obtain ⟨t, hrest, ht⟩ := hm.standsAt.exists_between ⟨a, hs, hsize.symm⟩ hle
        rw [splitAtByte?_eq_some_iff.2 ⟨hrest, ht⟩] at hcut
        cases hcut
      have hmin : min n (byteSize source) = n := Nat.min_eq_left hn
      simp [locate, hfind, hcut, positionAt, hmin, hnone]
  | some cut =>
      obtain ⟨t, rest⟩ := cut
      obtain ⟨hrest, ht⟩ := splitAtByte?_eq_some_iff.1 hcut
      have hoffset : m.position.offset + byteSize t = n := by omega
      rw [hrest] at hm
      have hposition := hm.positionAt fun e he hle => by
        obtain ⟨m', hm', rfl⟩ := h.scan.passed e he (by omega)
        exact hlatest m' hm' (by omega)
      rw [hoffset] at hposition
      simp [locate, hfind, hcut, hposition]

theorem Exact.knows {source : Text} {l : Locator} (h : l.Exact source) : l.Knows source where
  size := h.size
  scan := ⟨h.scan.front.standsAt, fun m hm => (h.scan.marks m hm).standsAt, h.scan.start⟩

theorem positionAt_min (source : Text) (n : Nat) :
    source.positionAt (min n (byteSize source)) = source.positionAt n := by
  rw [positionAt, positionAt, Nat.min_assoc, Nat.min_self]

theorem lookup_eq {source : Text} {l : Locator} (h : l.Exact source) (n : Nat) :
    (l.lookup n).1 = source.positionAt n ∧ (l.lookup n).2.Exact source := by
  have hscan := Scan.exact_upTo (min n l.size) h.scan
  have hexact : Exact source { l with scan := l.scan.upTo (min n l.size) } := ⟨h.size, hscan.1⟩
  have hle : min n l.size ≤ byteSize source := by
    rw [h.size]
    exact Nat.min_le_right _ _
  refine ⟨(locate_eq hexact hle hscan.2).trans ?_, hexact⟩
  rw [h.size, positionAt_min]

/-- Only an offset inside a character has no position. -/
theorem positionAt_eq_none_iff {source : Text} {n : Nat} :
    source.positionAt n = none ↔ ¬ Boundary source (min n (byteSize source)) := by
  constructor
  · intro hnone hboundary
    obtain ⟨hfound, hexact⟩ := lookup_eq (exact_ofText source) n
    obtain ⟨p, hp, -⟩ := exists_locate hexact.knows hboundary
    rw [hnone] at hfound
    exact absurd (hp.symm.trans hfound) nofun
  · intro hnot
    cases hcut : splitAtByte? source (min n (byteSize source)) with
    | none => simp [positionAt, hcut]
    | some cut => exact (hnot (boundary_iff.2 ⟨_, _, hcut⟩)).elim

end Locator

inductive Request where
  | position (offset : Nat)
  | span (range : ByteRange)
  deriving DecidableEq, Repr

inductive Answer where
  | position (p : Position)
  | span (s : Span)
  deriving DecidableEq, Repr

namespace Request

def offsets : Request → List Nat
  | .position n => [n]
  | .span r => [r.start, r.stop]

/-- Asks a locator, which remembers what it has seen even if it has no answer. -/
def ask (tag : SourceTag) : Request → StateM Locator (Option Answer)
  | .position n => (return .position (← Locator.position? n) : OptionT (StateM Locator) Answer).run
  | .span r => (return .span (← Locator.span? tag r) : OptionT (StateM Locator) Answer).run

def answer (source : Text) (tag : SourceTag) : Request → Option Answer
  | .position n => return .position (← source.positionAt n)
  | .span r => return .span ⟨tag, ← source.positionAt r.start, ← source.positionAt r.stop⟩

theorem answer_eq_none_iff {source : Text} {tag : SourceTag} {q : Request} :
    q.answer source tag = none ↔ ∃ n ∈ q.offsets, ¬ Boundary source (min n (byteSize source)) := by
  simp only [← Locator.positionAt_eq_none_iff]
  cases q with
  | position n =>
      cases h : source.positionAt n <;> simp [answer, offsets, h]
  | span r =>
      cases h : source.positionAt r.start <;> cases h' : source.positionAt r.stop <;>
        simp [answer, offsets, h, h']

theorem run_bind {S α β : Type} {x : OptionT (StateM S) α} {f : α → OptionT (StateM S) β}
    {s s' : S} {o : Option α} (h : x.run.run s = (o, s')) :
    (x >>= f).run.run s = o.elim (none, s') fun a => (f a).run.run s' := by
  rw [OptionT.run_bind, Option.elimM, StateT.run_bind, h]
  cases o <;> rfl

/-- An answer is what the text alone gives, also if there is none, and the locator stays exact. -/
theorem ask_eq {source : Text} (tag : SourceTag) {l : Locator} (h : l.Exact source) (q : Request) :
    ((q.ask tag).run l).1 = q.answer source tag ∧ ((q.ask tag).run l).2.Exact source := by
  have hlookup {l : Locator} (h : l.Exact source) (n : Nat) :
      ∃ l', (Locator.position? n).run.run l = (source.positionAt n, l') ∧ l'.Exact source :=
    ⟨_, Prod.ext (Locator.lookup_eq h n).1 rfl, (Locator.lookup_eq h n).2⟩
  cases q with
  | position n =>
      obtain ⟨l', hrun, hl⟩ := hlookup h n
      rw [ask, run_bind hrun, answer]
      cases source.positionAt n <;> exact ⟨rfl, hl⟩
  | span r =>
      obtain ⟨l', hrun, hl⟩ := hlookup h r.start
      obtain ⟨l'', hrun', hl'⟩ := hlookup hl r.stop
      have hspan : (Locator.span? tag r).run.run l = (source.positionAt r.start).elim (none, l')
          fun a => (source.positionAt r.stop).elim (none, l'') fun b => (some ⟨tag, a, b⟩, l'') := by
        rw [Locator.span?, run_bind hrun]
        simp only [run_bind hrun']
        rfl
      rw [ask, answer]
      cases ha : source.positionAt r.start with
      | none =>
          rw [ha] at hspan
          rw [run_bind hspan]
          exact ⟨rfl, hl⟩
      | some a =>
          rw [ha] at hspan
          cases hb : source.positionAt r.stop <;> rw [hb] at hspan <;> rw [run_bind hspan] <;>
            exact ⟨rfl, hl'⟩

end Request

end PegGrammar
