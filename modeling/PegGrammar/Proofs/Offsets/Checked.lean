import PegGrammar.Escape
import PegGrammar.Proofs.LineColumn
import PegGrammar.Proofs.Rounds

namespace PegGrammar

namespace Offsets

/-- What ends a computation on the spot. -/
inductive Fault where
  /-- A range that is not between two characters of the document. -/
  | slice (range : ByteRange)
  | index (i : Nat)
  /-- The round of a loop at this offset does not come to a later one in the document. -/
  | stuck (pos : Nat)
  deriving DecidableEq, Repr

/-- A computation that may find nothing. -/
abbrev Checked : Type → Type := OptionT (Except Fault)

namespace Checked

variable {α β : Type}

def found (o : Option α) : Checked α := OptionT.mk (.ok o)

theorem run_found_bind (o : Option α) (f : Option α → Except Fault β) :
    ((found o).run >>= f) = f o := rfl

theorem found_bind_some (a : α) (f : α → Checked β) : (found (some a) >>= f) = f a := rfl

theorem found_bind_none (f : α → Checked β) : (found none >>= f) = found none := rfl

theorem found_bind_pure (o : Option α) (f : α → β) :
    (found o >>= fun a => pure (f a)) = found (o.map f) := by
  cases o <;> rfl

end Checked

open Checked

/-- How a round of a loop ends. -/
inductive Round (σ ρ : Type) where
  | again (state : σ) (next : Nat)
  | done (result : ρ)

variable (source : Text)

def charAt? (pos : Nat) : Option Char := (source.dropBytes? pos).bind List.head?

/-- The offset behind a fixed text, if it stands at an offset. -/
def literalAt? (pos : Nat) (text : Text) : Option Nat :=
  match source.dropBytes? pos with
  | some rest => if text.isPrefixOf rest then some (pos + text.byteSize) else none
  | none => none

/-- The document from one offset up to another one, if these are between characters. -/
def part? (start stop : Nat) : Option Text :=
  if start ≤ stop then source.slice? start stop else none

def sliceFrom (start : Nat) : Except Fault Text :=
  match source.dropBytes? start with
  | some rest => .ok rest
  | none => .error (.slice ⟨start, source.byteSize⟩)

def slice (start stop : Nat) : Except Fault Text :=
  match part? source start stop with
  | some text => .ok text
  | none => .error (.slice ⟨start, stop⟩)

/-- The number of bytes in front of the first place where something is the case. -/
def find? (p : Text → Bool) : Text → Option Nat
  | [] => if p [] then some 0 else none
  | c :: s => if p (c :: s) then some 0 else (find? p s).map (c.utf8Size + ·)

/-- Goes round and round, each time from a later offset on. -/
def loop {σ ρ : Type} (round : σ → Nat → Except Fault (Round σ ρ)) (state : σ) (pos : Nat) :
    Except Fault ρ :=
  match round state pos with
  | .ok (.again state next) =>
    if pos < next ∧ next ≤ source.byteSize then loop round state next else .error (.stuck pos)
  | .ok (.done result) => .ok result
  | .error fault => .error fault
termination_by source.byteSize - pos

end Offsets

/-- The offset behind the first `n` characters of a text that stands at `pos`. -/
def Text.stopAt (s : Text) (pos n : Nat) : Nat := pos + byteSize (s.take n)

namespace Text

@[simp]
theorem stopAt_zero (s : Text) (pos : Nat) : s.stopAt pos 0 = pos := rfl

@[simp]
theorem stopAt_cons (c : Char) (s : Text) (pos n : Nat) :
    stopAt (c :: s) pos (n + 1) = s.stopAt (pos + c.utf8Size) n := by
  rw [stopAt, stopAt, List.take_succ_cons, byteSize_cons, Nat.add_assoc]

theorem stopAt_one (c : Char) (s : Text) (pos : Nat) : stopAt (c :: s) pos 1 = pos + c.utf8Size :=
  stopAt_cons c s pos 0

theorem stopAt_add (s : Text) (pos m n : Nat) :
    s.stopAt pos (m + n) = stopAt (s.drop m) (s.stopAt pos m) n := by
  rw [stopAt, stopAt, stopAt, List.take_add, byteSize_append, Nat.add_assoc]

theorem stopAt_length (s t : Text) (pos : Nat) : stopAt (s ++ t) pos s.length = pos + s.byteSize := by
  rw [stopAt, List.take_left']
  rfl

end Text

namespace StandsAt

variable {source s : Text} {pos n : Nat} {c : Char}

theorem stopAt (h : StandsAt source s pos) (n : Nat) : StandsAt source (s.drop n) (s.stopAt pos n) :=
  h.drop n

theorem tail (h : StandsAt source (c :: s) pos) : StandsAt source s (pos + c.utf8Size) :=
  append (t := [c]) h

theorem lt_stopAt (h : StandsAt source s pos) (hpos : 0 < n) (hle : n ≤ s.length) :
    pos < s.stopAt pos n ∧ s.stopAt pos n ≤ source.byteSize := by
  have hstop := h.stopAt n
  refine ⟨h.lt_of_length_lt hstop ?_, hstop.le_byteSize⟩
  rw [List.length_drop]
  omega

end StandsAt

/-- The bytes from `pos` up to `stop` are some characters of the document. -/
structure IsPart (source : Text) (pos stop : Nat) : Prop where
  start_boundary : Boundary source pos
  start_lt : pos < source.byteSize
  stop_boundary : Boundary source stop
  lt : pos < stop
  stop_le : stop ≤ source.byteSize

theorem StandsAt.isPart {source s : Text} {pos n : Nat} (h : StandsAt source s pos) (hpos : 0 < n)
    (hle : n ≤ s.length) : IsPart source pos (s.stopAt pos n) := by
  obtain ⟨hlt, hsize⟩ := h.lt_stopAt hpos hle
  exact ⟨h.boundary, hlt.trans_le hsize, (h.stopAt n).boundary, hlt, hsize⟩

namespace Offsets

open Checked

variable {source s t : Text} {pos : Nat} {c : Char}

theorem dropBytes?_eq_none (h : ¬ Boundary source pos) : source.dropBytes? pos = none := by
  rw [Text.dropBytes?, Option.map_eq_none_iff, Option.eq_none_iff_forall_ne_some]
  rintro ⟨a, b⟩ hcut
  exact h (boundary_iff.2 ⟨a, b, hcut⟩)

theorem charAt?_eq (h : StandsAt source s pos) : charAt? source pos = s.head? := by
  rw [charAt?, h.dropBytes?, Option.bind_some]

theorem charAt?_eq_none (h : ¬ Boundary source pos) : charAt? source pos = none := by
  rw [charAt?, dropBytes?_eq_none h, Option.bind_none]

section Literals

variable {a b : Char}

theorem literalAt?_eq (h : StandsAt source s pos) (text : Text) : literalAt? source pos text =
    if text.isPrefixOf s then some (pos + text.byteSize) else none := by
  rw [literalAt?, h.dropBytes?]

theorem literalAt?_eq_none (h : ¬ Boundary source pos) (text : Text) :
    literalAt? source pos text = none := by
  rw [literalAt?, dropBytes?_eq_none h]

theorem literalAt?_one (h : StandsAt source s pos) : literalAt? source pos [a] =
    if s.head? = some a then some (s.stopAt pos 1) else none := by
  rw [literalAt?_eq h]
  cases s with
  | nil => rfl
  | cons b s =>
      by_cases hb : b = a
      · subst hb
        simp
      · have hne : ¬ a = b := fun heq => hb heq.symm
        simp [hb, hne]

theorem literalAt?_head (h : StandsAt source (a :: s) pos) :
    literalAt? source pos [a] = some (pos + a.utf8Size) := by
  rw [literalAt?_one h, List.head?_cons, if_pos rfl, Text.stopAt_one]

theorem literalAt?_of_ne (h : StandsAt source s pos) (hne : ∀ t, s = a :: t → False) :
    literalAt? source pos [a] = none := by
  rw [literalAt?_one h, if_neg]
  intro hs
  obtain ⟨t, rfl⟩ := List.head?_eq_some_iff.1 hs
  exact hne t rfl

theorem literalAt?_two (h : StandsAt source (a :: b :: s) pos) :
    literalAt? source pos [a, b] = some (pos + a.utf8Size + b.utf8Size) ∧
      StandsAt source s (pos + a.utf8Size + b.utf8Size) := by
  refine ⟨?_, h.tail.tail⟩
  rw [literalAt?_eq h]
  simp [Nat.add_assoc]

theorem literalAt?_two_of_ne (h : StandsAt source s pos) (hne : ∀ t, s = a :: b :: t → False) :
    literalAt? source pos [a, b] = none := by
  rw [literalAt?_eq h, if_neg]
  rw [List.isPrefixOf_iff_prefix]
  exact fun ⟨t, ht⟩ => hne t ht.symm

end Literals

theorem sliceFrom_eq (h : StandsAt source s pos) : sliceFrom source pos = .ok s := by
  rw [sliceFrom, h.dropBytes?]

theorem part?_eq (h : StandsAt source (t ++ s) pos) :
    part? source pos (pos + t.byteSize) = some t := by
  obtain ⟨before, hsource, rfl⟩ := h
  rw [part?, if_pos (Nat.le_add_right _ _), Text.slice?_append hsource rfl rfl]

theorem slice_eq (h : StandsAt source (t ++ s) pos) :
    slice source pos (pos + t.byteSize) = .ok t := by
  rw [slice, part?_eq h]

/-- A loop comes to an end without a fault if each of its rounds moves on and keeps the invariant. -/
theorem loop_spec {σ ρ : Type} {round : σ → Nat → Except Fault (Round σ ρ)}
    {I : σ → Nat → Prop} {P : ρ → Prop}
    (hround : ∀ state pos, I state pos → (∃ r, round state pos = .ok (.done r) ∧ P r) ∨
      ∃ state' next, round state pos = .ok (.again state' next) ∧
        (pos < next ∧ next ≤ source.byteSize) ∧ I state' next)
    (state : σ) (pos : Nat) (h : I state pos) :
    ∃ r, loop source round state pos = .ok r ∧ P r := by
  rw [loop]
  rcases hround state pos h with ⟨r, hdone, hr⟩ | ⟨state', next, hagain, hnext, h'⟩
  · exact ⟨r, by rw [hdone], hr⟩
  · simp only [hagain, if_pos hnext]
    exact loop_spec hround state' next h'
termination_by source.byteSize - pos

theorem loop_eq {σ ρ : Type} {round : σ → Nat → Except Fault (Round σ ρ)}
    (result : σ → Text → Nat → ρ)
    (hround : ∀ state s pos, StandsAt source s pos →
      round state pos = .ok (.done (result state s pos)) ∨
      ∃ next n, 0 < n ∧ n ≤ s.length ∧ round state pos = .ok (.again next (s.stopAt pos n)) ∧
        result next (s.drop n) (s.stopAt pos n) = result state s pos)
    (state : σ) (h : StandsAt source s pos) :
    loop source round state pos = .ok (result state s pos) := by
  have hspec : ∃ r, loop source round state pos = .ok r ∧ r = result state s pos := by
    refine loop_spec (I := fun state' pos' => ∃ t, StandsAt source t pos' ∧
      result state' t pos' = result state s pos) ?_ state pos ⟨s, h, rfl⟩
    rintro state' pos' ⟨t, ht, hresult⟩
    rcases hround state' t pos' ht with hdone | ⟨next, n, hpos, hle, hagain, hnext⟩
    · exact .inl ⟨_, hdone, hresult⟩
    · exact .inr ⟨next, _, hagain, ht.lt_stopAt hpos hle, _, ht.stopAt n, hnext.trans hresult⟩
  obtain ⟨r, hr, rfl⟩ := hspec
  exact hr

/-- Wherever it is applied, `f` finds what the recogniser finds in the text there. -/
structure Agrees {α β : Type} (source : Text) (f : Nat → Checked α) (recognize : Text → Option β)
    (place : Text → Nat → β → α) : Prop where
  there : ∀ {s pos}, StandsAt source s pos → f pos = found ((recognize s).map (place s pos))
  elsewhere : ∀ {pos}, ¬ Boundary source pos → f pos = found none

namespace Agrees

abbrev Ends (source : Text) (f : Nat → Checked Nat) (recognize : Text → Option Nat) : Prop :=
  Agrees source f recognize Text.stopAt

abbrev Values {α : Type} (source : Text) (f : Nat → Checked (α × Nat))
    (recognize : Text → Option (Lexeme α)) : Prop :=
  Agrees source f recognize fun s pos l => (l.value, s.stopAt pos l.length)

section

variable {α β γ : Type} {f : Nat → Checked α} {recognize : Text → Option β} {place : Text → Nat → β → α}

theorem map (h : Agrees source f recognize place) (g : Nat → α → γ) :
    Agrees source (fun pos => g pos <$> f pos) recognize fun s pos b => g pos (place s pos b) where
  there {s pos} hs := by
    rw [h.there hs]
    cases recognize s <;> rfl
  elsewhere hpos := by
    rw [h.elsewhere hpos]
    rfl

theorem run_eq (h : Agrees source f recognize place) (pos : Nat) : (f pos).run =
    .ok ((source.dropBytes? pos).bind fun s => (recognize s).map (place s pos)) := by
  by_cases hpos : Boundary source pos
  · obtain ⟨s, hs⟩ := hpos
    rw [h.there hs, hs.dropBytes?]
    rfl
  · rw [h.elsewhere hpos, dropBytes?_eq_none hpos]
    rfl

end

theorem orElse {α β : Type} {f g : Nat → Checked α} {r r' : Text → Option β}
    {place : Text → Nat → β → α} (hf : Agrees source f r place) (hg : Agrees source g r' place) :
    Agrees source (fun pos => f pos <|> g pos) (fun s => r s <|> r' s) place where
  there {s pos} h := by
    rw [hf.there h, hg.there h]
    cases r s <;> rfl
  elsewhere h := by
    rw [hf.elsewhere h, hg.elsewhere h]
    rfl

end Agrees

end Offsets

end PegGrammar
