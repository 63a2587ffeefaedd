import PegGrammar.Grammar.Map
import PegGrammar.Proofs.Relayout.Blank

namespace PegGrammar

/-- How a document is laid out anew: it begins at offset `shift` of the old one, and `blank` is put
in at `place`. -/
structure Relayout where
  place : Nat
  blank : Text
  shift : Nat
  isBlank : ∀ c ∈ blank, isSpace c = true ∨ isLineTerminator c = true

namespace Relayout

variable (C : Relayout)

def pad (n : Nat) : Text := if n = C.place then C.blank else []

/-- The text at an offset, laid out anew. -/
def laid : Nat → Text → Text
  | _, [] => []
  | n, c :: s => C.pad n ++ c :: laid (n + c.utf8Size) s

/-- The text laid out anew, without what is put in at its front. -/
def tight (n : Nat) : Text → Text
  | [] => []
  | c :: s => c :: C.laid (n + c.utf8Size) s

def Clear (a b : Nat) : Prop := C.blank = [] ∨ C.place ≤ a ∨ b ≤ C.place

/-- The offset in the old document that is `n` in the new one. Where blank text has been put in,
offsets are not compared. -/
def Meets (m n : Nat) : Prop := C.blank = [] → m = n + C.shift

variable {C} {a b c d k m n : Nat} {s t u : Text}

section Texts

theorem pad_of_blank (h : C.blank = []) (n : Nat) : C.pad n = [] := by
  rw [pad, h, ite_self]

theorem pad_of_ne (h : n ≠ C.place) : C.pad n = [] := if_neg h

theorem blank_pad (n : Nat) : Reader.Blank (C.pad n) := by
  rw [pad]
  split
  · exact Reader.blank_of_forall C.isBlank
  · exact .nil

theorem laid_eq (h : t ≠ []) (n : Nat) : C.laid n t = C.pad n ++ C.tight n t := by
  cases t with
  | nil => exact (h rfl).elim
  | cons => rfl

theorem laid_append (n : Nat) (t u : Text) :
    C.laid n (t ++ u) = C.laid n t ++ C.laid (n + t.byteSize) u := by
  induction t generalizing n with
  | nil => rfl
  | cons c t ih =>
      simp only [List.cons_append, laid, ih, Text.byteSize_cons, Nat.add_assoc, List.append_assoc]

theorem tight_append (h : t ≠ []) (n : Nat) (u : Text) :
    C.tight n (t ++ u) = C.tight n t ++ C.laid (n + t.byteSize) u := by
  cases t with
  | nil => exact (h rfl).elim
  | cons c t =>
      simp only [List.cons_append, tight, laid_append, Text.byteSize_cons, Nat.add_assoc]

theorem length_le_length_laid (n : Nat) (t : Text) : t.length ≤ (C.laid n t).length := by
  induction t generalizing n with
  | nil => exact Nat.le_refl _
  | cons c t ih =>
      rw [laid, List.length_append, List.length_cons, List.length_cons]
      exact (Nat.succ_le_succ (ih _)).trans (Nat.le_add_left _ _)

theorem laid_of_outside (h : C.blank = [] ∨ C.place < n ∨ n + t.byteSize ≤ C.place) :
    C.laid n t = t := by
  induction t generalizing n with
  | nil => rfl
  | cons c t ih =>
      have hpos := c.utf8Size_pos
      rw [Text.byteSize_cons] at h
      have hpad : C.pad n = [] := by
        rcases h with h | h
        · exact pad_of_blank h n
        · exact pad_of_ne (by omega)
      rw [laid, hpad, ih, List.nil_append]
      exact h.imp_right fun h => by omega

theorem Clear.mono (h : C.Clear a b) (ha : a ≤ c) (hb : d ≤ b) : C.Clear c d :=
  h.imp_right (Or.imp (·.trans ha) hb.trans)

theorem tight_of_clear (h : C.Clear n (n + t.byteSize)) : C.tight n t = t := by
  cases t with
  | nil => rfl
  | cons c t =>
      have hpos := c.utf8Size_pos
      rw [Clear, Text.byteSize_cons] at h
      rw [tight, laid_of_outside]
      exact h.imp_right fun h => by omega

theorem blank_laid (h : C.Clear n (n + t.byteSize)) (ht : Reader.Blank t) :
    Reader.Blank (C.laid n t) := by
  by_cases hnil : t = []
  · rw [hnil]
    exact .nil
  · rw [laid_eq hnil, tight_of_clear h]
    exact (blank_pad n).append ht

section Gaps

variable {l : Text} (hm : n + l.byteSize = m)

include hm

theorem laid_gap (ht : t ≠ []) (F : Text) :
    C.laid n (l ++ t) ++ F = C.laid n l ++ C.pad m ++ (C.tight m t ++ F) := by
  rw [laid_append, laid_eq ht, hm]
  simp only [List.append_assoc]

theorem blank_gap (hl : Reader.Blank l) (h : C.Clear n m) :
    Reader.Blank (C.laid n l ++ C.pad m) :=
  (blank_laid (hm ▸ h) hl).append (blank_pad _)

theorem skipTrivia_laid (hl : Reader.Blank l) (h : C.Clear n m) (ht : t ≠ []) (F : Text) :
    Reader.skipTrivia (C.laid n (l ++ t) ++ F) = Reader.skipTrivia (C.tight m t ++ F) := by
  rw [laid_gap hm ht, blank_gap hm hl h]

end Gaps

end Texts

section Offsets

theorem Meets.add (h : C.Meets m n) (k : Nat) : C.Meets (m + k) (n + k) := by
  intro hblank
  rw [h hblank]
  omega

theorem byteSize_laid (h : C.blank = []) (n : Nat) (t : Text) :
    Text.byteSize (C.laid n t) = t.byteSize := by
  rw [laid_of_outside (.inl h)]

end Offsets

section Allows

variable {as bs : List ByteRange}

/-- Nothing is put in between two offsets but at the start of one of the locations. -/
def Allows (C : Relayout) (as : List ByteRange) (a b : Nat) : Prop :=
  C.Clear a b ∨ ∃ r ∈ as, r.start = C.place

theorem Allows.part (h : C.Allows as n m) (ha : n ≤ a) (hb : b ≤ m)
    (has : ∀ r ∈ as, r ∈ bs ∨ r.start ≤ a ∨ b ≤ r.start) : C.Allows bs a b := by
  rcases h with (h | h | h) | ⟨r, hr, hplace⟩
  · exact .inl (.inl h)
  · exact .inl (.inr (.inl (h.trans ha)))
  · exact .inl (.inr (.inr (hb.trans h)))
  · rcases has r hr with hbs | hr | hr
    · exact .inr ⟨r, hbs, hplace⟩
    · exact .inl (.inr (.inl (hplace ▸ hr)))
    · exact .inl (.inr (.inr (hplace ▸ hr)))

theorem Allows.clear (h : C.Allows as n m) (ha : n ≤ a) (hb : b ≤ m)
    (has : ∀ r ∈ as, r.start ≤ a ∨ b ≤ r.start) : C.Clear a b := by
  have hpart : C.Allows [] a b := h.part ha hb fun r hr => .inr (has r hr)
  rcases hpart with h | ⟨r, hr, -⟩
  · exact h
  · cases hr

theorem Allows.leaf {r : ByteRange} (h : C.Allows [r] r.start m) : C.Clear r.start m :=
  h.clear (Nat.le_refl _) (Nat.le_refl _) fun x hx => by
    rw [List.mem_singleton.1 hx]
    exact .inl (Nat.le_refl _)

end Allows

section Ranges

def old (C : Relayout) (r : ByteRange) : ByteRange := if C.blank = [] then r else default

def new (C : Relayout) (r : ByteRange) : ByteRange :=
  if C.blank = [] then ⟨r.start + C.shift, r.stop + C.shift⟩ else default

theorem new_eq_old (h : C.Meets a c) (h' : C.Meets b d) : C.new ⟨c, d⟩ = C.old ⟨a, b⟩ := by
  rw [new, old]
  split
  next hblank => rw [h hblank, h' hblank]
  next => rfl

/-- The trees are the same but for what is compared of their locations. -/
def Same (C : Relayout) (e e' : Expr ByteRange) : Prop := e'.map C.new = e.map C.old

def SameList (C : Relayout) (es es' : List (Expr ByteRange)) : Prop :=
  Expr.mapList C.new es' = Expr.mapList C.old es

end Ranges

end Relayout

end PegGrammar
