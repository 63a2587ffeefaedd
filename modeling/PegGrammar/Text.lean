namespace PegGrammar

abbrev Text := List Char

namespace Text

def byteSize : Text → Nat
  | [] => 0
  | c :: s => c.utf8Size + byteSize s

@[simp]
theorem byteSize_nil : byteSize [] = 0 := rfl

@[simp]
theorem byteSize_cons (c : Char) (s : Text) : byteSize (c :: s) = c.utf8Size + byteSize s := rfl

@[simp]
theorem byteSize_append (s t : Text) : byteSize (s ++ t) = byteSize s + byteSize t := by
  induction s with
  | nil => simp
  | cons c s ih => simp [ih, Nat.add_assoc]

/-- The text cut in two, the first part being `n` bytes long. Inside a character and beyond the end
there is no such cut. -/
def splitAtByte? : Text → Nat → Option (Text × Text)
  | s, 0 => some ([], s)
  | [], _ + 1 => none
  | c :: s, n + 1 =>
    if c.utf8Size ≤ n + 1 then
      (splitAtByte? s (n + 1 - c.utf8Size)).map fun (a, b) => (c :: a, b)
    else none

def dropBytes? (s : Text) (n : Nat) : Option Text :=
  (s.splitAtByte? n).map Prod.snd

theorem append_of_splitAtByte? {s a b : Text} {n : Nat} (h : s.splitAtByte? n = some (a, b)) :
    s = a ++ b ∧ a.byteSize = n := by
  fun_induction splitAtByte? s n generalizing a with
  | case1 s => simp_all
  | case2 => simp at h
  | case3 n c s hc ih =>
    obtain ⟨⟨a', b'⟩, hs, hab⟩ := Option.map_eq_some_iff.1 h
    simp only [Prod.mk.injEq] at hab
    obtain ⟨rfl, rfl⟩ := hab
    obtain ⟨rfl, hn⟩ := ih hs
    exact ⟨rfl, by simp [hn]; omega⟩
  | case4 => simp at h

theorem splitAtByte?_append (a b : Text) : (a ++ b).splitAtByte? a.byteSize = some (a, b) := by
  induction a with
  | nil => cases b <;> rfl
  | cons c a ih =>
    have hpos := c.utf8Size_pos
    obtain ⟨n, hn⟩ : ∃ n, byteSize (c :: a) = n + 1 := ⟨byteSize (c :: a) - 1, by simp; omega⟩
    have hle : c.utf8Size ≤ n + 1 := by rw [← hn]; simp
    have hrest : n + 1 - c.utf8Size = byteSize a := by rw [← hn]; simp
    rw [hn, List.cons_append, splitAtByte?, if_pos hle, hrest, ih]
    rfl

/-- The accepted offsets are the sizes of the text's prefixes. -/
theorem splitAtByte?_eq_some_iff {s a b : Text} {n : Nat} :
    s.splitAtByte? n = some (a, b) ↔ s = a ++ b ∧ a.byteSize = n :=
  ⟨append_of_splitAtByte?, fun ⟨hs, hn⟩ => by rw [hs, ← hn, splitAtByte?_append]⟩

end Text

end PegGrammar
