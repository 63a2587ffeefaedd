namespace PegGrammar.Unicode

/-- The code points from `first` to `last`, both included. -/
structure CodeRange where
  first : Nat
  last : Nat
  deriving DecidableEq, Repr

/-- Membership in an ascending list of ranges; the search stops at the first range beyond `n`. -/
def covers : List CodeRange → Nat → Bool
  | [], _ => false
  | r :: rs, n => r.first ≤ n && (n ≤ r.last || covers rs n)

/-- No range is empty or begins before `n`, and each begins behind the one in front of it. -/
def ascending (n : Nat) : List CodeRange → Bool
  | [] => true
  | r :: rs => n ≤ r.first && r.first ≤ r.last && ascending (r.last + 1) rs

theorem le_first_of_ascending {rs : List CodeRange} {n : Nat} (h : ascending n rs = true) :
    ∀ r ∈ rs, n ≤ r.first := by
  induction rs generalizing n with
  | nil => nofun
  | cons r rs ih =>
      simp only [ascending, Bool.and_eq_true, decide_eq_true_eq] at h
      obtain ⟨⟨hfirst, hlast⟩, hrest⟩ := h
      refine List.forall_mem_cons.2 ⟨hfirst, fun t ht => ?_⟩
      have := ih hrest t ht
      omega

/-- The search may stop early in ascending ranges. -/
theorem covers_iff {rs : List CodeRange} {m : Nat} (h : ascending m rs = true) (n : Nat) :
    covers rs n = true ↔ ∃ r ∈ rs, r.first ≤ n ∧ n ≤ r.last := by
  induction rs generalizing m with
  | nil => simp [covers]
  | cons r rs ih =>
      simp only [ascending, Bool.and_eq_true, decide_eq_true_eq] at h
      obtain ⟨⟨-, hlast⟩, hrest⟩ := h
      have hbehind := le_first_of_ascending hrest
      simp only [covers, Bool.and_eq_true, Bool.or_eq_true, decide_eq_true_eq, ih hrest,
        List.mem_cons, exists_eq_or_imp]
      constructor
      · rintro ⟨hfirst, hn | hn⟩
        · exact .inl ⟨hfirst, hn⟩
        · exact .inr hn
      · rintro (⟨hfirst, hn⟩ | ⟨t, ht, hfirst, hn⟩)
        · exact ⟨hfirst, .inl hn⟩
        · have := hbehind t ht
          exact ⟨by omega, .inr ⟨t, ht, hfirst, hn⟩⟩

end PegGrammar.Unicode
