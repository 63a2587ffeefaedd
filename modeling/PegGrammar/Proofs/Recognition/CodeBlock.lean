import PegGrammar.Proofs.Spelling

namespace PegGrammar

namespace CodeBlock

theorem not_balancedAt_nil {depth : Nat} : ¬ BalancedAt (depth + 1) [] := by
  simp [BalancedAt]

theorem balancedAt_nil : BalancedAt 0 [] := by
  simp [BalancedAt]

theorem balancedAt_cons {depth depth' : Nat} {c : Char} {code : Text}
    (h : depth' + [c].count '}' = depth + [c].count '{') :
    BalancedAt depth (c :: code) ↔ BalancedAt depth' code := by
  have hcount (x : Char) (t : Text) : (c :: t).count x = [c].count x + t.count x := by
    rw [← List.count_append, List.singleton_append]
  have hclose := hcount '}'
  have hopen := hcount '{'
  constructor
  · rintro ⟨heq, hle⟩
    rw [hclose code, hopen code] at heq
    refine ⟨by omega, fun t ht => ?_⟩
    have hle := hle (c :: t) (List.cons_prefix_cons.2 ⟨rfl, ht⟩)
    rw [hclose t, hopen t] at hle
    omega
  · rintro ⟨heq, hle⟩
    refine ⟨by rw [hclose code, hopen code]; omega, fun t ht => ?_⟩
    rcases List.prefix_cons_iff.1 ht with rfl | ⟨u, rfl, hu⟩
    · simp
    · have hle := hle u hu
      rw [hclose u, hopen u]
      omega

theorem not_balancedAt_close {code : Text} : ¬ BalancedAt 0 ('}' :: code) := by
  rintro ⟨-, hle⟩
  have := hle ['}'] (List.cons_prefix_cons.2 ⟨rfl, List.nil_prefix⟩)
  simp at this

/-- Code in which one more brace is closed than opened has a brace that closes it. -/
theorem exists_close_of_balancedAt {depth : Nat} {code : Text} (h : BalancedAt (depth + 1) code) :
    ∃ t u, code = t ++ '}' :: u ∧ BalancedAt depth t ∧ BalancedAt 0 u := by
  induction code generalizing depth with
  | nil => exact absurd h not_balancedAt_nil
  | cons c code ih =>
      by_cases hopen : c = '{'
      · subst hopen
        obtain ⟨t, u, rfl, ht, hu⟩ := ih ((balancedAt_cons rfl).1 h)
        exact ⟨'{' :: t, u, rfl, (balancedAt_cons rfl).2 ht, hu⟩
      · by_cases hclose : c = '}'
        · subst hclose
          have hcode : BalancedAt depth code := (balancedAt_cons rfl).1 h
          cases depth with
          | zero => exact ⟨[], code, rfl, balancedAt_nil, hcode⟩
          | succ depth =>
              obtain ⟨t, u, rfl, ht, hu⟩ := ih hcode
              exact ⟨'}' :: t, u, rfl, (balancedAt_cons rfl).2 ht, hu⟩
        · have hsame {d : Nat} {code : Text} : BalancedAt d (c :: code) ↔ BalancedAt d code :=
            balancedAt_cons (by simp [hopen, hclose])
          obtain ⟨t, u, rfl, ht, hu⟩ := ih (hsame.1 h)
          exact ⟨c :: t, u, rfl, hsame.2 ht, hu⟩

theorem balancedAt_of_codeUpTo {depth : Nat} {s code : Text} (h : codeUpTo depth s = some code) :
    BalancedAt depth code ∧ ∃ r, s = code ++ '}' :: r := by
  fun_induction codeUpTo depth s generalizing code with
  | case1 => cases h
  | case2 depth s ih =>
      obtain ⟨code, hcode, rfl⟩ := Option.map_eq_some_iff.1 h
      obtain ⟨hb, r, rfl⟩ := ih hcode
      exact ⟨(balancedAt_cons rfl).2 hb, r, rfl⟩
  | case3 s =>
      cases h
      exact ⟨balancedAt_nil, s, rfl⟩
  | case4 s _ depth ih =>
      obtain ⟨code, hcode, rfl⟩ := Option.map_eq_some_iff.1 h
      obtain ⟨hb, r, rfl⟩ := ih hcode
      exact ⟨(balancedAt_cons rfl).2 hb, r, rfl⟩
  | case5 depth c s hopen hclose ih =>
      obtain ⟨code, hcode, rfl⟩ := Option.map_eq_some_iff.1 h
      obtain ⟨hb, r, rfl⟩ := ih hcode
      exact ⟨(balancedAt_cons (by simp [hopen, hclose])).2 hb, r, rfl⟩

theorem codeUpTo_of_balancedAt {depth : Nat} {code : Text} (h : BalancedAt depth code) (r : Text) :
    codeUpTo depth (code ++ '}' :: r) = some code := by
  induction code generalizing depth with
  | nil =>
      cases depth with
      | zero => rfl
      | succ depth => exact absurd h not_balancedAt_nil
  | cons c code ih =>
      rw [List.cons_append, codeUpTo.eq_def]
      dsimp only
      split
      next hopen =>
        subst hopen
        rw [ih ((balancedAt_cons rfl).1 h)]
        rfl
      next hopen =>
        split
        next hclose =>
          subst hclose
          cases depth with
          | zero => exact absurd h not_balancedAt_close
          | succ depth =>
              dsimp only
              rw [ih ((balancedAt_cons rfl).1 h)]
              rfl
        next hclose =>
          rw [ih ((balancedAt_cons (by simp [hopen, hclose])).1 h)]
          rfl

/-- The code of a block is balanced, and the block is the code in braces. -/
theorem codeBlock_eq_some_iff {s code : Text} :
    codeBlock s = some code ↔ Balanced code ∧ ∃ r, s = '{' :: (code ++ '}' :: r) := by
  rw [← balancedAt_zero_iff]
  constructor
  · intro h
    cases s with
    | nil => cases h
    | cons c s =>
        rw [codeBlock] at h
        split at h
        next hc =>
          obtain ⟨hb, r, rfl⟩ := balancedAt_of_codeUpTo h
          exact ⟨hb, r, by rw [hc]⟩
        next => cases h
  · rintro ⟨hb, r, rfl⟩
    rw [codeBlock, if_pos rfl, codeUpTo_of_balancedAt hb]

end CodeBlock

end PegGrammar
