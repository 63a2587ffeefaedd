import Mathlib.Data.List.TakeWhile
import PegGrammar.Proofs.Spelling

namespace PegGrammar

namespace Trivia

theorem lineEndText_of_lineEnd {s : Text} {n : Nat} (h : lineEnd s = some n) :
    LineEndText (s.take n) := by
  revert h
  fun_cases lineEnd s with
  | case1 t => rintro ⟨⟩; exact .crlf
  | case2 c t hcr hc => rintro ⟨⟩; exact .single hc
  | case3 | case4 => rintro ⟨⟩

theorem pieces_run {unit : Text → Option Nat} {P : Text → Text → Prop}
    (hunit : ∀ s n, unit s = some n → P (s.drop n) (s.take n)) (s : Text) :
    Pieces P (s.drop (run unit s)) (s.take (run unit s)) := by
  fun_induction run unit s with
  | case1 => exact .nil
  | case2 c s n hn ih =>
      have ht : (c :: s).take (n + 1 + run unit (s.drop n)) =
          (c :: s).take (n + 1) ++ (s.drop n).take (run unit (s.drop n)) := List.take_add
      have hd : (c :: s).drop (n + 1 + run unit (s.drop n)) =
          (s.drop n).drop (run unit (s.drop n)) := by
        rw [List.drop_drop, Nat.add_right_comm, List.drop_succ_cons]
      rw [ht, hd]
      refine .cons ?_ ih
      rw [List.take_append_drop]
      exact hunit _ _ hn
  | case3 => exact .nil

/-- After the longest run of units, there is no other unit. -/
theorem run_drop_run (unit : Text → Option Nat) (s : Text) :
    run unit (s.drop (run unit s)) = 0 := by
  fun_induction run unit s with
  | case1 => rw [List.drop_nil, run]
  | case2 c s n _ ih =>
      rwa [Nat.add_right_comm, List.drop_succ_cons, ← List.drop_drop]
  | case3 c s h =>
      rw [List.drop_zero, run]
      split
      next n hn => exact (h n hn).elim
      next => rfl

theorem closed_of_throughClose {s : Text} {n : Nat} (h : throughClose s = some n) :
    ∃ body, s.take n = body ++ ['*', '/'] ∧ ¬ ['*', '/'] <:+: body ++ ['*'] := by
  fun_induction throughClose s generalizing n with
  | case1 t =>
      cases h
      exact ⟨[], rfl, by decide⟩
  | case2 c s hne ih =>
      obtain ⟨m, hm, rfl⟩ := Option.map_eq_some_iff.1 h
      obtain ⟨body, hbody, hclosed⟩ := ih hm
      refine ⟨c :: body, by rw [List.take_succ_cons, hbody]; rfl, ?_⟩
      intro hinfix
      rcases List.infix_cons_iff.1 hinfix with hpre | hinfix
      · -- a close that starts at `c` would have been the first one
        obtain ⟨rfl, hslash⟩ := List.cons_prefix_cons.1 hpre
        have hs := List.take_append_drop m s
        rw [hbody] at hs
        cases body with
        | nil => simp at hslash
        | cons d body =>
            obtain ⟨rfl, -⟩ := List.cons_prefix_cons.1 hslash
            exact hne _ rfl hs.symm
      · exact hclosed hinfix
  | case3 => cases h

theorem throughClose_of_throughCloseInline {s : Text} {n : Nat}
    (h : throughCloseInline s = some n) :
    throughClose s = some n ∧ ∀ c ∈ s.take n, isLineTerminator c = false := by
  fun_induction throughCloseInline s generalizing n with
  | case1 t =>
      cases h
      refine ⟨by rw [throughClose], ?_⟩
      simp only [List.take_succ_cons, List.take_zero, List.mem_cons, List.not_mem_nil, or_false,
        forall_eq_or_imp, forall_eq]
      decide
  | case2 => cases h
  | case3 c s hne hc ih =>
      obtain ⟨m, hm, rfl⟩ := Option.map_eq_some_iff.1 h
      obtain ⟨hclose, hline⟩ := ih hm
      refine ⟨by rw [throughClose, hclose]; rfl; exact hne, ?_⟩
      rw [List.take_succ_cons]
      simp only [List.mem_cons, forall_eq_or_imp]
      exact ⟨by simpa using hc, hline⟩
  | case4 => cases h

theorem blockText_of_blockComment {s : Text} {n : Nat} (h : blockComment s = some n) :
    BlockText (s.take n) := by
  revert h
  fun_cases blockComment s with
  | case1 s =>
      intro h
      obtain ⟨m, hm, rfl⟩ := Option.map_eq_some_iff.1 h
      obtain ⟨body, hbody, hclosed⟩ := closed_of_throughClose hm
      rw [List.take_succ_cons, List.take_succ_cons, hbody]
      exact .mk hclosed
  | case2 => rintro ⟨⟩

theorem blockComment_of_inlineComment {s : Text} {n : Nat} (h : inlineComment s = some n) :
    blockComment s = some n ∧ ∀ c ∈ s.take n, isLineTerminator c = false := by
  revert h
  fun_cases inlineComment s with
  | case1 s =>
      intro h
      obtain ⟨m, hm, rfl⟩ := Option.map_eq_some_iff.1 h
      obtain ⟨hclose, hline⟩ := throughClose_of_throughCloseInline hm
      refine ⟨by rw [blockComment, hclose]; rfl, ?_⟩
      rw [List.take_succ_cons, List.take_succ_cons]
      simp only [List.mem_cons, forall_eq_or_imp]
      exact ⟨by decide, by decide, hline⟩
  | case2 => rintro ⟨⟩

theorem lineCommentText_of_lineComment {s : Text} {n : Nat} (h : lineComment s = some n) :
    LineCommentText (s.drop n) (s.take n) := by
  revert h
  fun_cases lineComment s with
  | case1 s =>
      rintro ⟨⟩
      have hrest : s.drop (restOfLine s).length = s.dropWhile (!isLineTerminator ·) :=
        List.append_cancel_left ((List.prefix_iff_eq_append.1 (List.takeWhile_prefix _)).trans
          List.takeWhile_append_dropWhile.symm)
      rw [List.take_succ_cons, List.take_succ_cons, List.drop_succ_cons, List.drop_succ_cons, hrest,
        restOfLine, ← List.prefix_iff_eq_take.1 (List.takeWhile_prefix _)]
      refine .mk (fun c hc => ?_) fun c hc => ?_
      · simpa using List.mem_takeWhile_imp hc
      · have hnot := List.head?_dropWhile_not (fun c => !isLineTerminator c) s
        rw [Option.mem_def.1 hc] at hnot
        simpa using hnot
  | case2 => rintro ⟨⟩

theorem spacePiece_of_space {s : Text} {n : Nat} (h : space s = some n) :
    ∃ c, isSpace c = true ∧ s.take n = [c] := by
  revert h
  fun_cases space s with
  | case1 c s hc => rintro ⟨⟩; exact ⟨c, hc, rfl⟩
  | case2 | case3 => rintro ⟨⟩

theorem triviaPiece_of_unit {s : Text} {n : Nat} (h : unit s = some n) :
    TriviaPiece (s.drop n) (s.take n) := by
  simp only [unit, comment, Option.orElse_eq_orElse, Option.orElse_eq_or,
    Option.or_eq_some_iff] at h
  rcases h with h | ⟨-, h | ⟨-, h | ⟨-, h⟩⟩⟩
  · obtain ⟨c, hc, ht⟩ := spacePiece_of_space h
    exact ht ▸ .space hc
  · exact .lineEnd (lineEndText_of_lineEnd h)
  · exact .block (blockText_of_blockComment h)
  · exact .line (lineCommentText_of_lineComment h)

theorem inlinePiece_of_inlineUnit {s : Text} {n : Nat} (h : inlineUnit s = some n) :
    InlinePiece (s.drop n) (s.take n) := by
  simp only [inlineUnit, Option.orElse_eq_orElse, Option.orElse_eq_or,
    Option.or_eq_some_iff] at h
  rcases h with h | ⟨-, h⟩
  · obtain ⟨c, hc, ht⟩ := spacePiece_of_space h
    exact ht ▸ .space hc
  · obtain ⟨hblock, hline⟩ := blockComment_of_inlineComment h
    exact .block (blockText_of_blockComment hblock) hline

theorem triviaText_skip (s : Text) : TriviaText (s.drop (skip s)) (s.take (skip s)) :=
  pieces_run (fun _ _ h => triviaPiece_of_unit h) s

theorem inlineText_skipInline (s : Text) :
    InlineText (s.drop (skipInline s)) (s.take (skipInline s)) :=
  pieces_run (fun _ _ h => inlinePiece_of_inlineUnit h) s

end Trivia

end PegGrammar
