import PegGrammar.Proofs.Rereading.Rows

namespace PegGrammar

namespace Trivia

variable {unit : Text → Option Nat} {c : Char} {s t u x y : Text} {n : Nat}

theorem drop_run_of_unit (hu : u ≠ []) (h : unit (u ++ s) = some u.length) :
    (u ++ s).drop (run unit (u ++ s)) = s.drop (run unit s) := by
  cases u with
  | nil => exact (hu rfl).elim
  | cons c u =>
      rw [List.cons_append, List.length_cons] at h
      rw [List.cons_append, run, h]
      simp only [List.drop_left]
      rw [Nat.add_right_comm, List.drop_succ_cons, ← List.drop_drop, List.drop_left]

/-- If a run of units ends after `t`, so does a run that is given another text behind `t`, provided
that every unit in `t` is passed there too. -/
theorem drop_run_append (hx : x ≠ [])
    (hunit : ∀ u t, u ≠ [] → unit (u ++ (t ++ x)) = some u.length →
      (t ++ x).drop (run unit (t ++ x)) = x →
      (u ++ (t ++ y)).drop (run unit (u ++ (t ++ y))) = (t ++ y).drop (run unit (t ++ y)))
    (h : (t ++ x).drop (run unit (t ++ x)) = x) :
    (t ++ y).drop (run unit (t ++ y)) = y.drop (run unit y) := by
  induction hn : t.length using Nat.strong_induction_on generalizing t with
  | _ k ih =>
      cases t with
      | nil => rfl
      | cons c t =>
          rw [List.cons_append, run] at h
          split at h
          next n hfound =>
            rw [Nat.add_right_comm, List.drop_succ_cons, ← List.drop_drop] at h
            have hle : n ≤ t.length := by
              have hlength := congrArg List.length h
              have hpos := List.length_pos_iff.2 hx
              simp only [List.length_drop, List.length_append] at hlength
              omega
            have hsplit (z : Text) : c :: (t ++ z) = (c :: t.take n) ++ (t.drop n ++ z) := by
              rw [List.cons_append, ← List.append_assoc, List.take_append_drop]
            rw [List.drop_append_of_le_length hle] at h
            rw [hsplit x] at hfound
            rw [List.cons_append, hsplit y]
            refine (hunit _ _ (List.cons_ne_nil c _) ?_ h).trans
              (ih (t.drop n).length ?_ h rfl)
            · rw [hfound, List.length_cons, List.length_take_of_le hle]
            · rw [← hn, List.length_drop, List.length_cons]
              omega
          next =>
            have hlength := congrArg List.length h
            simp only [List.drop_zero, List.length_cons, List.length_append] at hlength
            omega

theorem throughClose_take (h : throughClose s = some n) (y : Text) :
    2 ≤ n ∧ throughClose (s.take n ++ y) = some n := by
  fun_induction throughClose s generalizing n with
  | case1 t =>
      cases h
      exact ⟨Nat.le_refl _, by simp [throughClose]⟩
  | case2 c s hne ih =>
      obtain ⟨m, hm, rfl⟩ := Option.map_eq_some_iff.1 h
      obtain ⟨hle, hclose⟩ := ih hm
      obtain ⟨d, s, rfl⟩ : ∃ d s', s = d :: s' := by
        cases s with
        | nil => cases hm
        | cons d s' => exact ⟨d, s', rfl⟩
      obtain ⟨k, rfl⟩ : ∃ k, m = k + 1 := ⟨m - 1, by omega⟩
      refine ⟨by omega, ?_⟩
      simp only [List.take_succ_cons, List.cons_append] at hclose ⊢
      rw [throughClose, hclose]
      · rfl
      · rintro t rfl hd
        cases hd
        exact hne s rfl rfl
  | case3 => cases h

theorem blockComment_append (h : blockComment (u ++ s) = some u.length) (y : Text) :
    blockComment (u ++ y) = some u.length := by
  generalize hs : u ++ s = v at h
  generalize hn : u.length = n at h
  revert h
  fun_cases blockComment v with
  | case1 v =>
      intro h
      obtain ⟨m, hm, hmn⟩ := Option.map_eq_some_iff.1 h
      obtain ⟨hle, hclose⟩ := throughClose_take hm y
      obtain ⟨a, b, u, rfl⟩ : ∃ a b u', u = a :: b :: u' := by
        rcases u with _ | ⟨a, _ | ⟨b, u⟩⟩
        · simp at hn; omega
        · simp at hn; omega
        · exact ⟨a, b, u, rfl⟩
      simp only [List.cons_append, List.cons.injEq, List.length_cons] at hs hn
      obtain ⟨rfl, rfl, rfl⟩ := hs
      obtain rfl : u.length = m := by omega
      rw [List.take_left] at hclose
      rw [List.cons_append, List.cons_append, blockComment, hclose, ← hn]
      rfl
  | case2 => rintro ⟨⟩

theorem restOfLine_append (hu : ∀ c ∈ u, isLineTerminator c = false) (s : Text) :
    restOfLine (u ++ s) = u ++ restOfLine s :=
  List.takeWhile_append_of_pos fun c hc => by simp [hu c hc]

theorem restOfLine_eq_nil (h : ∀ c ∈ s.head?, isLineTerminator c = true) : restOfLine s = [] := by
  cases s with
  | nil => rfl
  | cons c s => exact List.takeWhile_cons_of_neg (by simp [h c rfl])

theorem lineComment_append (h : lineComment (u ++ s) = some u.length) :
    (∃ v, u = '/' :: '/' :: v) ∧ (∀ c ∈ s.head?, isLineTerminator c = true) ∧
      ∀ y : Text, (∀ c ∈ y.head?, isLineTerminator c = true) →
        lineComment (u ++ y) = some u.length := by
  generalize hs : u ++ s = v at h
  generalize hn : u.length = n at h
  revert h
  fun_cases lineComment v with
  | case1 v =>
      intro h
      obtain rfl := Option.some.inj h
      obtain ⟨u, rfl⟩ : ∃ u', u = '/' :: '/' :: u' := by
        rcases u with _ | ⟨a, _ | ⟨b, u⟩⟩
        · simp at hn
        · simp at hn
        · simp only [List.cons_append, List.cons.injEq] at hs
          exact ⟨u, by rw [hs.1, hs.2.1]⟩
      simp only [List.cons_append, List.cons.injEq, true_and, List.length_cons] at hs hn
      subst hs
      have hu : u = restOfLine (u ++ s) := by
        have hle : u.length ≤ (restOfLine (u ++ s)).length := by omega
        refine (List.prefix_of_prefix_length_le (List.prefix_append u s)
          (List.takeWhile_prefix _) hle).eq_of_length ?_
        exact hle.antisymm (by omega)
      have hline : ∀ c ∈ u, isLineTerminator c = false := by
        intro c hc
        rw [hu] at hc
        simpa using List.mem_takeWhile_imp hc
      rw [restOfLine_append hline, List.self_eq_append_right] at hu
      refine ⟨⟨u, rfl⟩, fun c hc => ?_, fun y hy => ?_⟩
      · obtain ⟨s, rfl⟩ := List.head?_eq_some_iff.1 hc
        rw [restOfLine, List.takeWhile_cons] at hu
        simpa using hu
      · rw [List.cons_append, List.cons_append, lineComment, restOfLine_append hline,
          restOfLine_eq_nil hy, List.append_nil, ← hn]
  | case2 => rintro ⟨⟩

end Trivia

namespace Reader

open Trivia

variable {c : Char} {l l' s t x : Text}

theorem skipTrivia_cons_space (h : isSpace c = true) (s : Text) :
    skipTrivia (c :: s) = skipTrivia s :=
  drop_run_of_unit (u := [c]) (by simp) (by simp [unit, space, h])

theorem skipTrivia_cons_line (h : isLineTerminator c = true) (s : Text) :
    skipTrivia (c :: s) = skipTrivia s := by
  have hspace : isSpace c = false := by
    simp only [isLineTerminator, Bool.or_eq_true, beq_iff_eq] at h
    rcases h with ((rfl | rfl) | rfl) | rfl <;> decide
  have hunit {n : Nat} (hn : Trivia.lineEnd (c :: s) = some n) : unit (c :: s) = some n := by
    simp [unit, space_eq_none hspace, hn]
  by_cases hcrlf : ∃ t, c = '\r' ∧ s = '\n' :: t
  · obtain ⟨t, rfl, rfl⟩ := hcrlf
    exact (drop_run_of_unit (u := ['\r', '\n']) (by simp) (hunit rfl)).trans
      (skipTrivia_newline t).symm
  · refine drop_run_of_unit (u := [c]) (by simp) (hunit ?_)
    rw [Trivia.lineEnd, if_pos h]
    · rfl
    · rintro t rfl rfl
      exact hcrlf ⟨t, rfl, rfl⟩

/-- Trivia goes on behind this text as if the text was not there. -/
def Blank (l : Text) : Prop := ∀ y, skipTrivia (l ++ y) = skipTrivia y

theorem Blank.nil : Blank [] := fun _ => rfl

theorem Blank.append (h : Blank l) (h' : Blank l') : Blank (l ++ l') := by
  intro y
  rw [List.append_assoc, h, h']

theorem blank_of_forall (h : ∀ c ∈ l, isSpace c = true ∨ isLineTerminator c = true) : Blank l := by
  induction l with
  | nil => exact .nil
  | cons c l ih =>
      have hl : Blank l := ih fun d hd => h d (List.mem_cons_of_mem c hd)
      intro y
      rcases h c List.mem_cons_self with hc | hc
      · rw [List.cons_append, skipTrivia_cons_space hc, hl]
      · rw [List.cons_append, skipTrivia_cons_line hc, hl]

theorem Blank.not_solid (h : Blank (c :: l)) : ¬ Solid c := by
  intro hc
  have hskip := h []
  rw [List.append_nil, skipTrivia_solid hc, skipTrivia_nil] at hskip
  cases hskip

theorem head?_of_comment {u : Text} (hu : u ≠ []) {n : Nat} (h : comment (u ++ s) = some n) :
    ∃ u', u = '/' :: u' := by
  cases u with
  | nil => exact (hu rfl).elim
  | cons c u =>
      by_cases hc : c = '/'
      · exact ⟨u, by rw [hc]⟩
      · rw [List.cons_append, comment, blockComment_eq_none hc, lineComment_eq_none hc] at h
        cases h

theorem unit_slash (s : Text) : unit ('/' :: s) = comment ('/' :: s) := by
  rw [unit, space_eq_none (by decide), lineEnd_eq_none (by decide)]
  rfl

theorem skipTrivia_slash_of_next (h : ∀ c ∈ s.head?, c ≠ '/' ∧ c ≠ '*') :
    skipTrivia ('/' :: s) = '/' :: s := by
  refine drop_run_of_eq_none ((unit_slash s).trans ?_)
  have hblock : blockComment ('/' :: s) = none := by
    rw [blockComment.eq_def]
    split
    next heq =>
      cases heq
      exact ((h '*' rfl).2 rfl).elim
    next => rfl
  have hline : Trivia.lineComment ('/' :: s) = none := by
    rw [Trivia.lineComment.eq_def]
    split
    next heq =>
      cases heq
      exact ((h '/' rfl).1 rfl).elim
    next => rfl
  rw [comment, hblock, hline]
  rfl

theorem ne_slash_of_skipTrivia (h : skipTrivia ('/' :: s) = '/' :: s) : ∀ c ∈ s.head?, c ≠ '/' := by
  rintro c hc rfl
  obtain ⟨s, rfl⟩ := List.head?_eq_some_iff.1 hc
  have hunit : unit ('/' :: '/' :: s) = some ((restOfLine s).length + 1 + 1) := unit_slash _
  have hlength := congrArg List.length h
  simp only [skipTrivia, Trivia.skip, run, hunit, List.length_drop, List.length_cons] at hlength
  omega

/-- Where a line comment can end in front of a token, its line ends. -/
theorem line_of_skipTrivia (hx : x ≠ []) (h : skipTrivia (l ++ x) = x)
    (hline : ∀ c ∈ (l ++ x).head?, isLineTerminator c = true) (y : Text) :
    ∀ c ∈ (l ++ y).head?, isLineTerminator c = true := by
  cases l with
  | cons c l => exact hline
  | nil =>
      cases x with
      | nil => exact (hx rfl).elim
      | cons c x =>
          have hle := length_skipTrivia_le x
          rw [List.nil_append, skipTrivia_cons_line (hline c rfl)] at h
          rw [h, List.length_cons] at hle
          omega

/-- One unit of trivia between tokens is passed whatever comes after it. -/
theorem skipTrivia_unit {u : Text} (hu : u ≠ []) (h : unit (u ++ (l ++ x)) = some u.length)
    (hx : x ≠ []) (hl : skipTrivia (l ++ x) = x) (y : Text) :
    skipTrivia (u ++ (l ++ y)) = skipTrivia (l ++ y) := by
  have comments (h : comment (u ++ (l ++ y)) = some u.length) :
      skipTrivia (u ++ (l ++ y)) = skipTrivia (l ++ y) := by
    obtain ⟨u, rfl⟩ := head?_of_comment hu h
    exact drop_run_of_unit hu ((unit_slash _).trans h)
  simp only [unit, comment, Option.orElse_eq_orElse, Option.orElse_eq_or,
    Option.or_eq_some_iff] at h
  rcases h with h | ⟨-, h | ⟨-, h | ⟨hblock, h⟩⟩⟩
  · obtain ⟨c, hc, ht⟩ := spacePiece_of_space h
    rw [List.take_left] at ht
    rw [ht]
    exact skipTrivia_cons_space hc _
  · have ht := lineEndText_of_lineEnd h
    rw [List.take_left] at ht
    cases ht with
    | crlf => exact (skipTrivia_cons_line (by decide) _).trans (skipTrivia_cons_line (by decide) _)
    | single hc => exact skipTrivia_cons_line hc _
  · apply comments
    rw [comment, blockComment_append h]
    rfl
  · obtain ⟨⟨v, rfl⟩, hline, happend⟩ := lineComment_append h
    exact comments (happend _ (line_of_skipTrivia hx hl hline y))

/-- Between two tokens, skipping trivia ends for the second token alone. -/
theorem blank_of_skipTrivia (h : skipTrivia (l ++ x) = x) (hx : x ≠ []) : Blank l :=
  fun _ => drop_run_append hx (fun _ _ hu hunit hl => skipTrivia_unit hu hunit hx hl _) h

end Reader

theorem Gap.blank {l rest : Text} (h : Gap l rest) (hrest : rest ≠ []) : Reader.Blank l :=
  Reader.blank_of_skipTrivia h.skip hrest

theorem Gap.eq_nil {l rest : Text} (h : Gap l rest)
    (hskip : Reader.skipTrivia (l ++ rest) = l ++ rest) : l = [] := by
  rw [h.skip] at hskip
  exact List.append_cancel_right hskip.symm

end PegGrammar
