import PegGrammar.Proofs.Offsets.Trivia
import PegGrammar.Proofs.Relayout.Statements

namespace PegGrammar

namespace Trivia

variable {s t : Text} {n : Nat}

theorem throughCloseInline_of_throughClose (h : throughClose s = some n)
    (hline : ∀ c ∈ s.take n, isLineTerminator c = false) : throughCloseInline s = some n := by
  fun_induction throughClose s generalizing n with
  | case1 s =>
      cases h
      rw [throughCloseInline]
  | case2 c s hnot ih =>
      obtain ⟨m, hm, rfl⟩ := Option.map_eq_some_iff.1 h
      rw [List.take_succ_cons, List.forall_mem_cons] at hline
      rw [throughCloseInline, if_neg (by simp [hline.1]), ih hm hline.2]
      · rfl
      · exact hnot
  | case3 => cases h

/-- The comments within a line are those that have no line end in them. -/
theorem inlineComment_eq_some_iff : inlineComment s = some n ↔
    blockComment s = some n ∧ ∀ c ∈ s.take n, isLineTerminator c = false := by
  refine ⟨blockComment_of_inlineComment, fun ⟨h, hline⟩ => ?_⟩
  revert h
  fun_cases blockComment s with
  | case1 s =>
      intro h
      obtain ⟨m, hm, rfl⟩ := Option.map_eq_some_iff.1 h
      rw [List.take_succ_cons, List.take_succ_cons, List.forall_mem_cons, List.forall_mem_cons]
        at hline
      rw [inlineComment, throughCloseInline_of_throughClose hm hline.2.2]
      rfl
  | case2 => rintro ⟨⟩

theorem unit_of_inlineUnit (h : inlineUnit s = some n) : unit s = some n := by
  simp only [inlineUnit, Option.orElse_eq_orElse, Option.orElse_eq_or, Option.or_eq_some_iff] at h
  rcases h with h | ⟨-, h⟩
  · rw [unit, h]
    rfl
  · have hblock := (inlineComment_eq_some_iff.1 h).1
    revert h
    fun_cases inlineComment s with
    | case1 s =>
        intro _
        rw [Reader.unit_slash, comment, hblock]
        rfl
    | case2 => rintro ⟨⟩

/-- A run of units of one kind is the beginning of a run of units of a wider kind. -/
theorem run_add_run {narrow wide : Text → Option Nat} (hwide : Advances wide)
    (hle : ∀ s n, narrow s = some n → wide s = some n) (s : Text) :
    run narrow s + run wide (s.drop (run narrow s)) = run wide s := by
  fun_induction run narrow s with
  | case1 => rw [List.drop_nil, Nat.zero_add]
  | case2 c s n hn ih =>
      have hdrop : (c :: s).drop (n + 1 + run narrow (s.drop n)) =
          (s.drop n).drop (run narrow (s.drop n)) := by
        rw [List.drop_drop, Nat.add_right_comm, List.drop_succ_cons]
      rw [hdrop, Nat.add_assoc, ih, run_eq hwide (c :: s), hle _ _ hn]
      rfl
  | case3 => rw [List.drop_zero, Nat.zero_add]

theorem skipInline_add_skip (s : Text) : skipInline s + skip (s.drop (skipInline s)) = skip s :=
  run_add_run advances_unit (fun _ _ => unit_of_inlineUnit) s

theorem line_of_inlinePiece {rest : Text} (h : InlinePiece rest t) : ∀ c ∈ t, isLineTerminator c = false := by
  cases h with
  | @space c hc =>
      intro d hd
      rw [List.mem_singleton.1 hd]
      by_contra hline
      rw [Bool.not_eq_false] at hline
      rw [(Reader.inline_of_isLineTerminator hline).1] at hc
      cases hc
  | block _ hline => exact hline

theorem line_of_inlineText {rest : Text} (h : InlineText rest t) : ∀ c ∈ t, isLineTerminator c = false := by
  induction h with
  | nil => nofun
  | cons h _ ih => exact List.forall_mem_append.2 ⟨line_of_inlinePiece h, ih⟩

end Trivia

open Offsets

namespace Text

def EndsAt (source : Text) (recognize : Text → Option Nat) (pos stop : Nat) : Prop :=
  ∃ n s, source.recognizeAt recognize pos = some (n, s) ∧ s.stopAt pos n = stop

def OnOneLine (source : Text) (pos stop : Nat) : Prop :=
  ∃ t, part? source pos stop = some t ∧ ∀ c ∈ t, isLineTerminator c = false

def after (source : Text) (skip : Text → Nat) (pos : Nat) : Nat :=
  (source.dropBytes? pos).elim pos fun s => s.stopAt pos (skip s)

variable {source s : Text} {recognize : Text → Option Nat} {skip skip' : Text → Nat}
  {pos stop n : Nat}

theorem endsAt_iff (h : StandsAt source s pos) : source.EndsAt recognize pos stop ↔
    ∃ n, recognize s = some n ∧ s.stopAt pos n = stop := by
  rw [EndsAt, recognizeAt, h.dropBytes?, Option.bind_some]
  constructor
  · rintro ⟨n, t, hread, hstop⟩
    obtain ⟨m, hm, ⟨⟩⟩ := Option.map_eq_some_iff.1 hread
    exact ⟨n, hm, hstop⟩
  · rintro ⟨n, hn, hstop⟩
    exact ⟨n, s, by rw [hn, Option.map_some], hstop⟩

theorem run_eq_some_iff_endsAt {f : Nat → Checked Nat} (hf : Agrees.Ends source f recognize)
    (h : StandsAt source s pos) :
    (f pos).run = .ok (some stop) ↔ source.EndsAt recognize pos stop := by
  rw [hf.run_eq, h.dropBytes?, Option.bind_some, Except.ok.injEq, Option.map_eq_some_iff,
    endsAt_iff h]

theorem after_eq (h : StandsAt source s pos) : source.after skip pos = s.stopAt pos (skip s) := by
  rw [after, h.dropBytes?, Option.elim_some]

theorem after_after (h : StandsAt source s pos) : source.after skip' (source.after skip pos) =
    s.stopAt pos (skip s + skip' (s.drop (skip s))) := by
  rw [after_eq h, after_eq (h.stopAt _), stopAt_add]

theorem after_after_run (unit : Text → Option Nat) (h : StandsAt source s pos) :
    source.after (Trivia.run unit) (source.after (Trivia.run unit) pos) =
      source.after (Trivia.run unit) pos := by
  rw [after_after h, Trivia.run_drop_run, Nat.add_zero, after_eq h]

theorem after_skip_skipInline (h : StandsAt source s pos) :
    source.after Trivia.skip (source.after Trivia.skipInline pos) = source.after Trivia.skip pos := by
  rw [after_after h, Trivia.skipInline_add_skip, after_eq h]

theorem part?_stopAt (h : StandsAt source s pos) (n : Nat) :
    part? source pos (s.stopAt pos n) = some (s.take n) := by
  rw [stopAt]
  exact part?_eq (s := s.drop n) (by rwa [List.take_append_drop])

theorem onOneLine_stopAt (h : StandsAt source s pos) : source.OnOneLine pos (s.stopAt pos n) ↔
    ∀ c ∈ s.take n, isLineTerminator c = false := by
  simp [OnOneLine, part?_stopAt h]

theorem endsAt_inlineComment_iff (h : StandsAt source s pos) :
    source.EndsAt Trivia.inlineComment pos stop ↔
      source.EndsAt Trivia.blockComment pos stop ∧ source.OnOneLine pos stop := by
  simp only [endsAt_iff h, Trivia.inlineComment_eq_some_iff]
  constructor
  · rintro ⟨n, ⟨hblock, hline⟩, rfl⟩
    exact ⟨⟨n, hblock, rfl⟩, (onOneLine_stopAt h).2 hline⟩
  · rintro ⟨⟨n, hblock, rfl⟩, hline⟩
    exact ⟨n, ⟨hblock, (onOneLine_stopAt h).1 hline⟩, rfl⟩

end Text

/-- The two ways to skip trivia at an offset of a document. -/
structure TriviaModesAgree (source : Text) (pos : Nat) : Prop where
  comment : ∀ stop, source.EndsAt Trivia.inlineComment pos stop ↔
    source.EndsAt Trivia.blockComment pos stop ∧ source.OnOneLine pos stop
  onOneLine : source.OnOneLine pos (source.after Trivia.skipInline pos)
  skip_skipInline : source.after Trivia.skip (source.after Trivia.skipInline pos) =
    source.after Trivia.skip pos
  skip_skip : source.after Trivia.skip (source.after Trivia.skip pos) = source.after Trivia.skip pos
  skipInline_skipInline : source.after Trivia.skipInline (source.after Trivia.skipInline pos) =
    source.after Trivia.skipInline pos
  /-- What is skipped is trivia, and no more of it follows. -/
  skipped : ∃ t s, part? source pos (source.after Trivia.skip pos) = some t ∧
    source.dropBytes? (source.after Trivia.skip pos) = some s ∧ TriviaText s t ∧ NoTrivia s
  /-- None of the four recognisers matches behind what is skipped. -/
  unmatched : ∀ recognize ∈ [Trivia.space, Trivia.lineEnd, Trivia.blockComment, Trivia.lineComment],
    ∀ stop, ¬ source.EndsAt recognize (source.after Trivia.skip pos) stop
  /-- The same offsets are found by going through the document. -/
  inlineCommentAt : ∀ stop, (Offsets.inlineComment source pos).run = .ok (some stop) ↔
    source.EndsAt Trivia.inlineComment pos stop
  blockCommentAt : ∀ stop, (Offsets.blockComment source pos).run = .ok (some stop) ↔
    source.EndsAt Trivia.blockComment pos stop
  skipAt : Offsets.skip source pos = .ok (source.after Trivia.skip pos)
  skipInlineAt : Offsets.skipInline source pos = .ok (source.after Trivia.skipInline pos)

theorem triviaModesAgree (source : String) (pos : Nat) (h : Boundary source.toList pos) :
    TriviaModesAgree source.toList pos := by
  obtain ⟨s, hs⟩ := h
  have hskip : StandsAt source.toList (s.drop (Trivia.skip s))
      (Text.after source.toList Trivia.skip pos) :=
    Text.after_eq hs ▸ hs.stopAt (Trivia.skip s)
  constructor
  · exact fun stop => Text.endsAt_inlineComment_iff hs
  · rw [Text.after_eq hs, Text.onOneLine_stopAt hs]
    exact Trivia.line_of_inlineText (Trivia.inlineText_skipInline s)
  · exact Text.after_skip_skipInline hs
  · exact Text.after_after_run Trivia.unit hs
  · exact Text.after_after_run Trivia.inlineUnit hs
  · refine ⟨_, _, ?_, hskip.dropBytes?, Trivia.triviaText_skip s, Trivia.noTrivia_drop_skip s⟩
    rw [Text.after_eq hs, Text.part?_stopAt hs]
  · rintro recognize hmem stop hends
    obtain ⟨n, hn, -⟩ := (Text.endsAt_iff hskip).1 hends
    rw [Trivia.unit_eq_none_iff.1 (Trivia.unit_drop_skip s) recognize hmem] at hn
    cases hn
  · exact fun stop => Text.run_eq_some_iff_endsAt inlineComment_agrees hs
  · exact fun stop => Text.run_eq_some_iff_endsAt blockComment_agrees hs
  · rw [skip_eq hs, Text.after_eq hs]
  · rw [skipInline_eq hs, Text.after_eq hs]

/-- Behind a comment on its line stands one that goes on to the next line. -/
theorem triviaModesAgree_comments : Boundary "é/**//*/\n*/x".toList 2 ∧
    TriviaModesAgree "é/**//*/\n*/x".toList 2 := by
  have hstands : StandsAt "é/**//*/\n*/x".toList "/**//*/\n*/x".toList 2 := ⟨['é'], rfl, rfl⟩
  exact ⟨hstands.boundary, triviaModesAgree _ 2 hstands.boundary⟩

end PegGrammar
