import PegGrammar.Proofs.Offsets.Calls

namespace PegGrammar

theorem Escape.advances_lineContinuation : Advances lineContinuation := by
  intro s n h
  revert h
  fun_cases lineContinuation s with
  | case1 s =>
      intro h
      obtain ⟨m, hm, rfl⟩ := Option.map_eq_some_iff.1 h
      exact ⟨Nat.succ_pos _, Nat.succ_le_succ (Trivia.length_le_of_lineEnd hm)⟩
  | case2 => rintro ⟨⟩

namespace Offsets

inductive Recogniser where
  | space | lineEnd | blockComment | inlineComment | lineComment | comment
  | literal (text : Text) (nonempty : text ≠ [])
  | escapeSequence | lineContinuation | name | stringLiteral | codeBlock | classBody

namespace Recogniser

/-- The range that is reported when a recogniser is asked at an offset. A block of code reports the code
in it, and a class with a range in the wrong order that range. -/
def report (source : Text) (pos : Nat) : Recogniser → Except Fault (Option ByteRange)
  | .space => (ByteRange.mk pos <$> Offsets.space source pos).run
  | .lineEnd => (ByteRange.mk pos <$> Offsets.lineEnd source pos).run
  | .blockComment => (ByteRange.mk pos <$> Offsets.blockComment source pos).run
  | .inlineComment => (ByteRange.mk pos <$> Offsets.inlineComment source pos).run
  | .lineComment => (ByteRange.mk pos <$> Offsets.lineComment source pos).run
  | .comment => (ByteRange.mk pos <$> Offsets.comment source pos).run
  | .literal text _ => .ok ((literalAt? source pos text).map (ByteRange.mk pos))
  | .escapeSequence => ((ByteRange.mk pos ·.2) <$> Offsets.escapeSequence source pos).run
  | .lineContinuation => (ByteRange.mk pos <$> Offsets.lineContinuation source pos).run
  | .name => ((ByteRange.mk pos ·.2) <$> Offsets.name source pos).run
  | .stringLiteral => ((ByteRange.mk pos ·.2) <$> Offsets.stringLiteral source pos).run
  | .codeBlock => (Prod.snd <$> Offsets.codeBlock source pos).run
  | .classBody => do
    match ← Offsets.classBody source pos with
    | .ok body => return body.map (ByteRange.mk pos ·.2)
    | .error e => return some e.range

def ahead (s : Text) (pos : Nat) : Recogniser → Option ByteRange
  | .space => (Trivia.space s).map (s.rangeAt pos)
  | .lineEnd => (Trivia.lineEnd s).map (s.rangeAt pos)
  | .blockComment => (Trivia.blockComment s).map (s.rangeAt pos)
  | .inlineComment => (Trivia.inlineComment s).map (s.rangeAt pos)
  | .lineComment => (Trivia.lineComment s).map (s.rangeAt pos)
  | .comment => (Trivia.comment s).map (s.rangeAt pos)
  | .literal text _ => if text.isPrefixOf s then some ⟨pos, pos + text.byteSize⟩ else none
  | .escapeSequence => (Escape.escapeSequence s).map fun l => s.rangeAt pos l.length
  | .lineContinuation => (Escape.lineContinuation s).map (s.rangeAt pos)
  | .name => (Name.name s).map fun l => s.rangeAt pos l.length
  | .stringLiteral => (StringLiteral.stringLiteral s).map fun l => s.rangeAt pos l.length
  | .codeBlock => (CodeBlock.codeBlock s).map fun code => ⟨pos + 1, pos + 1 + Text.byteSize code⟩
  | .classBody =>
    match ClassBody.classBody s with
    | .ok body => body.map fun l => s.rangeAt pos l.length
    | .error e => some (invalidAt pos e).range

end Recogniser

variable {source s : Text} {pos : Nat}

/-- Asked at an offset, a recogniser reports what it finds in the text there. -/
theorem Recogniser.report_eq (r : Recogniser) (source : Text) (pos : Nat) :
    r.report source pos = .ok ((source.dropBytes? pos).bind fun s => r.ahead s pos) := by
  cases r with
  | space => exact (space_agrees.map ByteRange.mk).run_eq pos
  | lineEnd => exact (lineEnd_agrees.map ByteRange.mk).run_eq pos
  | blockComment => exact (blockComment_agrees.map ByteRange.mk).run_eq pos
  | inlineComment => exact (inlineComment_agrees.map ByteRange.mk).run_eq pos
  | lineComment => exact (lineComment_agrees.map ByteRange.mk).run_eq pos
  | comment => exact (comment_agrees.map ByteRange.mk).run_eq pos
  | escapeSequence => exact (escapeSequence_agrees.map fun pos l => ByteRange.mk pos l.2).run_eq pos
  | lineContinuation => exact (lineContinuation_agrees.map ByteRange.mk).run_eq pos
  | name => exact (name_agrees.map fun pos l => ByteRange.mk pos l.2).run_eq pos
  | stringLiteral => exact (stringLiteral_agrees.map fun pos l => ByteRange.mk pos l.2).run_eq pos
  | codeBlock => exact (codeBlock_agrees.map fun _ => Prod.snd).run_eq pos
  | literal text =>
      rw [report]
      by_cases hpos : Boundary source pos
      · obtain ⟨s, hs⟩ := hpos
        rw [literalAt?_eq hs, hs.dropBytes?, Option.bind_some, ahead]
        split <;> rfl
      · rw [literalAt?_eq_none hpos, dropBytes?_eq_none hpos]
        rfl
  | classBody =>
      rw [report]
      by_cases hpos : Boundary source pos
      · obtain ⟨s, hs⟩ := hpos
        rw [classBody_eq hs, hs.dropBytes?, Option.bind_some, ahead]
        cases ClassBody.classBody s with
        | error e => rfl
        | ok body => cases body <;> rfl
      · rw [classBody_of_not_boundary hpos, dropBytes?_eq_none hpos]
        rfl

/-- A range of the document that is reported at `pos`. -/
structure Reported (source : Text) (pos : Nat) (r : ByteRange) : Prop where
  part : IsPart source pos r.stop
  start_boundary : Boundary source r.start
  le : pos ≤ r.start
  start_le : r.start ≤ r.stop

namespace Reported

variable {range : ByteRange}

theorem of_append {t u : Text} (h : StandsAt source (t ++ (u ++ s)) pos) (hne : t ++ u ≠ []) :
    Reported source pos ⟨pos + t.byteSize, pos + t.byteSize + u.byteSize⟩ := by
  have hwhole : StandsAt source (t ++ u ++ s) pos := by rwa [List.append_assoc]
  have hpart := hwhole.isPart (List.length_pos_iff.2 hne) (List.prefix_append _ s).length_le
  rw [Text.stopAt_length, Text.byteSize_append, ← Nat.add_assoc] at hpart
  exact ⟨hpart, h.append.boundary, Nat.le_add_right _ _, Nat.le_add_right _ _⟩

theorem rangeAt {n : Nat} (h : StandsAt source s pos) (hpos : 0 < n) (hle : n ≤ s.length) :
    Reported source pos (s.rangeAt pos n) := by
  have hpart := h.isPart hpos hle
  exact ⟨hpart, hpart.start_boundary, Nat.le_refl _, hpart.lt.le⟩

theorem of_advances {recognize : Text → Option Nat} (hadvances : Advances recognize)
    (h : StandsAt source s pos) (hr : (recognize s).map (s.rangeAt pos) = some range) :
    Reported source pos range := by
  obtain ⟨n, hn, rfl⟩ := Option.map_eq_some_iff.1 hr
  obtain ⟨hpos, hle⟩ := hadvances s n hn
  exact rangeAt h hpos hle

theorem of_lexeme {α : Type} {recognize : Text → Option (Lexeme α)}
    (hlength : ∀ l, recognize s = some l → 0 < l.length ∧ l.length ≤ s.length)
    (h : StandsAt source s pos)
    (hr : ((recognize s).map fun l => s.rangeAt pos l.length) = some range) :
    Reported source pos range := by
  obtain ⟨l, hl, rfl⟩ := Option.map_eq_some_iff.1 hr
  obtain ⟨hpos, hle⟩ := hlength l hl
  exact rangeAt h hpos hle

end Reported

theorem Recogniser.reported_of_ahead (r : Recogniser) {range : ByteRange} (h : StandsAt source s pos)
    (hr : r.ahead s pos = some range) : Reported source pos range := by
  cases r with
  | space => exact .of_advances Trivia.advances_space h hr
  | lineEnd => exact .of_advances Trivia.advances_lineEnd h hr
  | blockComment => exact .of_advances Trivia.advances_blockComment h hr
  | inlineComment => exact .of_advances Trivia.advances_inlineComment h hr
  | lineComment => exact .of_advances Trivia.advances_lineComment h hr
  | comment => exact .of_advances Trivia.advances_comment h hr
  | lineContinuation => exact .of_advances Escape.advances_lineContinuation h hr
  | escapeSequence =>
      refine .of_lexeme (fun l hl => ?_) h hr
      exact ⟨Escape.length_pos_of_escapeSequence hl, Escape.length_le_of_escapeSequence hl⟩
  | name =>
      refine .of_lexeme (fun l hl => ?_) h hr
      exact ⟨Name.length_pos_of_name hl, Name.length_le_of_name hl⟩
  | stringLiteral =>
      refine .of_lexeme (fun l hl => ?_) h hr
      exact ⟨StringLiteral.length_pos_of_stringLiteral hl, StringLiteral.length_le_of_stringLiteral hl⟩
  | literal text nonempty =>
      rw [ahead] at hr
      split at hr
      next hprefix =>
        obtain ⟨t, rfl⟩ := List.isPrefixOf_iff_prefix.1 hprefix
        cases hr
        exact .of_append (t := []) h nonempty
      next => cases hr
  | codeBlock =>
      obtain ⟨code, hcode, rfl⟩ := Option.map_eq_some_iff.1 hr
      obtain ⟨-, t, rfl⟩ := CodeBlock.codeBlock_eq_some_iff.1 hcode
      exact .of_append (t := ['{']) h (List.cons_ne_nil _ _)
  | classBody =>
      rw [ahead] at hr
      split at hr
      next body hbody =>
        obtain ⟨l, rfl, rfl⟩ := Option.map_eq_some_iff.1 hr
        obtain ⟨hpos, hle⟩ := ClassBody.length_of_classBody hbody
        exact .rangeAt h hpos hle
      next e he =>
        obtain ⟨t, rfl⟩ := ClassBody.text_of_classBody he
        cases hr
        exact .of_append h (List.append_ne_nil_of_left_ne_nil (ClassBody.before_ne_nil_of_classBody he) _)

theorem Recogniser.report_bounds (r : Recogniser) (source : Text) (pos : Nat) :
    ∀ range ∈ (source.dropBytes? pos).bind fun s => r.ahead s pos, Reported source pos range := by
  intro range hrange
  by_cases hpos : Boundary source pos
  · obtain ⟨s, hs⟩ := hpos
    rw [hs.dropBytes?] at hrange
    exact r.reported_of_ahead hs hrange
  · rw [dropBytes?_eq_none hpos] at hrange
    cases hrange

theorem loop_skipRound_bounds {unit : Nat → Checked Nat} {recognize : Text → Option Nat}
    (hunit : Agrees.Ends source unit recognize) (hadvances : Advances recognize) (pos : Nat) :
    ∃ stop, loop source (skipRound unit) () pos = .ok stop ∧
      stop = (source.dropBytes? pos).elim pos (fun s => s.stopAt pos (Trivia.run recognize s)) ∧
      (stop = pos ∨ IsPart source pos stop) := by
  by_cases hpos : Boundary source pos
  · obtain ⟨s, hs⟩ := hpos
    refine ⟨_, loop_skipRound hunit hadvances hs, ?_, ?_⟩
    · rw [hs.dropBytes?, Option.elim_some]
    · rcases Nat.eq_zero_or_pos (Trivia.run recognize s) with hzero | hrun
      · exact .inl (by rw [hzero, Text.stopAt_zero])
      · exact .inr (hs.isPart hrun (Trivia.run_le hadvances s))
  · refine ⟨pos, loop_skipRound_of_not_boundary hunit hpos, ?_, .inl rfl⟩
    rw [dropBytes?_eq_none hpos, Option.elim_none]

/-- Nothing that goes by offsets in a document ends in a fault, and it all comes to what is found in the
text ahead. -/
structure Faultless (source : String) : Prop where
  reports : ∀ (r : Recogniser) (pos : Nat), ∃ found, r.report source.toList pos = .ok found ∧
    found = (Text.dropBytes? source.toList pos).bind (r.ahead · pos) ∧
    ∀ range ∈ found, Reported source.toList pos range
  skips : ∀ pos, ∃ stop, skip source.toList pos = .ok stop ∧
    stop = (Text.dropBytes? source.toList pos).elim pos (fun s => s.stopAt pos (Trivia.skip s)) ∧
    (stop = pos ∨ IsPart source.toList pos stop)
  skipsInline : ∀ pos, ∃ stop, skipInline source.toList pos = .ok stop ∧
    stop = (Text.dropBytes? source.toList pos).elim pos (fun s => s.stopAt pos (Trivia.skipInline s)) ∧
    (stop = pos ∨ IsPart source.toList pos stop)
  parses : ∀ options, parseWith options source = .ok (PegGrammar.parseWith options source)
  /-- Any number of calls to one parser. -/
  calls : ∀ (options : ParseOptions) (n : Nat), ∃ c,
    Offsets.calls ⟨source.toList, options.source⟩ n {} =
      .ok ((List.range n).map fun k => ((Parser.ofString source options.source).after k).next.1, c)

/-- No slice, index or looked up position is outside the text or inside a character. -/
theorem faultless (source : String) : Faultless source where
  reports r pos := ⟨_, r.report_eq _ pos, rfl, r.report_bounds _ pos⟩
  skips := loop_skipRound_bounds unit_agrees Trivia.advances_unit
  skipsInline := loop_skipRound_bounds inlineUnit_agrees Trivia.advances_inlineUnit
  parses options := parseWith_eq options source
  calls options n := by
    obtain ⟨c, hcalls, -⟩ := (tracks_new source options.source).calls n
    exact ⟨c, hcalls⟩

end Offsets

end PegGrammar
