import PegGrammar.Proofs.Reuse
import PegGrammar.Proofs.ShapeReading
import PegGrammar.Proofs.StringForms

namespace PegGrammar

open Offsets Reader

namespace ClassBody

variable {s : Text} {e : DisorderedRange}

/-- The parts at the front of the text, all in order, up to where `rest` begins. -/
inductive PartsRead : Text → List ClassPart → Text → Prop
  | nil {s : Text} : PartsRead s [] s
  | cons {s rest : Text} {u : Lexeme (Option ClassPart)} {parts : List ClassPart}
      (h : classPart s = some u) (hordered : u.value.all ClassPart.isOrdered)
      (hs : PartsRead (s.drop u.length) parts rest) : PartsRead s (u.value.toList ++ parts) rest

theorem classRange_of_disordered {u : Lexeme (Option ClassPart)} (h : classPart s = some u)
    (hdisordered : ¬ u.value.all ClassPart.isOrdered) :
    ∃ first last, classRange s = some ⟨(first, last), u.length⟩ ∧ last < first := by
  rw [classPart] at h
  split at h
  next r hr =>
    cases h
    exact ⟨r.value.1, r.value.2, hr, by simpa [ClassPart.isOrdered] using hdisordered⟩
  next =>
    obtain ⟨v, -, rfl⟩ := Option.map_eq_some_iff.1 h
    cases hv : v.value <;> simp [hv, ClassPart.isOrdered] at hdisordered

theorem partsRead_of_disordered (h : classParts s = .error e) :
    ∃ parts rest first last, PartsRead s parts (e.text ++ rest) ∧ s = e.before ++ (e.text ++ rest) ∧
      classRange (e.text ++ rest) = some ⟨(first, last), e.text.length⟩ ∧ last < first := by
  fun_induction classParts s generalizing e with
  | case1 | case2 | case3 => cases h
  | case4 c s u hu hordered e' he ih =>
      cases h
      obtain ⟨parts, rest, first, last, hread, hs, hrange, hlt⟩ := ih he
      have hdrop : s.drop (u.length - 1) = (c :: s).drop u.length := by
        obtain ⟨n, hn⟩ : ∃ n, u.length = n + 1 :=
          ⟨u.length - 1, by have := length_pos_of_classPart hu; omega⟩
        rw [hn, Nat.add_sub_cancel, List.drop_succ_cons]
      refine ⟨_, rest, first, last, .cons hu hordered (hdrop ▸ hread), ?_, hrange, hlt⟩
      rw [List.append_assoc, ← hs, hdrop, List.take_append_drop]
  | case5 c s u hu hdisordered =>
      cases h
      obtain ⟨first, last, hrange, hlt⟩ := classRange_of_disordered hu hdisordered
      have hlength : ((c :: s).take u.length).length = u.length :=
        List.length_take_of_le (advances_classPart _ _ (congrArg (Option.map Lexeme.length) hu)).2
      refine ⟨[], (c :: s).drop u.length, first, last, ?_⟩
      dsimp only
      rw [List.take_append_drop, hlength]
      exact ⟨.nil, rfl, hrange, hlt⟩

theorem exists_ends {text rest : Text} {first last : Char}
    (h : classRange (text ++ rest) = some ⟨(first, last), text.length⟩) :
    ∃ u w, text = u ++ '-' :: w ∧
      classChar (u ++ ('-' :: (w ++ rest))) = some ⟨some first, u.length⟩ ∧
      classChar (w ++ rest) = some ⟨some last, w.length⟩ := by
  obtain ⟨n, t, m, hfirst, hdash, hlast, hlength⟩ := classRange_cases h
  dsimp only at hfirst hlast hlength
  have hn : ((text ++ rest).take n).length = n :=
    List.length_take_of_le (length_le_of_classChar hfirst)
  have hm : (t.take m).length = m := List.length_take_of_le (length_le_of_classChar hlast)
  have hsplit : text ++ rest = (text ++ rest).take n ++ '-' :: t := by
    rw [← hdash, List.take_append_drop]
  have hparts : text ++ rest = ((text ++ rest).take n ++ '-' :: t.take m) ++ t.drop m := by
    rw [List.append_assoc, List.cons_append, List.take_append_drop, ← hsplit]
  have hsize : text.length = ((text ++ rest).take n ++ '-' :: t.take m).length := by
    rw [List.length_append, List.length_cons, hn, hm]
    omega
  obtain ⟨htext, hrest⟩ := List.append_inj hparts hsize
  refine ⟨(text ++ rest).take n, t.take m, htext, ?_, ?_⟩
  · rw [hn, hrest, List.take_append_drop, ← hrest, ← hsplit, hfirst]
  · rw [hm, hrest, List.take_append_drop, hlast]

theorem parts_of_closedParts {o : Text} {inverted : Bool}
    (h : closedParts o inverted s = .error e) :
    ∃ before, classParts s = .error ⟨before, e.text⟩ ∧ e.before = o ++ before := by
  rw [closedParts] at h
  split at h
  next e' he =>
    cases h
    exact ⟨e'.before, he, rfl⟩
  next => split at h <;> cases h

theorem opening_of_disordered (h : classBody s = .error e) :
    ∃ inverted s' before, s = opening inverted ++ s' ∧ classParts s' = .error ⟨before, e.text⟩ ∧
      e.before = opening inverted ++ before := by
  revert h
  fun_cases classBody s with
  | case1 s =>
      intro h
      obtain ⟨before, hparts, hbefore⟩ := parts_of_closedParts h
      exact ⟨true, s, before, rfl, hparts, hbefore⟩
  | case2 s =>
      intro h
      obtain ⟨before, hparts, hbefore⟩ := parts_of_closedParts h
      exact ⟨false, s, before, rfl, hparts, hbefore⟩
  | case3 =>
      intro h
      cases h

end ClassBody

/-- A range is written in the document as two characters of a class with a dash between them, `first`
behind `last`. -/
structure RangeWritten (source text : Text) (range : ByteRange) (first last : Char) : Prop where
  slice : part? source range.start range.stop = some text
  ends : ∃ u w, text = u ++ '-' :: w ∧
    source.Decodes ClassBody.classChar (some first) ⟨range.start, range.start + u.byteSize⟩ ∧
    source.Decodes ClassBody.classChar (some last) ⟨range.start + u.byteSize + 1, range.stop⟩ ∧
    ClassCharText (some '-') u (some first) ∧
    ClassCharText ((source.dropBytes? range.stop).bind List.head?) w (some last)
  disordered : last < first

theorem rangeWritten_of_classRange {source text rest : Text} {pos : Nat} {first last : Char}
    (hstands : StandsAt source (text ++ rest) pos)
    (h : ClassBody.classRange (text ++ rest) = some ⟨(first, last), text.length⟩)
    (hlt : last < first) :
    RangeWritten source text ⟨pos, pos + text.byteSize⟩ first last := by
  obtain ⟨u, w, rfl, hfirst, hlast⟩ := ClassBody.exists_ends h
  have hu := ClassBody.classCharText_of_classChar hfirst
  have hw := ClassBody.classCharText_of_classChar hlast
  rw [List.drop_left, List.take_left] at hu hw
  have hbehind := hstands.append
  rw [List.append_assoc] at hstands
  have hlaststands : StandsAt source (w ++ rest) (pos + u.byteSize + 1) := hstands.append.tail
  refine ⟨part?_eq (by rwa [List.append_assoc]), ⟨u, w, rfl, ?_, ?_, hu, ?_⟩, hlt⟩
  · exact (Text.decodes_iff hstands).2 ⟨u.length, hfirst, Text.stopAt_length ..⟩
  · refine (Text.decodes_iff hlaststands).2 ⟨w.length, hlast, ?_⟩
    have hdash : '-'.utf8Size = 1 := rfl
    rw [Text.stopAt_length, Text.byteSize_append, Text.byteSize_cons, hdash]
    simp only [Nat.add_assoc]
  · rwa [hbehind.dropBytes?]

/-- A range in the wrong order stands in a class that is opened at `pos`. -/
structure DisorderedAt (source : Text) (text : String) (range : ByteRange) (pos : Nat) : Prop where
  written : ∃ first last, RangeWritten source text.toList range first last
  /-- Between the opening bracket and the range, all parts of the class are in order. -/
  opened : ∃ inverted body parts rest,
    source.dropBytes? pos = some (ClassBody.opening inverted ++ body) ∧
      ClassBody.PartsRead body parts rest ∧ source.dropBytes? range.start = some rest
  /-- Reading the class from its bracket on comes upon this range. -/
  read : ∃ before, (source.dropBytes? pos).map ClassBody.classBody = some (.error ⟨before, text.toList⟩) ∧
    range.start = pos + before.byteSize
  /-- The same, going through the document by offsets. -/
  readAt : Offsets.classBody source pos = .ok (.error ⟨text, range⟩)

theorem disorderedAt_of_classBody {source s : Text} {e : DisorderedRange} {pos : Nat}
    (hstands : StandsAt source s pos) (h : ClassBody.classBody s = .error e) :
    DisorderedAt source (String.ofList e.text)
      ⟨pos + e.before.byteSize, pos + e.before.byteSize + e.text.byteSize⟩ pos := by
  obtain ⟨inverted, body, before, rfl, hparts, hbefore⟩ := ClassBody.opening_of_disordered h
  obtain ⟨parts, rest, first, last, hread, rfl, hrange, hlt⟩ :=
    ClassBody.partsRead_of_disordered hparts
  dsimp only at hread hrange
  have hfound : StandsAt source (e.text ++ rest) (pos + e.before.byteSize) := by
    rw [hbefore]
    apply StandsAt.append
    rwa [List.append_assoc]
  constructor
  · rw [String.toList_ofList]
    exact ⟨first, last, rangeWritten_of_classRange hfound hrange hlt⟩
  · exact ⟨inverted, _, parts, _, hstands.dropBytes?, hread, hfound.dropBytes?⟩
  · refine ⟨e.before, ?_, rfl⟩
    rw [hstands.dropBytes?, Option.map_some, h, String.toList_ofList]
  · rw [classBody_eq hstands, h]
    rfl

/-- Where the reading of a document has stopped, there is the class of the range. -/
theorem disorderedAt_of_readDocument {source : Text} {st st' : State} {text : String}
    {range : ByteRange} (hst : st.At source)
    (h : st.readDocument source = (.error (.disorderedRange text range), st')) :
    DisorderedAt source text range st'.offset := by
  rw [State.readDocument] at h
  split at h
  next => split at h <;> cases h
  next => cases h
  next hread =>
    cases h
    obtain ⟨log, hlog, -⟩ := Traced.document st (Nat.le_refl _)
    obtain ⟨t, hpass, hclass⟩ := hlog.classBody_of_disordered hread
    obtain ⟨-, e, he, rfl, rfl⟩ := classBody_eq_disordered hclass
    exact disorderedAt_of_classBody (hst.passes hpass) he

theorem Text.range_of_spanAt {source : Text} {tag : SourceTag} {range : ByteRange} {s : Span}
    (hrange : Inside source range) (h : source.spanAt tag range = some s) : s.range = range := by
  obtain ⟨s', -, -, ⟨hs', hspan⟩, -⟩ := Locator.gives_spanAt tag hrange _ (Locator.exact_ofText source)
  rw [h] at hspan
  cases hspan
  exact hs'

theorem Parser.Stands.disorderedAt {source : Text} {tag : SourceTag} {p : Parser}
    (h : p.Stands source tag) {text : String} {location : Span}
    (herror : p.next.1 = .error (.disorderedRange text location)) :
    DisorderedAt source text location.range p.next.2.state.offset ∧
      source.spanAt tag location.range = some location := by
  obtain ⟨-, hstate, htells⟩ := h.next
  rw [hstate]
  cases hread : p.state.readDocument source with
  | mk r st' =>
      rw [hread] at htells
      cases r with
      | ok g₀ =>
          obtain ⟨g, hok, -⟩ := htells
          rw [herror] at hok
          cases hok
      | error e =>
          obtain ⟨e', he', hspan⟩ := htells
          rw [herror] at he'
          cases he'
          cases e with
          | disorderedRange text' range =>
              obtain ⟨s, hs, ⟨⟩⟩ := Option.bind_eq_some_iff.1 hspan
              have hinside := inside_of_readDocument h.state h.deepest hread rfl
              rw [Text.range_of_spanAt hinside hs]
              exact ⟨disorderedAt_of_readDocument h.state hread, hs⟩
          | unexpected =>
              obtain ⟨_, -, ⟨⟩⟩ := Option.bind_eq_some_iff.1 hspan
          | unknownStartRule | misplaced => cases hspan

namespace Expr

variable {σ : Type} {N : String → Prop}

def InOrder : Expr σ → Prop
  | .charClass parts _ _ _ => ∀ p ∈ parts, p.isOrdered = true
  | _ => True

mutual

theorem every_inOrder_of_shaped : (e : Expr σ) → e.Shaped N → e.Every InOrder
  | .named .., h => h.elim
  | .choice es _, h => ⟨trivial, everyList_inOrder_of_shaped es h.2.2⟩
  | .action e _ _ _, h => ⟨trivial, every_inOrder_of_shaped e h.2.1⟩
  | .sequence es _, h => ⟨trivial, everyList_inOrder_of_shaped es h.2.2⟩
  | .labeled _ _ _ e _, h => ⟨trivial, every_inOrder_of_shaped e h.2.2.2⟩
  | .prefixed _ e _, h => ⟨trivial, every_inOrder_of_shaped e h.2⟩
  | .suffixed _ e _, h => ⟨trivial, every_inOrder_of_shaped e h.2⟩
  | .group e _, h => ⟨trivial, every_inOrder_of_shaped e h.2.2⟩
  | .predicate .., _ => trivial
  | .ruleRef .., _ => trivial
  | .literal .., _ => trivial
  | .charClass .., h => h
  | .any _, _ => trivial

theorem everyList_inOrder_of_shaped : (es : List (Expr σ)) → ShapedList N es → EveryList InOrder es
  | [], _ => trivial
  | e :: es, h => ⟨every_inOrder_of_shaped e h.1, everyList_inOrder_of_shaped es h.2⟩

end

end Expr

theorem Rule.Shaped.every_inOrder {σ : Type} {N : String → Prop} {r : Rule σ} (h : r.Shaped N) :
    r.expression.Every Expr.InOrder := by
  have hbody := Expr.every_inOrder_of_shaped r.body h.body
  obtain ⟨n, j, e, k⟩ := r
  cases e with
  | named => exact ⟨trivial, hbody⟩
  | _ => exact hbody

/-- What parsing says about class ranges. -/
structure RangesChecked (options : ParseOptions) (source : String) : Prop where
  /-- The range that parsing refuses stands where the parser says, in the class at which it has
  stopped. -/
  refused : ∀ text location, parseWith options source = .error (.disorderedRange text location) →
    DisorderedAt source.toList text location.range
      (Parser.ofString source options.source).next.2.state.offset
  located : ∀ text location, parseWith options source = .error (.disorderedRange text location) →
    Text.spanAt source.toList options.source location.range = some location
  parsed : ∀ g, parseWith options source = .ok g →
    ∀ r ∈ g.rules, r.expression.Every Expr.InOrder

theorem rangesChecked (options : ParseOptions) (source : String) : RangesChecked options source := by
  have hcall {text : String} {location : Span}
      (h : parseWith options source = .error (.disorderedRange text location)) :
      (Parser.ofString source options.source).next.1 = .error (.disorderedRange text location) := by
    rw [parseWith] at h
    split at h
    next => exact h
    next => cases h
  have hstands := Parser.stands_ofString source options.source
  refine ⟨fun text location h => ?_, fun text location h => ?_, fun g h r hr => ?_⟩
  · exact (hstands.disorderedAt (hcall h)).1
  · exact (hstands.disorderedAt (hcall h)).2
  · have hshaped : g.Shaped fun _ => True := shaped_of_parseWith (fun _ => trivial) h
    exact (hshaped.rules r hr).every_inOrder

/-- The class need not be closed, and the error has the text as it is written. -/
example : (match parse "a = [x\\x62-a" with
    | .error (.disorderedRange text location) => text == "\\x62-a" && location.range == ⟨6, 12⟩
    | _ => false) = true := by decide +kernel

end PegGrammar
