import Mathlib.Data.List.Destutter
import Mathlib.Data.List.Sort
import PegGrammar.Proofs.FurthestFailure
import PegGrammar.Proofs.Rereading.Names

namespace PegGrammar

namespace Expectation

def readEscaped : List Char → Option (Char × List Char)
  | '\\' :: '0' :: s => some ('\x00', s)
  | '\\' :: 'x' :: s => (Escape.hexChar? 2 s).map (·, s.drop 2)
  | '\\' :: c :: s => (Escape.simple? c).map (·, s)
  | c :: s => some (c, s)
  | [] => none

theorem readEscaped_escapeChar (c : Char) (s : List Char) :
    readEscaped (escapeChar c ++ s) = some (c, s) := by
  fun_cases escapeChar c with
  | case1 | case2 | case3 | case4 | case5 | case6 => rfl
  | case7 c _ _ _ _ _ _ hc =>
      have hbyte : c.toNat < 16 ^ 2 := by
        simp only [isControl, Bool.or_eq_true, Bool.and_eq_true, decide_eq_true_eq] at hc
        omega
      rw [List.cons_append, List.cons_append, readEscaped, Escape.hexChar?_upper hbyte,
        List.drop_left' (Escape.length_upper 2 _)]
      rfl
  | case8 c hslash =>
      rw [List.singleton_append, readEscaped]
      · exact fun _ h _ => hslash h
      · exact fun _ h _ => hslash h
      · exact fun _ _ h _ => hslash h

theorem flatMap_escapeChar_injective : Function.Injective (List.flatMap escapeChar) := by
  intro t
  induction t with
  | nil =>
      intro u h
      cases u with
      | nil => rfl
      | cons c u =>
          have hread := readEscaped_escapeChar c (u.flatMap escapeChar)
          rw [← List.flatMap_cons, ← h] at hread
          cases hread
  | cons c t ih =>
      intro u h
      have hread := readEscaped_escapeChar c (t.flatMap escapeChar)
      rw [← List.flatMap_cons, h] at hread
      cases u with
      | nil => cases hread
      | cons d u =>
          rw [List.flatMap_cons, readEscaped_escapeChar] at hread
          obtain ⟨rfl, hrest⟩ := Prod.mk.inj (Option.some.inj hread)
          rw [ih hrest.symm]

/-- Any text may be expected, and any construct that reading a document names. -/
def Recordable : Expectation → Prop
  | .named name => .named name ∈ vocabulary
  | .literal _ | .any | .endOfInput => True

instance : DecidablePred Recordable
  | .named name => inferInstanceAs (Decidable (.named name ∈ vocabulary))
  | .literal _ | .any | .endOfInput => isTrue trivial

theorem Recordable.literal_or_mem {e : Expectation} (h : e.Recordable) :
    (∃ text, e = .literal text) ∨ e ∈ vocabulary := by
  cases e with
  | literal text => exact .inl ⟨text, rfl⟩
  | named name => exact .inr h
  | any | endOfInput => exact .inr (by decide)

theorem exists_text_of_quote {e : Expectation} (he : e ∈ vocabulary)
    (h : e.describe.toList.head? = some '"') : ∃ text, e = .literal text := by
  have hquote : ∀ e ∈ vocabulary, e.describe.toList.head? = some '"' →
      (match e with | .literal _ => true | _ => false) = true := by
    decide +kernel
  cases e with
  | literal text => exact ⟨text, rfl⟩
  | named | any | endOfInput => cases hquote _ he h

theorem Recordable.eq_literal {e : Expectation} {text : String} (he : e.Recordable)
    (h : e.describe = (literal text).describe) : e = .literal text := by
  have hquote : e.describe.toList.head? = some '"' := by
    rw [h, describe, quoted, String.toList_ofList]
    rfl
  obtain ⟨text', rfl⟩ : ∃ text, e = .literal text :=
    he.literal_or_mem.elim id fun hmem => exists_text_of_quote hmem hquote
  have hchars := List.append_cancel_right (List.cons.inj (String.ofList_inj.1 h)).2
  rw [String.toList_inj.1 (flatMap_escapeChar_injective hchars)]

/-- Whatever may be expected is known from its description. -/
theorem Recordable.eq_of_describe {a b : Expectation} (ha : a.Recordable) (hb : b.Recordable)
    (h : a.describe = b.describe) : a = b := by
  rcases ha.literal_or_mem with ⟨text, rfl⟩ | ha'
  · exact (hb.eq_literal h.symm).symm
  · rcases hb.literal_or_mem with ⟨text, rfl⟩ | hb'
    · exact ha.eq_literal h
    · exact describe_injOn ha' hb' h

theorem eq_of_pairwise_lt {l l' : List Expectation} (hl : l.Pairwise (·.describe < ·.describe))
    (hl' : l'.Pairwise (·.describe < ·.describe)) (h : ∀ e, e ∈ l ↔ e ∈ l') : l = l' := by
  have : Std.Irrefl fun a b : Expectation => a.describe < b.describe := ⟨fun _ => String.lt_irrefl _⟩
  have : Std.Antisymm fun a b : Expectation => a.describe < b.describe :=
    ⟨fun _ _ hab hba => (String.lt_asymm hab hba).elim⟩
  exact hl.eq_of_mem_iff hl' h

theorem mem_destutter {e : Expectation} : ∀ l : List Expectation, e ∈ l.destutter (· ≠ ·) ↔ e ∈ l
  | [] => Iff.rfl
  | a :: l => by
      rw [List.destutter_cons']
      induction l generalizing a with
      | nil => rfl
      | cons b l ih =>
          by_cases hab : a = b
          · subst hab
            rw [List.destutter'_cons_neg _ (not_not.2 rfl), ih]
            simp
          · rw [List.destutter'_cons_pos _ hab, List.mem_cons, ih, ← List.mem_cons]

end Expectation

/-- A record in which everything is kept that was expected at the deepest offset, each time that it was
recorded, the latest at the end. -/
structure FullRecord where
  deepest : Nat := 0
  recorded : List Expectation := []
  deriving DecidableEq, Repr

namespace FullRecord

def record (f : FullRecord) (offset : Nat) (e : Expectation) : FullRecord :=
  if offset < f.deepest then f
  else if f.deepest < offset then ⟨offset, [e]⟩
  else ⟨f.deepest, f.recorded ++ [e]⟩

def recordAll (f : FullRecord) (log : List Failure) : FullRecord :=
  log.foldl (fun f x => f.record x.offset x.expectation) f

def expected (f : FullRecord) : List Expectation :=
  (f.recorded.mergeSort fun a b => a.describe ≤ b.describe).destutter (· ≠ ·)

/-- The record that keeps each thing once knows as much. -/
structure Shows (f : FullRecord) (f' : Failures) : Prop where
  deepest : f.deepest = f'.deepest
  recorded : ∀ e, e ∈ f.recorded ↔ e ∈ f'.recorded

variable {f : FullRecord} {f' : Failures} {log : List Failure} {e : Expectation}

theorem Shows.record (h : f.Shows f') (offset : Nat) (e : Expectation) :
    (f.record offset e).Shows (f'.record offset e) := by
  rw [FullRecord.record, Failures.record, h.deepest]
  split
  next => exact h
  next =>
    split
    next => exact ⟨rfl, fun x => Iff.rfl⟩
    next =>
      split
      next he =>
        refine ⟨rfl, fun x => ?_⟩
        rw [List.mem_append, List.mem_singleton, h.recorded]
        exact or_iff_left_of_imp fun hx => hx ▸ he
      next =>
        refine ⟨rfl, fun x => ?_⟩
        rw [List.mem_append, List.mem_singleton, h.recorded, List.mem_cons, or_comm]

theorem Shows.recordAll (h : f.Shows f') (log : List Failure) :
    (f.recordAll log).Shows (f'.recordAll log) := by
  induction log generalizing f f' with
  | nil => exact h
  | cons x log ih => exact ih (h.record x.offset x.expectation)

theorem mem_expected : e ∈ f.expected ↔ e ∈ f.recorded := by
  rw [expected, Expectation.mem_destutter, List.mem_mergeSort]

theorem pairwise_expected
    (hinj : ∀ a ∈ f.recorded, ∀ b ∈ f.recorded, a.describe = b.describe → a = b) :
    f.expected.Pairwise (·.describe < ·.describe) := by
  refine Expectation.pairwise_lt ?_ (List.isChain_destutter _ _) fun a ha b hb => ?_
  · exact (Expectation.pairwise_mergeSort f.recorded).sublist (List.destutter_sublist _ _)
  · exact hinj a (mem_expected.1 ha) b (mem_expected.1 hb)

end FullRecord

namespace Failures

variable {log log' : List Failure}

theorem deepest_le_of_subset (h : log ⊆ log') :
    (recordAll {} log).deepest ≤ (recordAll {} log').deepest := by
  rcases deepest_recordAll_mem {} log with hzero | ⟨x, hx, hdeepest⟩
  · rw [hzero]
    exact Nat.zero_le _
  · rw [hdeepest]
    exact offset_le_recordAll (h hx)

theorem deepest_eq_max (log : List Failure) :
    (recordAll {} log).deepest = (log.map (·.offset)).max?.getD 0 := by
  cases log with
  | nil => rfl
  | cons y log =>
      have hmax : ((y :: log).map (·.offset)).max? = some (recordAll {} (y :: log)).deepest := by
        refine List.max?_eq_some_iff.2 ⟨?_, fun n hn => ?_⟩
        · rcases deepest_recordAll_mem {} (y :: log) with hzero | ⟨x, hx, hdeepest⟩
          · have hle := offset_le_recordAll (f := {}) (List.mem_cons_self (a := y) (l := log))
            rw [hzero] at hle ⊢
            exact List.mem_map.2 ⟨y, List.mem_cons_self, Nat.le_zero.1 hle⟩
          · exact hdeepest ▸ List.mem_map_of_mem hx
        · obtain ⟨x, hx, rfl⟩ := List.mem_map.1 hn
          exact offset_le_recordAll hx
      rw [hmax]
      rfl

theorem mem_expected_recordAll {e : Expectation} :
    e ∈ (recordAll {} log).expected ↔ ⟨(recordAll {} log).deepest, e⟩ ∈ log := by
  rw [mem_expected, mem_recordAll]
  exact or_iff_right fun he => nomatch he.2

theorem describe_inj_of_recordable (h : ∀ x ∈ log, x.expectation.Recordable) :
    ∀ a ∈ (recordAll {} log).recorded, ∀ b ∈ (recordAll {} log).recorded,
      a.describe = b.describe → a = b := by
  intro a ha b hb hab
  have hlog {e : Expectation} (he : e ∈ (recordAll {} log).recorded) : e.Recordable :=
    h _ (mem_expected_recordAll.1 (mem_expected.2 he))
  exact (hlog ha).eq_of_describe (hlog hb) hab

end Failures

/-- What a record of failures comes to. -/
structure RecordedLog (log : List Failure) : Prop where
  deepest : (Failures.recordAll {} log).deepest = (log.map (·.offset)).max?.getD 0
  mem_expected : ∀ e, e ∈ (Failures.recordAll {} log).expected ↔
    ⟨(Failures.recordAll {} log).deepest, e⟩ ∈ log
  /-- In particular, nothing is reported twice. -/
  increasing : (Failures.recordAll {} log).expected.Pairwise (·.describe < ·.describe)
  reordered : ∀ log', log'.Perm log →
    (Failures.recordAll {} log').deepest = (Failures.recordAll {} log).deepest ∧
      (Failures.recordAll {} log').expected = (Failures.recordAll {} log).expected
  /-- It is the same if repetitions are kept until the report is made. -/
  full : (FullRecord.recordAll {} log).deepest = (Failures.recordAll {} log).deepest ∧
    (FullRecord.recordAll {} log).expected = (Failures.recordAll {} log).expected

/-- Whatever is recorded in whatever order, the record comes to what was expected at the deepest
offset. -/
theorem recordedLog {log : List Failure} (h : ∀ x ∈ log, x.expectation.Recordable) :
    RecordedLog log := by
  have hincreasing {log : List Failure} (h : ∀ x ∈ log, x.expectation.Recordable) :
      (Failures.recordAll {} log).expected.Pairwise (·.describe < ·.describe) :=
    Failures.pairwise_expected (Failures.nodup_recordAll List.nodup_nil)
      (Failures.describe_inj_of_recordable h)
  refine ⟨Failures.deepest_eq_max log, fun _ => Failures.mem_expected_recordAll, hincreasing h,
    fun log' hperm => ?_, ?_⟩
  · have hdeepest := Nat.le_antisymm (Failures.deepest_le_of_subset hperm.subset)
      (Failures.deepest_le_of_subset hperm.symm.subset)
    refine ⟨hdeepest, ?_⟩
    refine Expectation.eq_of_pairwise_lt (hincreasing fun x hx => h x (hperm.mem_iff.1 hx))
      (hincreasing h) fun e => ?_
    rw [Failures.mem_expected_recordAll, Failures.mem_expected_recordAll, hdeepest, hperm.mem_iff]
  · have hshows : (FullRecord.recordAll {} log).Shows (Failures.recordAll {} log) :=
      FullRecord.Shows.recordAll ⟨rfl, fun _ => Iff.rfl⟩ log
    refine ⟨hshows.deepest, ?_⟩
    refine Expectation.eq_of_pairwise_lt (FullRecord.pairwise_expected fun a ha b hb => ?_)
      (hincreasing h) fun e => ?_
    · exact Failures.describe_inj_of_recordable h a ((hshows.recorded a).1 ha) b
        ((hshows.recorded b).1 hb)
    · rw [FullRecord.mem_expected, hshows.recorded, Failures.mem_expected]

theorem recordedLog_repeated :
    (∀ x ∈ [⟨3, .literal "="⟩, ⟨5, .named "identifier"⟩, ⟨2, .any⟩, ⟨5, .literal "\"\x00"⟩,
        ⟨5, .named "identifier"⟩, ⟨5, .endOfInput⟩, ⟨5, .literal "\"\x00"⟩],
      (x : Failure).expectation.Recordable) ∧
    RecordedLog [⟨3, .literal "="⟩, ⟨5, .named "identifier"⟩, ⟨2, .any⟩, ⟨5, .literal "\"\x00"⟩,
      ⟨5, .named "identifier"⟩, ⟨5, .endOfInput⟩, ⟨5, .literal "\"\x00"⟩] :=
  ⟨by decide, recordedLog (by decide)⟩

end PegGrammar
