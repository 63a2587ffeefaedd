import PegGrammar.Proofs.Outcome
import PegGrammar.Proofs.Relayout.Documents

namespace PegGrammar

open Reader

/-- The text with another one put in at byte offset `n`, unless a character is there. -/
def Text.insert? (s : Text) (n : Nat) (t : Text) : Option Text :=
  (s.splitAtByte? n).map fun (a, b) => a ++ (t ++ b)

theorem Text.insert?_append (a b t : Text) :
    Text.insert? (a ++ b) a.byteSize t = some (a ++ (t ++ b)) := by
  rw [insert?, splitAtByte?_append]
  rfl

namespace Relayout

variable {C : Relayout} {a b : Text}

theorem laid_place (h : C.place = a.byteSize) :
    C.laid 0 (a ++ b) ++ C.pad (Text.byteSize (a ++ b)) = a ++ (C.blank ++ b) := by
  have hplace : C.pad a.byteSize = C.blank := if_pos h.symm
  rw [laid_append, laid_of_outside (by omega), Nat.zero_add, List.append_assoc]
  by_cases hb : b = []
  · rw [hb, List.append_nil, hplace]
    simp [laid]
  · have hpos : b.byteSize ≠ 0 := fun hzero => hb (StandsAt.eq_nil_of_byteSize_eq_zero hzero)
    rw [laid_eq hb, hplace, tight_of_clear (.inr (.inl h.le)), pad_of_ne, List.append_nil]
    rw [h, Text.byteSize_append]
    omega

end Relayout

theorem passes_document {st st' : State} {g : Grammar ByteRange}
    (h : document st = .matched g st') : ∃ t, st.Passes t st' := by
  obtain ⟨l, st₁, st₂, st₃, -, hp, htop, hinit, hrules, -⟩ := document_eq_matched h
  obtain ⟨⟨t, ht⟩, -⟩ := places_optional places_topLevelInitializer htop
  obtain ⟨⟨u, hu⟩, -⟩ := places_optional places_initializer hinit
  obtain ⟨⟨v, hv⟩, -⟩ := places_rules hrules
  exact ⟨_, hp.trans (ht.trans (hu.trans hv))⟩

/-- Spaces and line ends in front of a node, a label, a rule, an initializer or the whole document
leave its structure as it is. -/
theorem parse_insert {source t : String} {g : Grammar Span} {l : Span} (h : parse source = .ok g)
    (hl : l ∈ g.anchors)
    (ht : ∀ c ∈ t.toList, isSpace c = true ∨ isLineTerminator c = true) :
    ∃ s g', Text.insert? source.toList l.start.offset t.toList = some s ∧
      parse (String.ofList s) = .ok g' ∧ g'.strip = g.strip := by
  obtain ⟨st', hread, hrest⟩ := document_of_parseWith h
  have hmem : l.range ∈ (g.map Span.range).anchors := by
    rw [Grammar.anchors_map]
    exact List.mem_map_of_mem hl
  obtain ⟨⟨b, a, hsource, hplace⟩, -⟩ :=
    Grammar.forall_anchors _ (inside_document hread (.start _)) l.range hmem
  have hplace : l.start.offset = a.byteSize := hplace
  have hsource : source.toList = a ++ b := hsource
  rw [hplace, hsource, Text.insert?_append]
  suffices hlaid : ∃ g', parse (String.ofList (a ++ (t.toList ++ b))) = .ok g' ∧
      g'.strip = g.strip by
    obtain ⟨g', hparse, hstrip⟩ := hlaid
    exact ⟨_, g', rfl, hparse, hstrip⟩
  by_cases hblank : t.toList = []
  · refine ⟨g, ?_, rfl⟩
    rwa [hblank, List.nil_append, ← hsource, String.ofList_toList]
  · let C : Relayout := ⟨l.start.offset, t.toList, 0, ht⟩
    obtain ⟨s, hp⟩ := passes_document hread
    have hs : s = source.toList := by simpa [hrest] using hp.1.symm
    have hend : st'.offset = Text.byteSize (a ++ b) := by
      rw [← hsource, ← hs]
      exact hp.2.trans (Nat.zero_add _)
    have hreads := Relayout.reads_document (C := C) hblank hread hrest (.inr ⟨_, hmem, rfl⟩)
    rw [hend, hsource, Relayout.laid_place hplace] at hreads
    obtain ⟨g₀, st₀, hmatch, hsame, hrest₀, -⟩ :=
      hreads { rest := a ++ (t.toList ++ b) } rfl fun hnil => (hblank hnil).elim
    obtain ⟨g', hg', rfl⟩ : ∃ g', parse (String.ofList (a ++ (t.toList ++ b))) = .ok g' ∧
        g'.map Span.range = g₀ :=
      parseWith_of_document rfl (by rw [String.toList_ofList]; exact hmatch) hrest₀
    refine ⟨g', hg', ?_⟩
    rw [Grammar.map_map, Grammar.map_map] at hsame
    exact Grammar.strip_eq_of_map hsame

theorem parse_insert_operand : ∃ g, parse "a = b / l:c" = .ok g ∧
    ∃ s g', Text.insert? "a = b / l:c".toList 8 " \n".toList = some s ∧
      parse (String.ofList s) = .ok g' ∧ g'.strip = g.strip := by
  have hplace : (parse "a = b / l:c").toOption.any
      (fun g => g.anchors.any fun l => l.start.offset == 8) = true := by
    decide +kernel
  obtain ⟨g, h, hplace⟩ := exists_of_any hplace
  obtain ⟨l, hl, heq⟩ := List.any_eq_true.1 hplace
  have hinsert := parse_insert (t := " \n") h hl (forall_mem_of_all (by decide +kernel))
  rw [beq_iff_eq.1 heq] at hinsert
  exact ⟨g, h, hinsert⟩

end PegGrammar
