import PegGrammar.Proofs.Rereading.Meeting
import PegGrammar.Proofs.ShapeReading

namespace PegGrammar

open Reader PegGrammar.Expr

variable {s t m r F G : Text} {e : Expr Unit} {es : List (Expr Unit)} {p : Reader Node}

inductive Spaces (F : Text) : Text → Prop
  | refl : Spaces F F
  | space {s : Text} (h : Spaces F s) : Spaces F (' ' :: s)

theorem Spaces.skipTrivia (h : Spaces F s) : skipTrivia s = skipTrivia F := by
  induction h with
  | refl => rfl
  | space _ ih => rw [skipTrivia_space, ih]

theorem Spaces.stuck (h : Spaces F s) (hF : Stuck F) : Stuck s := by
  induction h with
  | refl => exact hF
  | space _ ih => exact ih.space

theorem Stuck.of_space (h : Stuck (' ' :: s)) : Stuck s := by
  cases h with
  | here t hc => exact absurd hc (by decide)
  | space h => exact h

theorem Stuck.skipTrivia (h : Stuck s) : Stuck (skipTrivia s) := by
  obtain ⟨c, t, ht, hc⟩ := h.exists_skipTrivia
  rw [ht]
  exact .here t hc

section Outcomes

/-- The text `t` in front of `F` is read as `e`. An empty one is not told from what follows. -/
inductive Found (p : Reader Node) (t F : Text) (e : Expr Unit) : Prop
  | found {m : Text} (he : e ≠ .sequence [] ()) (hm : Spaces F m)
      (h : Finds p (skipTrivia (t ++ F)) e m)
  | empty (he : e = .sequence [] ()) (ht : t = []) (h : Finds p (skipTrivia F) e (skipTrivia F))

/-- From the text `t` in front of `F` something is read that ends where nothing goes on. -/
inductive Jammed (p : Reader Node) (t F : Text) : Prop
  | intro {e : Expr Unit} {r : Text} (h : Finds p (skipTrivia (t ++ F)) e r) (hr : Stuck r)
      (hempty : e = .sequence [] () → Stuck (t ++ F))

def Outcome (p : Reader Node) (t F : Text) : Option (Expr Unit) → Prop
  | some e => Found p t F e
  | none => Jammed p t F

theorem Found.afterTrivia (h : Found p t F e) (hs : Spaces (t ++ F) s) :
    ∃ m, Finds (afterTrivia p) s e m ∧ Spaces F m := by
  cases h with
  | found he hm h => exact ⟨_, finds_afterTrivia (hs.skipTrivia ▸ h) he, hm⟩
  | empty he ht h =>
      subst he ht
      exact ⟨s, finds_afterTrivia_nil (hs.skipTrivia ▸ h), hs⟩

theorem Jammed.afterTrivia (h : Jammed p t F) (hs : Spaces (t ++ F) s) :
    ∃ e r, Finds (afterTrivia p) s e r ∧ Stuck r := by
  obtain ⟨h, hr, hempty⟩ := h
  rename_i e r
  rw [← hs.skipTrivia] at h
  by_cases he : e = .sequence [] ()
  · subst he
    exact ⟨_, s, finds_afterTrivia_nil h, hs.stuck (hempty rfl)⟩
  · exact ⟨e, r, finds_afterTrivia h he, hr⟩

/-- A reader that goes on behind another one finds the same if it finds nothing more. -/
theorem Outcome.imp {q : Reader Node} {P : Char → Prop} {o : Option (Expr Unit)}
    (h : Outcome p t F o)
    (hpq : ∀ {s e m}, Finds p s e m → Next P (skipTrivia m) → Finds q s e m)
    (hP : ∀ c, IsStuck c → P c) (hF : Next P (skipTrivia F)) : Outcome q t F o := by
  cases o with
  | some e =>
      cases h with
      | found he hm h => exact .found he hm (hpq h (hm.skipTrivia ▸ hF))
      | empty he ht h => exact .empty he ht (hpq h ((skipTrivia_skipTrivia F).symm ▸ hF))
  | none =>
      obtain ⟨h, hr, hempty⟩ := h
      exact .intro (hpq h (hr.next hP)) hr hempty

end Outcomes

section Sequences

def rowText (es : List (Expr Unit)) : Text := List.intercalate [' '] (es.map (·.textAt .labeled))

theorem spaced_eq (e : Expr Unit) (es : List (Expr Unit)) :
    spaced (e :: es) = ' ' :: rowText (e :: es) := by
  induction es generalizing e with
  | nil => simp [spaced, rowText]
  | cons x es ih =>
      have hrow : rowText (e :: x :: es) = e.textAt .labeled ++ ' ' :: rowText (x :: es) := rfl
      rw [hrow, ← ih x]
      rfl

theorem skipTrivia_spaced (es : List (Expr Unit)) (F : Text) :
    skipTrivia (spaced es ++ F) = skipTrivia (rowText es ++ F) := by
  cases es with
  | nil => rfl
  | cons e es => rw [spaced_eq, List.cons_append, skipTrivia_space]

theorem isSequence_of_finds (h : Finds (labeled expression) s e m) : e.isSequence = false := by
  obtain ⟨a, st', hmatch, rfl, -⟩ := h { rest := s } rfl
  have hshape := shaped_labeled (N := fun _ => True) (fun _ => trivial)
    (fun _ _ _ h => shaped_expression (fun _ => trivial) h) hmatch
  rw [bare, isSequence_map]
  exact hshape.2

theorem collapse_ne {es : List (Expr Unit)} (he : e.isSequence = false) :
    collapse (e :: es) ≠ .sequence [] () := by
  cases es with
  | nil =>
      rw [collapse]
      split
      · rintro ⟨⟩
      · rintro rfl
        cases he
  | cons => rintro ⟨⟩

theorem finds_sequence_nil (h : Elements s [] r) :
    r = s ∧ Finds (sequence expression) (skipTrivia s) (.sequence [] ()) (skipTrivia s) := by
  cases h with
  | stop h =>
      rw [← skipTrivia_skipTrivia] at h
      exact ⟨rfl, (Elements.stop h).sequence (skipTrivia_skipTrivia s)⟩

theorem finds_sequence_cons (h : Elements s (e :: es) r) :
    Finds (sequence expression) (skipTrivia s) (collapse (e :: es)) r := by
  cases h with
  | next h hlt hs =>
      rw [← skipTrivia_skipTrivia] at h hlt
      exact (Elements.next h hlt hs).sequence (skipTrivia_skipTrivia s)

theorem collapse_ne_of_elements (h : Elements s (e :: es) r) : collapse (e :: es) ≠ .sequence [] () := by
  cases h with
  | next h => exact collapse_ne (isSequence_of_finds h)

theorem outcome_sequence {o : Option (List (Expr Unit))}
    (h : ElementsOutcome (spaced es ++ F) F o) :
    Outcome (sequence expression) (rowText es) F (o.map collapse) := by
  have hskip := skipTrivia_spaced es F
  cases o with
  | some es' =>
      cases es' with
      | nil =>
          obtain ⟨hF, hfinds⟩ := finds_sequence_nil h
          rw [← hF] at hfinds
          cases es with
          | nil => exact .empty rfl rfl hfinds
          | cons e es =>
              have hlength := congrArg List.length hF
              rw [spaced_eq, List.length_append, List.length_cons] at hlength
              omega
      | cons e' es' =>
          have hfinds := finds_sequence_cons h
          rw [hskip] at hfinds
          exact .found (collapse_ne_of_elements h) .refl hfinds
  | none =>
      obtain ⟨es', r, h, hr⟩ := h
      cases es' with
      | nil =>
          obtain ⟨rfl, hfinds⟩ := finds_sequence_nil h
          have hstuck := hr.skipTrivia
          rw [hskip] at hfinds hstuck
          refine .intro hfinds hstuck fun _ => ?_
          cases es with
          | nil => exact hr
          | cons e es =>
              rw [spaced_eq] at hr
              exact hr.of_space
      | cons e' es' =>
          have hfinds := finds_sequence_cons h
          rw [hskip] at hfinds
          exact .intro hfinds hr fun he => (collapse_ne_of_elements h he).elim

end Sequences

section Actions

variable {o : Option (Expr Unit)}

theorem outcome_action_plain (h : Outcome (sequence expression) t F o)
    (hF : Next (· ≠ '{') (skipTrivia F)) : Outcome (action expression) t F o :=
  h.imp finds_action_plain (fun _ hc => hc.ne (by decide)) hF

def actionText (t : Text) (code : String) : Text :=
  if t.isEmpty then Printer.block code else t ++ ' ' :: Printer.block code

theorem skipTrivia_actionText (t F : Text) (code : String) :
    skipTrivia (actionText t code ++ F) = skipTrivia (t ++ ' ' :: (Printer.block code ++ F)) := by
  cases t with
  | nil => rw [List.nil_append, skipTrivia_space]; rfl
  | cons c t => simp [actionText]

theorem skipTrivia_block (code : String) (F : Text) :
    skipTrivia (' ' :: (Printer.block code ++ F)) = Printer.block code ++ F := by
  rw [skipTrivia_space]
  exact skipTrivia_solid (by decide) _

theorem outcome_action_code {code : String} (hcode : Balanced code.toList)
    (h : Outcome (sequence expression) t (' ' :: (Printer.block code ++ F)) o) :
    Outcome (action expression) (actionText t code) F (o.map (.action · code () ())) := by
  have htext := skipTrivia_actionText t F code
  have hblock := skipTrivia_block code F
  cases o with
  | some e =>
      cases h with
      | found he hm h =>
          have hfinds := finds_action_code hcode h (hm.skipTrivia.trans hblock)
          rw [← htext] at hfinds
          exact .found (by rintro ⟨⟩) .refl hfinds
      | empty he ht h =>
          have hfinds := finds_action_code hcode h ((skipTrivia_skipTrivia _).trans hblock)
          subst ht
          refine .found (by rintro ⟨⟩) .refl ?_
          rwa [htext, List.nil_append]
  | none =>
      obtain ⟨h, hr, hempty⟩ := h
      refine .intro (by rw [htext]; exact finds_action_plain h (hr.next fun _ hc => hc.ne (by decide))) hr
        fun he => ?_
      have hstuck := hempty he
      cases t with
      | nil => exact absurd hstuck.of_space (by rintro ⟨⟩; contradiction)
      | cons c t => simpa [actionText] using hstuck

end Actions

end PegGrammar
