import PegGrammar.Proofs.Rereading.Expressions

namespace PegGrammar

open Reader PegGrammar.Expr

variable {s t m r F G : Text} {e : Expr Unit} {es : List (Expr Unit)} {o : Option (Expr Unit)}
  {os : Option (List (Expr Unit))}

/-- The text ends an expression: nothing in it goes on with an element or with an operand. -/
structure Shut (F : Text) : Prop extends Follow F where
  suffixed : Refuses (suffixed expression) (skipTrivia F)
  labeled : Refuses (labeled expression) (skipTrivia F)

theorem shut_of_next (hF : Follow F) (h : Next (opens · = false) (skipTrivia F)) : Shut F :=
  ⟨hF, refuses_suffixed_shut (h.imp fun _ hc => .inl hc), refuses_labeled_shut h⟩

theorem follow_space (h : Next (fun c => StringLiteral.isQuote c = false ∧ IsFollow c) (skipTrivia s)) :
    Follow (' ' :: s) := by
  refine ⟨⟨nameEnds_of_head (by decide) (by decide), ?_⟩, ?_⟩
  · rw [startsRule_space]
    exact startsRule_of_next (h.imp fun c hc => ⟨hc.1, hc.2.ne (by decide)⟩)
  · rw [skipTrivia_space]
    exact h.imp fun c hc => hc.2

theorem shut_close (F : Text) : Shut (')' :: F) :=
  shut_of_next (follow_close F) (next_skipTrivia (by decide) (by decide))

theorem shut_block (code : String) (F : Text) : Shut (' ' :: (Printer.block code ++ F)) := by
  have hskip : skipTrivia (Printer.block code ++ F) = Printer.block code ++ F :=
    skipTrivia_solid (by decide) _
  refine shut_of_next (follow_space ?_) ?_
  · rw [hskip]
    exact next_cons (c := '{') (by decide)
  · rw [skipTrivia_space, hskip]
    exact next_cons (c := '{') (by decide)

theorem shut_slash (F : Text) : Shut (' ' :: '/' :: ' ' :: F) := by
  refine shut_of_next (follow_space ?_) ?_
  · rw [skipTrivia_slash]
    exact next_cons (by decide)
  · rw [skipTrivia_space, skipTrivia_slash]
    exact next_cons (by decide)

def slashed (es : List (Expr Unit)) : Text :=
  es.flatMap fun e => ' ' :: '/' :: ' ' :: e.textAt .action

theorem slashed_cons (e : Expr Unit) (es : List (Expr Unit)) (F : Text) :
    slashed (e :: es) ++ F = ' ' :: '/' :: ' ' :: (e.textAt .action ++ (slashed es ++ F)) := by
  simp [slashed]

theorem skipTrivia_slashed (e : Expr Unit) (es : List (Expr Unit)) (F : Text) :
    skipTrivia (slashed (e :: es) ++ F) =
      '/' :: ' ' :: (e.textAt .action ++ (slashed es ++ F)) := by
  rw [slashed_cons, skipTrivia_space, skipTrivia_slash]

/-- The outcomes for alternatives in front of `F`. -/
inductive AlternativesRead (F : Text) : List (Expr Unit) → Option (List (Expr Unit)) → Prop
  | nil : AlternativesRead F [] (some [])
  | cons {e : Expr Unit} {es : List (Expr Unit)} {o : Option (Expr Unit)}
      {os : Option (List (Expr Unit))}
      (h : Outcome (action expression) (e.textAt .action) (slashed es ++ F) o)
      (hs : AlternativesRead F es os) :
      AlternativesRead F (e :: es) (o.bind fun e' => os.map (e' :: ·))

def AlternativesOutcome (s F : Text) : Option (List (Expr Unit)) → Prop
  | some es => ∃ m, Alternatives s es m ∧ Spaces F m
  | none => ∃ e es r, Alternatives s (e :: es) r ∧ Stuck r

theorem alternatives_stuck (h : Stuck r) : Alternatives r [] r :=
  .stop (h.next fun _ hc => hc.ne (by decide))

theorem AlternativesRead.outcome (hF : Next (· ≠ '/') (skipTrivia F)) (h : AlternativesRead F es os)
    (hs : Spaces (slashed es ++ F) s) : AlternativesOutcome s F os := by
  induction h generalizing s with
  | nil => exact ⟨s, .stop (hs.skipTrivia ▸ hF), hs⟩
  | @cons e es o os h _ ih =>
      have hslash := hs.skipTrivia.trans (skipTrivia_slashed e es F)
      cases o with
      | none =>
          obtain ⟨e', r, hfinds, hr⟩ := h.afterTrivia Spaces.refl.space
          exact ⟨e', [], r, .next hslash hfinds (alternatives_stuck hr), hr⟩
      | some e' =>
          obtain ⟨m, hfinds, hm⟩ := h.afterTrivia Spaces.refl.space
          have hrest := ih hm
          cases os with
          | none =>
              obtain ⟨x, xs, r, hrest, hr⟩ := hrest
              exact ⟨e', x :: xs, r, .next hslash hfinds hrest, hr⟩
          | some es' =>
              obtain ⟨m', hrest, hm'⟩ := hrest
              exact ⟨m', .next hslash hfinds hrest, hm'⟩

theorem alternatives_skip (h : Alternatives s (e :: es) r) :
    Alternatives (skipTrivia s) (e :: es) r := by
  cases h with
  | next hslash h hs => exact .next ((skipTrivia_skipTrivia s).trans hslash) h hs

theorem outcome_choice_single (h : Outcome (action expression) t F o)
    (hF : Next (· ≠ '/') (skipTrivia F)) : Outcome (choice expression) t F o :=
  h.imp finds_choice_single (fun _ hc => hc.ne (by decide)) hF

theorem outcome_choice {x : Expr Unit} (hF : Next (· ≠ '/') (skipTrivia F))
    (hfirst : Outcome (action expression) t (slashed (x :: es) ++ F) o)
    (hs : AlternativesRead F (x :: es) os) :
    Outcome (choice expression) (t ++ slashed (x :: es)) F
      ((o.bind fun e => os.map (e :: ·)).map (.choice · ())) := by
  have htext : t ++ slashed (x :: es) ++ F = t ++ (slashed (x :: es) ++ F) :=
    List.append_assoc _ _ _
  -- from wherever the first alternative ends, the others are found
  have others {e : Expr Unit} {m : Text} (hm : Spaces (slashed (x :: es) ++ F) m)
      (h : ∀ {e' es' r}, (Alternatives m (e' :: es') r) →
        Finds (choice expression) (skipTrivia (t ++ (slashed (x :: es) ++ F)))
          (.choice (e :: e' :: es') ()) r) :
      Outcome (choice expression) (t ++ slashed (x :: es)) F
        ((os.map (e :: ·)).map (.choice · ())) := by
    have houtcome := hs.outcome hF hm
    cases os with
    | none =>
        obtain ⟨e', es', r, hrest, hr⟩ := houtcome
        exact .intro (htext ▸ h hrest) hr (by rintro ⟨⟩)
    | some es' =>
        obtain ⟨m', hrest, hm'⟩ := houtcome
        cases hrest with
        | stop hstop =>
            rw [hm.skipTrivia, skipTrivia_slashed] at hstop
            exact (hstop '/' rfl rfl).elim
        | next hslash hnext hrest =>
            exact .found (by rintro ⟨⟩) hm' (htext ▸ h (.next hslash hnext hrest))
  cases o with
  | none =>
      obtain ⟨h, hr, hempty⟩ := hfirst
      rw [← htext] at h hempty
      exact .intro (finds_choice_single h (hr.next fun _ hc => hc.ne (by decide))) hr hempty
  | some e =>
      cases hfirst with
      | found he hm h => exact others hm fun hrest => finds_choice h hrest
      | empty he ht h =>
          subst ht
          exact others .refl fun hrest => finds_choice h (alternatives_skip hrest)

end PegGrammar
