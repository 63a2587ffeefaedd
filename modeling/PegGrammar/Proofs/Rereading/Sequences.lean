import PegGrammar.Proofs.Rereading.Labels

namespace PegGrammar

open Reader PegGrammar.Expr

variable {s m r F G : Text} {e b x : Expr Unit} {es xs : List (Expr Unit)}

def spaced (es : List (Expr Unit)) : Text := es.flatMap fun e => ' ' :: e.textAt .labeled

theorem spaced_cons (e : Expr Unit) (es : List (Expr Unit)) (F : Text) :
    spaced (e :: es) ++ F = ' ' :: (e.textAt .labeled ++ (spaced es ++ F)) := by
  simp [spaced]

/-- How the elements from `s` up to `F` are read. -/
def ElementsOutcome (s F : Text) : Option (List (Expr Unit)) → Prop
  | some es => Elements s es F
  | none => ∃ es r, Elements s es r ∧ Stuck r

def OperandReads (e : Expr Unit) : Prop :=
  ∀ ⦃F : Text⦄, Ends F → Next IsNoSuffix (skipTrivia F) →
    OperandOutcome (e.textAt .suffixed ++ F) F (operand e e.reread)

/-- Reading an expression as an element, alone or behind a dangling reference. -/
structure ElementReads (e : Expr Unit) : Prop where
  shaped : e.Shaped Name.Readable
  isSequence : e.isSequence = false
  element : ∀ ⦃F : Text⦄, Follow F →
    (e.dangles = true → Refuses (suffixed expression) (skipTrivia F)) →
    ElementOutcome (e.textAt .labeled ++ F) F e.reread
  operand : e.hasLabels = false → (∀ op b k, e ≠ .prefixed op b k) → OperandReads e
  body : ∀ op b k, e = .prefixed op b k → OperandReads b

theorem ElementReads.follow (h : ElementReads e) (hF : Follow F) :
    Follow (' ' :: (e.textAt .labeled ++ F)) :=
  follow_textAt id h.shaped h.isSequence hF

theorem ElementReads.skipTrivia (h : ElementReads e) (F : Text) :
    skipTrivia (e.textAt .labeled ++ F) = e.textAt .labeled ++ F :=
  skipTrivia_textAt h.shaped h.isSequence F

theorem ElementReads.length_lt (h : ElementReads e) (F : Text) :
    F.length < (e.textAt .labeled ++ F).length := by
  obtain ⟨c, t, ht, -⟩ := exists_textAt_labeled id h.shaped h.isSequence
  exact length_lt_append ht F

theorem follow_spaced (hes : ∀ e ∈ es, ElementReads e) (hF : Follow F) : Follow (spaced es ++ F) := by
  induction es with
  | nil => exact hF
  | cons e es ih =>
      rw [spaced_cons]
      exact (hes e List.mem_cons_self).follow (ih fun x hx => hes x (List.mem_cons_of_mem e hx))

theorem elements_space (h : ∃ es r, Elements s es r ∧ Stuck r) :
    ∃ es r, Elements (' ' :: s) es r ∧ Stuck r := by
  obtain ⟨es, r, h, hr⟩ := h
  cases h with
  | stop h => exact ⟨[], ' ' :: s, .stop (by rwa [skipTrivia_space]), hr.space⟩
  | next h hlt hs =>
      exact ⟨_, r, .next (by rwa [skipTrivia_space]) (by rwa [skipTrivia_space]) hs, hr⟩

theorem elementsOutcome_cons {t : Text} {o : Option (List (Expr Unit))}
    (h : Finds (labeled expression) s x m) (hskip : skipTrivia t = s) (hlt : m.length < s.length)
    (hm : ElementsOutcome m F o) : ElementsOutcome t F (o.map (x :: ·)) := by
  have hnext {es r} (hm : Elements m es r) : Elements t (x :: es) r :=
    .next (by rwa [hskip]) (by rwa [hskip]) hm
  cases o with
  | some es => exact hnext hm
  | none =>
      obtain ⟨es, r, hes, hr⟩ := hm
      exact ⟨x :: es, r, hnext hes, hr⟩

section

variable {o : Option (Expr Unit)} {os : Option (List (Expr Unit))}

theorem elementsOutcome_bind (h : ElementOutcome s m o) (hskip : skipTrivia s = s)
    (hlt : m.length < s.length) (hm : ElementsOutcome m F os) :
    ElementsOutcome s F (o.bind fun e => os.map (e :: ·)) := by
  cases o with
  | some e => exact elementsOutcome_cons h hskip hlt hm
  | none => exact h

theorem elementsOutcome_bind_space (h : ElementOutcome s m o) (hskip : skipTrivia s = s)
    (hlt : m.length < s.length) (hm : ElementsOutcome m F os) :
    ElementsOutcome (' ' :: s) F (o.bind fun e => os.map (e :: ·)) := by
  cases o with
  | some e => exact elementsOutcome_cons h (by rwa [skipTrivia_space]) hlt hm
  | none => exact elements_space h

end

theorem reread_of_dangles (h : e.dangles = true) : e.reread = some e := by
  have hdollar : exposed id "$" = .ruleRef "$" () := by decide
  cases e with
  | ruleRef n k =>
      obtain rfl : n = "$" := of_decide_eq_true h
      rw [reread, hdollar]
  | labeled l j p b k =>
      cases b with
      | ruleRef n i =>
          obtain rfl : n = "$" := of_decide_eq_true h
          rw [reread, reread, hdollar]
          rfl
      | _ => cases h
  | _ => cases h

/-- Whatever is read in place of a dangling reference takes its label, if there is one. -/
theorem finds_onto (h : e.dangles = true) (hshape : e.Shaped Name.Readable) (hF : Follow F)
    (hb : Finds (prefixed expression) ('$' :: F) b m) :
    Finds (labeled expression) (e.textAt .labeled ++ F) (onto b e) m := by
  have hlabel : Refuses label ('$' :: F) :=
    refuses_label (name_dollar hF.name) (hF.next.imp fun c hc => hc.ne (by decide))
  cases e with
  | ruleRef n k =>
      obtain rfl : n = "$" := of_decide_eq_true h
      exact finds_unlabeled (next_cons (by decide)) hlabel hb
  | labeled l j p b' k =>
      cases b' with
      | ruleRef n i =>
          obtain rfl : n = "$" := of_decide_eq_true h
          have htext : textAt (.labeled l j p (.ruleRef "$" i) k) .labeled ++ F =
              lead l p ++ '$' :: F := by
            rw [← List.singleton_append, ← List.append_assoc]
            rfl
          rw [htext]
          exact finds_lead hshape.1 hshape.2.1 (skipTrivia_solid (by decide) F) hlabel hb
      | _ => cases h
  | _ => cases h

variable {o : Option (List (Expr Unit))}

abbrev facing (e x : Expr Unit) (G : Text) : Text :=
  ' ' :: (e.textAt .labeled ++ ' ' :: (x.textAt .labeled ++ G))

/-- The reference stays one if nothing behind it can be an operand. -/
theorem elementsOutcome_apart (he : ElementReads e) (hx : ElementReads x) (hdangles : e.dangles = true)
    (hG : Follow G) (hrefuses : Refuses (suffixed expression) (x.textAt .labeled ++ G))
    (hrest : ElementsOutcome (' ' :: (x.textAt .labeled ++ G)) F o) :
    ElementsOutcome (facing e x G) F (o.map (e :: ·)) := by
  have hfinds := he.element (hx.follow hG) fun _ => by
    rwa [skipTrivia_space, hx.skipTrivia]
  rw [reread_of_dangles hdangles] at hfinds
  exact elementsOutcome_cons hfinds (by rw [skipTrivia_space, he.skipTrivia]) (he.length_lt _) hrest

/-- The reference becomes an operator if something behind it can be an operand. -/
theorem elementsOutcome_onto (he : ElementReads e) (hx : ElementReads x) (hdangles : e.dangles = true)
    (hG : Follow G) (hb : Finds (suffixed expression) (x.textAt .labeled ++ G) b m)
    (hlt : m.length < (x.textAt .labeled ++ G).length) (hm : ElementsOutcome m F o) :
    ElementsOutcome (facing e x G) F (o.map (onto (.prefixed .text b ()) e :: ·)) := by
  have hprefixed : Finds (prefixed expression) ('$' :: ' ' :: (x.textAt .labeled ++ G))
      (.prefixed .text b ()) m := by
    refine finds_prefixed_op .text ?_
    rwa [skipTrivia_space, hx.skipTrivia]
  have hfinds := finds_onto hdangles he.shaped (hx.follow hG) hprefixed
  refine elementsOutcome_cons hfinds (by rw [skipTrivia_space, he.skipTrivia]) ?_ hm
  have hlength := he.length_lt (' ' :: (x.textAt .labeled ++ G))
  rw [List.length_cons] at hlength
  omega

end PegGrammar
