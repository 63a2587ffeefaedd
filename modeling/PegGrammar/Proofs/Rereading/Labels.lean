import PegGrammar.Proofs.Rereading.References

namespace PegGrammar

open Reader PegGrammar.Expr

variable {s m F : Text} {n : String} {e b x : Expr Unit} {o : Option (Expr Unit)}

theorem refuses_label_suffixed (h : e.Shaped Name.Readable) (hlabels : e.hasLabels = false)
    (hF : Follow F) : Refuses label (e.textAt .suffixed ++ F) := by
  rcases suffixed_cases h hlabels hF with ⟨n, wrap, T, hr⟩ | hplain
  · rw [hr.text]
    apply refuses_label (Name.name_nameText (hr.name h) hr.ends.name)
    rw [List.drop_left]
    exact hr.next (hF.next.imp fun c hc => hc.ne (by decide))
  · exact refuses_label_of_name hplain.name

theorem refuses_label_dollar (h : e.Shaped Name.Readable) (hlabels : e.hasLabels = false)
    (hF : Follow F) : Refuses label ('$' :: (e.textAt .suffixed ++ F)) := by
  rcases suffixed_cases h hlabels hF with ⟨n, wrap, T, hr⟩ | hplain
  · rw [hr.text]
    apply refuses_label (Name.name_dollar_nameText (hr.name h) hr.ends.name)
    rw [List.drop_succ_cons, List.drop_left]
    exact hr.next (hF.next.imp fun c hc => hc.ne (by decide))
  · exact refuses_label (name_dollar hplain.nameEnds) (hplain.next (by decide))

theorem refuses_label_labeled (h : e.Shaped Name.Readable) (hlabels : e.hasLabels = false)
    (hF : Follow F) : Refuses label (e.textAt .labeled ++ F) := by
  by_cases hop : ∃ op b k, e = .prefixed op b k
  · obtain ⟨op, b, k, rfl⟩ := hop
    cases op with
    | text => exact refuses_label_dollar h.2 h.1 hF
    | and => exact refuses_label_char (by decide) (by decide)
    | not => exact refuses_label_char (by decide) (by decide)
  · rw [textAt_suffixed hlabels h fun op b k he => hop ⟨op, b, k, he⟩]
    exact refuses_label_suffixed h hlabels hF

theorem skipTrivia_textAt (h : e.Shaped Name.Readable) (hseq : e.isSequence = false) (F : Text) :
    skipTrivia (e.textAt .labeled ++ F) = e.textAt .labeled ++ F := by
  obtain ⟨c, t, ht, hc⟩ := exists_textAt_labeled id h hseq
  rw [ht]
  exact skipTrivia_solid (solid_of_opens hc) _

theorem skipTrivia_nameText (hn : Name.Readable n) (F : Text) :
    skipTrivia (Printer.nameText n.toList ++ F) = Printer.nameText n.toList ++ F := by
  obtain ⟨c, t, ht, hc⟩ := exists_nameText hn
  rw [ht]
  exact skipTrivia_solid (solid_of_opens (opens_of_isNameHead hc)) _

theorem next_nameText_ne_at (hn : Name.Readable n) (F : Text) :
    Next (· ≠ '@') (Printer.nameText n.toList ++ F) := by
  obtain ⟨c, t, ht, hc⟩ := exists_nameText hn
  rw [ht]
  exact next_cons (hc.ne (by decide) (by decide))

theorem ends_colon (s : Text) : Ends (':' :: s) :=
  ends_cons (by decide) (by decide +kernel) (by decide) (by decide) (by decide)

theorem takes_label_nameText (hn : Name.Readable n) (s : Text) :
    Takes label (Printer.nameText n.toList ++ ':' :: s) (·.value = n) s :=
  takes_label (Name.name_nameText hn (ends_colon s).name) List.drop_left

def lead (label : Option String) (pick : Bool) : Text :=
  (if pick then ['@'] else []) ++ label.elim [] (fun n => Printer.nameText n.toList ++ [':'])

theorem lead_some (n : String) (s : Text) :
    lead (some n) false ++ s = Printer.nameText n.toList ++ ':' :: s := by
  simp [lead]

theorem lead_pick_some (n : String) (s : Text) :
    lead (some n) true ++ s = '@' :: (Printer.nameText n.toList ++ ':' :: s) := by
  simp [lead]

section Lead

variable {l : Option String} {p : Bool}

theorem finds_lead (hl : l = none → p = true) (hn : ∀ n ∈ l, Name.Readable n)
    (hskip : skipTrivia s = s) (hlabel : Refuses label s)
    (h : Finds (prefixed expression) s b F) :
    Finds (labeled expression) (lead l p ++ s) (.labeled l () p b ()) F := by
  cases l with
  | none =>
      rw [hl rfl]
      exact finds_pick hskip hlabel h
  | some n =>
      have htakes := takes_label_nameText (hn n rfl) s
      cases p with
      | true =>
          rw [lead_pick_some]
          exact finds_pick_labeled (skipTrivia_nameText (hn n rfl) _) htakes hskip h
      | false =>
          rw [lead_some]
          exact finds_labeled (next_nameText_ne_at (hn n rfl) _) htakes hskip h

theorem refuses_pick_body {inner : Reader Node} (hskip : skipTrivia s = s)
    (hlabel : Refuses label s) (h : Refuses (prefixed inner) s) :
    Refuses (pick inner) ('@' :: s) := by
  refine .located (takes_mark.bind_refuses fun _ _ => takes_trivia.bind_refuses fun _ _ => ?_)
  rw [hskip]
  refine hlabel.optional.bind_refuses fun _ _ => takes_trivia.bind_refuses fun _ _ => ?_
  rw [hskip]
  exact h.bind

theorem refuses_pick_labeled {inner : Reader Node} (hskip : skipTrivia s = s)
    (hlabel : Takes label s (·.value = n) m) (hskip' : skipTrivia m = m)
    (h : Refuses (prefixed inner) m) : Refuses (pick inner) ('@' :: s) := by
  refine .located (takes_mark.bind_refuses fun _ _ => takes_trivia.bind_refuses fun _ _ => ?_)
  rw [hskip]
  refine hlabel.optional.bind_refuses fun _ _ => takes_trivia.bind_refuses fun _ _ => ?_
  rw [hskip']
  exact h.bind

theorem stuck_elements {c : Char} (hc : IsStuck c) (h : Refuses (labeled expression) (c :: s)) :
    ∃ es r, Elements (c :: s) es r ∧ Stuck r := by
  rw [← skipTrivia_solid hc.solid] at h
  exact ⟨[], c :: s, .stop h, .here s hc⟩

theorem stuck_pick (h : Refuses (pick expression) ('@' :: s)) :
    ∃ es r, Elements ('@' :: s) es r ∧ Stuck r := by
  refine stuck_elements (by decide) (.orElse h (.orElse (.located ?_) (refuses_prefixed ?_ ?_)))
  · exact (refuses_label_char (by decide) (by decide)).bind
  · exact next_cons (by decide)
  · exact refuses_suffixed_shut (next_cons (.inr rfl))

/-- The label of something that cannot be read is read as a reference, up to its colon. -/
theorem stuck_label (hn : Name.Readable n) (hskip : skipTrivia s = s)
    (h : Refuses (prefixed expression) s) :
    ∃ es r, Elements (Printer.nameText n.toList ++ ':' :: s) es r ∧ Stuck r := by
  have hcolon : Next (fun c => opens c = false ∨ c = '@') (skipTrivia (':' :: s)) :=
    next_skipTrivia (by decide) (by decide)
  have hname : Finds (prefixed expression) (Printer.nameText n.toList ++ ':' :: s)
      (exposed id n) (':' :: s) := by
    refine (wraps_id (ends_colon s) ?_).exposed hn fun _ => refuses_suffixed_shut hcolon
    exact next_skipTrivia (by decide) (by decide)
  have hlabeled : Finds (labeled expression) (Printer.nameText n.toList ++ ':' :: s)
      (exposed id n) (':' :: s) := by
    refine .orElse_right (refuses_pick (next_nameText_ne_at hn _)) (.orElse_right (.located ?_) hname)
    refine (takes_label_nameText hn s).bind_refuses fun _ _ => takes_trivia.bind_refuses fun _ _ => ?_
    rw [hskip]
    exact h.bind
  obtain ⟨c, t, ht, -⟩ := exists_nameText hn
  have hskip' := skipTrivia_nameText hn (':' :: s)
  refine ⟨[exposed id n], ':' :: s, .next (hskip'.symm ▸ hlabeled) ?_ (.stop ?_), .here s (by decide)⟩
  · rw [hskip']
    have hlength := length_lt_append ht (':' :: s)
    exact hlength
  · rw [skipTrivia_solid (by decide)]
    exact refuses_labeled_shut (next_cons (by decide))

theorem stuck_lead (hl : l = none → p = true) (hn : ∀ n ∈ l, Name.Readable n)
    (hskip : skipTrivia s = s) (hlabel : Refuses label s) (h : Refuses (prefixed expression) s) :
    ∃ es r, Elements (lead l p ++ s) es r ∧ Stuck r := by
  cases l with
  | none =>
      rw [hl rfl]
      exact stuck_pick (refuses_pick_body hskip hlabel h)
  | some n =>
      cases p with
      | true =>
          rw [lead_pick_some]
          exact stuck_pick (refuses_pick_labeled (skipTrivia_nameText (hn n rfl) _)
            (takes_label_nameText (hn n rfl) s) hskip h)
      | false =>
          rw [lead_some]
          exact stuck_label (hn n rfl) hskip h

end Lead

theorem stuck_next {t : Text} (hskip : skipTrivia s = s)
    (h : Finds (labeled expression) s x ('(' :: t)) (hlt : t.length + 1 < s.length)
    (hrest : Refuses (labeled expression) ('(' :: t)) : ∃ es r, Elements s es r ∧ Stuck r := by
  refine ⟨[x], '(' :: t, .next (hskip.symm ▸ h) (by rwa [hskip]) (.stop ?_), .here t (by decide)⟩
  rwa [skipTrivia_solid (by decide)]

theorem elementOutcome_labeled {l : Option String} {p : Bool}
    (h : (Expr.labeled l () p b ()).Shaped Name.Readable) (hF : Follow F)
    (hb : PrefixedOutcome (b.textAt .labeled ++ F) F o) :
    ElementOutcome (textAt (.labeled l () p b ()) .labeled ++ F) F (o.map (.labeled l () p · ())) := by
  obtain ⟨hl, hn, hlabels, hshape⟩ := h
  have htext : textAt (.labeled l () p b ()) .labeled ++ F = lead l p ++ (b.textAt .labeled ++ F) := by
    rw [textAt_prefixed hlabels hshape, ← List.append_assoc]
    rfl
  have hskip := skipTrivia_textAt hshape (isSequence_eq_false_of_hasLabels hlabels) F
  have hlabel := refuses_label_labeled hshape hlabels hF
  rw [htext]
  cases o with
  | some b' => exact finds_lead hl hn hskip hlabel hb
  | none =>
      cases hb with
      | refuses hs hc hrefuses => exact stuck_lead hl hn hskip hlabel hrefuses
      | @dollar t hs hfinds hrest =>
          have hfinds := finds_lead hl hn hskip hlabel hfinds
          refine stuck_next ?_ hfinds ?_ hrest
          · rw [← htext]
            exact skipTrivia_textAt (e := .labeled l () p b ()) ⟨hl, hn, hlabels, hshape⟩ rfl F
          · rw [hs]
            simp only [List.length_cons, List.length_append]
            omega

theorem next_textAt_ne_at (h : e.Shaped Name.Readable) (hlabels : e.hasLabels = false)
    (hF : Follow F) : Next (· ≠ '@') (e.textAt .labeled ++ F) := by
  by_cases hop : ∃ op b k, e = .prefixed op b k
  · obtain ⟨op, b, k, rfl⟩ := hop
    refine next_cons (c := op.symbol) ?_
    cases op <;> decide
  · rw [textAt_suffixed hlabels h fun op b k he => hop ⟨op, b, k, he⟩]
    rcases suffixed_cases h hlabels hF with ⟨n, wrap, T, hr⟩ | hplain
    · rw [hr.text]
      exact next_nameText_ne_at (hr.name h) T
    · rw [← hplain.skipTrivia]
      exact hplain.next (by decide)

theorem elementOutcome_of_prefixed (hskip : skipTrivia s = s) (hat : Next (· ≠ '@') s)
    (hlabel : Refuses label s) (h : PrefixedOutcome s F o) : ElementOutcome s F o := by
  cases o with
  | some e' => exact finds_unlabeled hat hlabel h
  | none =>
      cases h with
      | @refuses c t hs hc hrefuses =>
          have hstuck : IsStuck c := forall_mem_of_all (by decide) c hc
          have hnone := refuses_labeled hat hlabel hrefuses
          rw [hs] at hnone ⊢
          exact stuck_elements hstuck hnone
      | @dollar t hs hfinds hrest =>
          refine stuck_next hskip (finds_unlabeled hat hlabel hfinds) ?_ hrest
          rw [hs]
          simp

theorem elementOutcome_of_plain (hs : Plain s) (h : PrefixedOutcome s F o) :
    ElementOutcome s F o := by
  have hat : Next (· ≠ '@') s := by
    have hat := hs.next (P := (· ≠ '@')) (by decide)
    rwa [hs.skipTrivia] at hat
  exact elementOutcome_of_prefixed hs.skipTrivia hat (refuses_label_of_name hs.name) h

theorem elementOutcome_unlabeled (h : e.Shaped Name.Readable) (hlabels : e.hasLabels = false)
    (hF : Follow F) (hb : PrefixedOutcome (e.textAt .labeled ++ F) F o) :
    ElementOutcome (e.textAt .labeled ++ F) F o :=
  elementOutcome_of_prefixed (skipTrivia_textAt h (isSequence_eq_false_of_hasLabels hlabels) F)
    (next_textAt_ne_at h hlabels hF) (refuses_label_labeled h hlabels hF) hb

end PegGrammar
