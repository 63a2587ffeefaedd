import PegGrammar.Proofs.Rereading.Headers

namespace PegGrammar

open Reader PegGrammar.Expr

variable {σ : Type} {F : Text} {n : String} {d : Option (String × Bool)} {e : Expr Unit}

section Front

theorem next_header (hn : Name.Readable n) (s : Text) :
    Next IsNameHead (skipTrivia ('\n' :: (Printer.nameText n.toList ++ s))) := by
  obtain ⟨c, u, hu, hc⟩ := exists_nameText hn
  rw [skipTrivia_newline, skipTrivia_nameText hn, hu]
  exact next_cons hc

theorem follow_header (hn : Name.Readable n) (s : Text) :
    Follow ('\n' :: '\n' :: (Printer.nameText n.toList ++ s)) := by
  have hnext : Next IsNameHead (skipTrivia ('\n' :: '\n' :: (Printer.nameText n.toList ++ s))) := by
    rw [skipTrivia_newline]
    exact next_header hn s
  refine ⟨⟨nameEnds_of_head (by decide +kernel) (by decide), startsRule_of_next ?_⟩, ?_⟩
  · exact hnext.imp fun c hc => ⟨isQuote_of_isNameHead hc, hc.ne (by decide) (by decide)⟩
  · exact hnext.imp fun c hc => isFollow_of_opens (opens_of_isNameHead hc)

theorem skipTrivia_header (hn : Name.Readable n) (s : Text) :
    skipTrivia ('\n' :: '\n' :: (Printer.nameText n.toList ++ s)) =
      Printer.nameText n.toList ++ s := by
  rw [skipTrivia_newline, skipTrivia_newline, skipTrivia_nameText hn]

theorem refuses_suffixed_header (hn : Name.Readable n) (d : Option (String × Bool)) (X : Text) :
    Refuses (suffixed expression) (Printer.nameText n.toList ++ afterName d X) :=
  refuses_suffixed (refuses_primary_header (Name.name_nameText hn (nameEnds_afterName d X))
    (by rw [List.drop_left]; exact startsRule_afterName d X))

theorem refuses_label_header (hn : Name.Readable n) (d : Option (String × Bool)) (X : Text) :
    Refuses label (Printer.nameText n.toList ++ afterName d X) := by
  refine refuses_label (Name.name_nameText hn (nameEnds_afterName d X)) ?_
  rw [List.drop_left]
  refine (next_afterName d X).imp fun c hc => ?_
  rcases hc with rfl | rfl <;> decide

theorem refuses_labeled_header (hn : Name.Readable n) (hd : n = "$" → d = none) (X : Text) :
    Refuses (labeled expression) (Printer.nameText n.toList ++ afterName d X) := by
  refine refuses_labeled (next_nameText_ne_at hn _) (refuses_label_header hn d X)
    (refuses_prefixed_header hn (nameEnds_afterName d X) (startsRule_afterName d X) ?_).2
  intro hn
  rw [hd hn, afterName, displayText, List.nil_append, skipTrivia_equals]
  exact refuses_suffixed_shut (next_cons (by decide))

theorem shut_header (hn : Name.Readable n) (hd : n = "$" → d = none) (X : Text) :
    Shut ('\n' :: '\n' :: (Printer.nameText n.toList ++ afterName d X)) := by
  refine ⟨follow_header hn _, ?_, ?_⟩
  · rw [skipTrivia_header hn]
    exact refuses_suffixed_header hn d X
  · rw [skipTrivia_header hn]
    exact refuses_labeled_header hn hd X

theorem shut_newline : Shut ['\n'] := by
  have hskip : skipTrivia ['\n'] = [] := by rw [skipTrivia_newline, skipTrivia_nil]
  have hnext (P : Char → Prop) : Next P (skipTrivia ['\n']) := by
    rw [hskip]
    exact nofun
  exact shut_of_next ⟨⟨nameEnds_of_head (by decide +kernel) (by decide), startsRule_of_next (hnext _)⟩,
    hnext _⟩ (hnext _)

theorem stuck_header (d : String) (v : Bool) (X : Text) :
    ∃ es r, Elements ('\n' :: '\n' :: ('$' :: afterName (some (d, v)) X)) es r ∧ Stuck r := by
  have hskip : skipTrivia ('\n' :: '\n' :: ('$' :: afterName (some (d, v)) X)) =
      '$' :: afterName (some (d, v)) X := by
    rw [skipTrivia_newline, skipTrivia_newline, skipTrivia_solid (by decide)]
  have hstuck : ∃ c t, Stuck ((if v then ['~'] else []) ++ ' ' :: '=' :: ' ' :: X) ∧
      skipTrivia ((if v then ['~'] else []) ++ ' ' :: '=' :: ' ' :: X) = c :: t ∧
      IsNoSuffix c ∧ opens c = false := by
    cases v with
    | true => exact ⟨'~', _, .here _ (by decide), skipTrivia_solid (by decide) _,
        by decide, by decide⟩
    | false => exact ⟨'=', _, .space (.here _ (by decide)), skipTrivia_equals _,
        by decide, by decide⟩
  obtain ⟨c, t, hstuck, hrest, hsuffix, hopens⟩ := hstuck
  have hi : Next (· ≠ 'i') ((if v then ['~'] else []) ++ ' ' :: '=' :: ' ' :: X) := by
    cases v <;> exact next_cons (by decide)
  have hliteral : Finds (suffixed expression) (skipTrivia (afterName (some (d, v)) X))
      (.literal d false ()) ((if v then ['~'] else []) ++ ' ' :: '=' :: ' ' :: X) := by
    rw [skipTrivia_afterName_some]
    refine finds_suffixed (finds_primary_literal d false fun _ => hi) ?_
    rw [hrest]
    exact next_cons hsuffix
  have hlabel : Refuses label ('$' :: afterName (some (d, v)) X) :=
    refuses_label_header (n := "$") ⟨'$', [], rfl, .inl (by decide), by simp⟩ (some (d, v)) X
  have hfinds := finds_unlabeled (next_cons (by decide)) hlabel (finds_prefixed_op .text hliteral)
  refine ⟨_, _, .next (hskip.symm ▸ hfinds) ?_ (.stop ?_), hstuck⟩
  · rw [hskip, afterName_some]
    simp only [List.length_cons, List.length_append]
    omega
  · rw [hrest]
    exact refuses_labeled_shut (next_cons hopens)

end Front

section Body

def Expr.isAction : Expr σ → Bool
  | .action .. => true
  | _ => false

/-- The last alternative has code after it, which nothing that follows can be taken for. -/
def Expr.endsInAction : Expr σ → Bool
  | .choice es _ => es.getLast?.any isAction
  | e => e.isAction

theorem textAt_action {N : String → Prop} (h : e.Shaped N) (haction : e.isAction = false) :
    e.textAt .action = e.textAt .sequence := by
  cases e with
  | named => exact h.elim
  | action => cases haction
  | sequence es k => exact (textAt_sequence h).1
  | _ => rfl

theorem outcome_stuck_row (hshape : e.Shaped Name.Readable) (haction : e.isAction = false)
    (hF : Follow F) (hsuffixed : Refuses (suffixed expression) (skipTrivia F))
    (hstuck : ∃ es r, Elements F es r ∧ Stuck r) (hnext : Next (· ≠ '{') (skipTrivia F)) :
    Outcome (action expression) (e.textAt .action) F none := by
  have hend : ElementsOutcome F F (if false then some [] else none) := hstuck
  have hrow := elementsOutcome_spaced hF hsuffixed hend e.row (rereads e hshape).row
  have h := outcome_sequence (o := none) hrow
  rw [rowText_row hshape, ← textAt_action hshape haction] at h
  exact outcome_action_plain h hnext

/-- Where the header of the next rule is mistaken for an element, only code can end a rule. -/
theorem outcome_stuck (hshape : e.Shaped Name.Readable) (hpick : e.isPick = false) (hF : Follow F)
    (hsuffixed : Refuses (suffixed expression) (skipTrivia F))
    (hstuck : ∃ es r, Elements F es r ∧ Stuck r)
    (hnext : Next (fun c => c ≠ '{' ∧ c ≠ '/') (skipTrivia F)) :
    Outcome (choice expression) e.text F (if e.endsInAction then e.reread else none) := by
  have hbrace := hnext.imp fun _ hc => hc.1
  have hslash := hnext.imp fun _ hc => hc.2
  have alternative {x : Expr Unit} (hx : x.Shaped Name.Readable) :
      Outcome (action expression) (x.textAt .action) F (if x.isAction then x.reread else none) := by
    cases x with
    | action b code j k =>
        exact outcome_action hx.2.2 hx.2.1 hx.1 (rereads b hx.2.1).row F
    | _ => exact outcome_stuck_row hx rfl hF hsuffixed hstuck hbrace
  cases e with
  | choice es k =>
      refine outcome_choice_of_last hshape.1
        (fun e he => (rereadsList es hshape.2.2 e he).action (hshape.2.1 e he)) hslash fun x hx => ?_
      have hlast : Expr.endsInAction (.choice es k) = x.isAction := by
        rw [endsInAction, hx]
        rfl
      rw [hlast]
      exact alternative (shapedList_iff.1 hshape.2.2 x (List.mem_of_getLast? hx))
  | sequence es k =>
      have h := alternative hshape
      rw [← (textAt_sequence hshape).2] at h
      exact outcome_choice_single h hslash
  | named => exact hshape.elim
  | _ => exact outcome_choice_single (alternative hshape) hslash

end Body

end PegGrammar
