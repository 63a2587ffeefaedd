import PegGrammar.Proofs.Rereading.Texts

namespace PegGrammar

open Reader

/-- A name in front of this text ends there and is a reference. -/
structure Ends (F : Text) : Prop where
  name : Name.Ends F
  rule : startsRule F = false

/-- The character neither goes on with an element nor makes something else of a name before it. -/
def IsFollow (c : Char) : Prop := c ∉ ['?', '*', '+', ':', '=', '~']

instance (c : Char) : Decidable (IsFollow c) := inferInstanceAs (Decidable (c ∉ _))

structure Follow (F : Text) : Prop extends Ends F where
  next : Next IsFollow (skipTrivia F)

theorem isFollow_of_opens {c : Char} (h : opens c = true) : IsFollow c := by
  intro hc
  have hshut : ∀ d ∈ ['?', '*', '+', ':', '=', '~'], opens d = false :=
    forall_mem_of_all (by decide +kernel)
  rw [hshut c hc] at h
  cases h

theorem IsFollow.ne {c d : Char} (h : IsFollow c) (hd : d ∈ ['?', '*', '+', ':', '=', '~']) :
    c ≠ d := by
  rintro rfl
  exact h hd

theorem Follow.noSuffix {F : Text} (h : Follow F) : Next IsNoSuffix (skipTrivia F) :=
  h.next.imp fun _ hc => ⟨hc.ne (by decide), hc.ne (by decide), hc.ne (by decide)⟩

namespace Reader

variable {s m F : Text} {c : Char}

theorem next_cons {P : Char → Prop} (h : P c) : Next P (c :: s) := by
  rintro _ ⟨⟩
  exact h

theorem next_skipTrivia {P : Char → Prop} (hsolid : Solid c) (h : P c) :
    Next P (skipTrivia (c :: s)) := by
  rw [skipTrivia_solid hsolid]
  exact next_cons h

theorem startsRule_congr {t : Text} (h : skipTrivia s = skipTrivia t) :
    startsRule s = startsRule t := by
  rw [startsRule, startsRule, h]

theorem startsRule_space (s : Text) : startsRule (' ' :: s) = startsRule s :=
  startsRule_congr (skipTrivia_space s)

theorem startsRule_of_next
    (h : Next (fun c => StringLiteral.isQuote c = false ∧ c ≠ '=') (skipTrivia s)) :
    startsRule s = false := by
  have hnone : StringLiteral.stringLiteral (skipTrivia s) = none := by
    cases hs : skipTrivia s with
    | nil => rfl
    | cons c t =>
        have hc := h c (by rw [hs]; rfl)
        simp [StringLiteral.stringLiteral, hc.1]
  rw [startsRule, hnone]
  refine decide_eq_false fun heq => (h '=' heq).2 rfl

theorem startsRule_string {t : Text} {v : String}
    (h : StringLiteral.stringLiteral (t ++ F) = some ⟨v, t.length⟩)
    (hskip : skipTrivia (t ++ F) = t ++ F)
    (hF : Next (fun c => c ≠ '~' ∧ c ≠ '=') (skipTrivia F)) : startsRule (t ++ F) = false := by
  rw [startsRule, hskip, h]
  simp only [List.drop_left]
  refine decide_eq_false fun heq => ?_
  split at heq
  next t ht => exact (hF '~' (by rw [ht]; rfl)).1 rfl
  next => exact (hF '=' heq).2 rfl

theorem startsRule_quote (v : Text) (hF : Next (fun c => c ≠ '~' ∧ c ≠ '=') (skipTrivia F)) :
    startsRule (Printer.quote v ++ F) = false :=
  startsRule_string (StringLiteral.stringLiteral_quote v F) (skipTrivia_solid (by decide) _) hF

end Reader

theorem ends_cons {c : Char} {s : Text} (hsolid : Solid c) (hname : isNamePart c = false)
    (hslash : c ≠ '\\') (hquote : StringLiteral.isQuote c = false) (heq : c ≠ '=') :
    Ends (c :: s) := by
  refine ⟨?_, startsRule_of_next (next_skipTrivia hsolid ⟨hquote, heq⟩)⟩
  rintro _ ⟨⟩
  exact ⟨hname, hslash⟩

theorem follow_cons {c : Char} {s : Text} (hsolid : Solid c) (hname : isNamePart c = false)
    (hslash : c ≠ '\\') (hquote : StringLiteral.isQuote c = false) (hfollow : IsFollow c) :
    Follow (c :: s) :=
  ⟨ends_cons hsolid hname hslash hquote (hfollow.ne (by decide)), next_skipTrivia hsolid hfollow⟩

theorem ends_suffix (op : SuffixOp) (s : Text) : Ends (op.symbol :: s) := by
  cases op <;> exact ends_cons (by decide) (by decide +kernel) (by decide) (by decide) (by decide)

theorem follow_close (s : Text) : Follow (')' :: s) :=
  follow_cons (by decide) (by decide +kernel) (by decide) (by decide) (by decide)

theorem nameEnds_of_head {c : Char} {s : Text} (hname : isNamePart c = false) (hslash : c ≠ '\\') :
    Name.Ends (c :: s) := by
  rintro _ ⟨⟩
  exact ⟨hname, hslash⟩

theorem Plain.nameEnds {t : Text} (h : Plain t) : Name.Ends t := by
  obtain ⟨c, u, rfl, hc⟩ := h.exists_cons
  have hends : ∀ c ∈ plainHeads, isNamePart c = false ∧ c ≠ '\\' :=
    forall_mem_of_all (by decide +kernel)
  exact nameEnds_of_head (hends c hc).1 (hends c hc).2

theorem Plain.next {t : Text} (h : Plain t) {P : Char → Prop} [DecidablePred P]
    (hP : plainHeads.all (P ·) = true) : Next P (skipTrivia t) := by
  obtain ⟨c, u, rfl, hc⟩ := h.exists_cons
  exact next_skipTrivia (solid_of_opens (opens_of_mem hc)) (forall_mem_of_all hP c hc)

theorem Plain.skipTrivia {t : Text} (h : Plain t) : skipTrivia t = t := by
  obtain ⟨c, u, rfl, hc⟩ := h.exists_cons
  exact skipTrivia_solid (solid_of_opens (opens_of_mem hc)) u

theorem Plain.name {t : Text} (h : Plain t) : Name.name t = none := by
  obtain ⟨c, u, rfl, hc⟩ := h.exists_cons
  have hnone : ∀ c ∈ plainHeads, isNameStart c = false ∧ c ≠ '\\' :=
    forall_mem_of_all (by decide +kernel)
  exact Name.name_eq_none (hnone c hc).1 (hnone c hc).2

namespace Expr

variable {σ : Type} {N : String → Prop} {e : Expr σ} {F : Text}

theorem next_caseFlag (i : Bool) (hF : Next (fun c => c ≠ '~' ∧ c ≠ '=') (skipTrivia F)) :
    Next (fun c => c ≠ '~' ∧ c ≠ '=') (skipTrivia (Printer.caseFlag i ++ F)) := by
  cases i with
  | true => exact next_skipTrivia (solid_of_isNamePart (by decide +kernel)) (by decide)
  | false => exact hF

theorem startsRule_of_opens {c : Char} {t : Text} (hopen : opens c = true)
    (hquote : StringLiteral.isQuote c = false) : startsRule (c :: t) = false :=
  startsRule_of_next (next_skipTrivia (solid_of_opens hopen)
    ⟨hquote, (isFollow_of_opens hopen).ne (by decide)⟩)

theorem isQuote_of_isNameHead {c : Char} (h : IsNameHead c) : StringLiteral.isQuote c = false := by
  have hdouble := h.ne (d := '"') (by decide) (by decide)
  have hsingle := h.ne (d := '\x27') (by decide) (by decide)
  simp [StringLiteral.isQuote, hdouble, hsingle]

theorem startsRule_name {n : String} (hn : Name.Readable n) (s : Text) :
    startsRule (Printer.nameText n.toList ++ s) = false := by
  obtain ⟨c, t, ht, hc⟩ := exists_nameText hn
  rw [ht]
  exact startsRule_of_opens (opens_of_isNameHead hc) (isQuote_of_isNameHead hc)

theorem startsRule_primary (hN : ∀ {n}, N n → Name.Readable n) (h : e.Shaped N)
    (hlabels : e.hasLabels = false) (hF : Next (fun c => c ≠ '~' ∧ c ≠ '=') (skipTrivia F)) :
    startsRule (e.textAt .primary ++ F) = false := by
  cases e with
  | named => exact h.elim
  | sequence | labeled => cases hlabels
  | choice | action | prefixed | suffixed | group =>
      exact startsRule_of_opens (c := '(') (by decide) (by decide)
  | predicate p =>
      exact startsRule_of_opens (c := p.symbol) (by cases p <;> decide) (by cases p <;> decide)
  | ruleRef n k => exact startsRule_name (hN h) F
  | literal v i k =>
      have htext : textAt (.literal v i k) .primary ++ F =
          Printer.quote v.toList ++ (Printer.caseFlag i ++ F) := by
        rw [← List.append_assoc]
        rfl
      rw [htext]
      exact startsRule_quote _ (next_caseFlag i hF)
  | charClass => exact startsRule_of_opens (c := '[') (by decide) (by decide)
  | any => exact startsRule_of_opens (c := '.') (by decide) (by decide)

theorem next_suffix (op : SuffixOp) (s : Text) :
    Next (fun c => c ≠ '~' ∧ c ≠ '=') (skipTrivia (op.symbol :: s)) :=
  next_skipTrivia (solid_suffix op) (by cases op <;> decide)

theorem startsRule_suffixed (hN : ∀ {n}, N n → Name.Readable n) (h : e.Shaped N)
    (hlabels : e.hasLabels = false) (hF : Next (fun c => c ≠ '~' ∧ c ≠ '=') (skipTrivia F)) :
    startsRule (e.textAt .suffixed ++ F) = false := by
  by_cases hop : ∃ op b k, e = .suffixed op b k
  · obtain ⟨op, b, k, rfl⟩ := hop
    have htext : textAt (.suffixed op b k) .suffixed ++ F =
        b.textAt .primary ++ (op.symbol :: F) := by
      rw [← List.singleton_append, ← List.append_assoc]
      rfl
    rw [htext]
    exact startsRule_primary hN h.2 h.1 (next_suffix op F)
  · rw [textAt_primary hlabels h fun op b k he => hop ⟨op, b, k, he⟩]
    exact startsRule_primary hN h hlabels hF

theorem startsRule_labeled (hN : ∀ {n}, N n → Name.Readable n) (h : e.Shaped N)
    (hseq : e.isSequence = false) (hF : Next (fun c => c ≠ '~' ∧ c ≠ '=') (skipTrivia F)) :
    startsRule (e.textAt .labeled ++ F) = false := by
  by_cases hlabels : e.hasLabels = false
  · by_cases hop : ∃ op b k, e = .prefixed op b k
    · obtain ⟨op, b, k, rfl⟩ := hop
      exact startsRule_of_opens (c := op.symbol) (by cases op <;> decide) (by cases op <;> decide)
    · rw [textAt_suffixed hlabels h fun op b k he => hop ⟨op, b, k, he⟩]
      exact startsRule_suffixed hN h hlabels hF
  · cases e with
    | labeled l j pick b k =>
        cases pick with
        | true => exact startsRule_of_opens (c := '@') (by decide) (by decide)
        | false =>
            cases l with
            | none => cases h.1 rfl
            | some n =>
                rw [textAt_label, List.append_assoc]
                exact startsRule_name (hN (h.2.1 n rfl)) _
    | sequence => cases hseq
    | _ => exact (hlabels rfl).elim

theorem follow_textAt (hN : ∀ {n}, N n → Name.Readable n) (h : e.Shaped N)
    (hseq : e.isSequence = false) (hF : Follow F) : Follow (' ' :: (e.textAt .labeled ++ F)) := by
  obtain ⟨c, t, ht, hc⟩ := exists_textAt_labeled hN h hseq
  refine ⟨⟨nameEnds_of_head (by decide) (by decide), ?_⟩, ?_⟩
  · rw [startsRule_space]
    exact startsRule_labeled hN h hseq
      (hF.next.imp fun d hd => ⟨hd.ne (by decide), hd.ne (by decide)⟩)
  · rw [skipTrivia_space, ht]
    exact next_skipTrivia (solid_of_opens hc) (isFollow_of_opens hc)

end Expr

end PegGrammar
