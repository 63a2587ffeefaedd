import PegGrammar.Proofs.Rereading.Follow

namespace PegGrammar

open Reader

/-- Nothing goes on at this character, neither an element nor anything that ends a row of them. -/
def IsStuck (c : Char) : Prop := c ∈ [':', '(', '@', '&', '!', '=', '~']

instance (c : Char) : Decidable (IsStuck c) := inferInstanceAs (Decidable (c ∈ _))

/-- Reading has come to a text where it cannot go on, possibly after spaces. -/
inductive Stuck : Text → Prop
  | here {c : Char} (t : Text) (hc : IsStuck c) : Stuck (c :: t)
  | space {r : Text} (h : Stuck r) : Stuck (' ' :: r)

theorem IsStuck.solid {c : Char} (h : IsStuck c) : Solid c :=
  forall_mem_of_all (by decide +kernel) c h

theorem IsStuck.ne {c d : Char} (h : IsStuck c) (hd : ¬ IsStuck d) : c ≠ d := by
  rintro rfl
  exact hd h

theorem Stuck.exists_skipTrivia {r : Text} (h : Stuck r) :
    ∃ c t, skipTrivia r = c :: t ∧ IsStuck c := by
  induction h with
  | @here c t hc => exact ⟨c, t, skipTrivia_solid hc.solid t, hc⟩
  | space _ ih =>
      rw [skipTrivia_space]
      exact ih

theorem Stuck.next {r : Text} (h : Stuck r) {P : Char → Prop} (hP : ∀ c, IsStuck c → P c) :
    Next P (skipTrivia r) := by
  obtain ⟨c, t, hr, hc⟩ := h.exists_skipTrivia
  rw [hr]
  exact next_cons (hP c hc)

namespace Reader

variable {s t F m : Text} {n : String} {e b : Expr Unit} {o : Option (Expr Unit)}

section Outcomes

def PrimaryOutcome (s F : Text) : Option (Expr Unit) → Prop
  | some e => Finds (primary expression) s e F
  | none => Refuses (primary expression) s ∧ ∃ t, s = '(' :: t

def OperandOutcome (s F : Text) : Option (Expr Unit) → Prop
  | some e => Finds (suffixed expression) s e F
  | none => Refuses (suffixed expression) s ∧ ∃ t, s = '(' :: t

/-- An operator whose operand cannot be read: the text is refused, except that a dollar sign is then
read as a name. -/
inductive PrefixedJam (s : Text) : Prop
  | refuses {c : Char} {t : Text} (hs : s = c :: t) (hc : c ∈ ['(', '&', '!'])
      (h : Refuses (prefixed expression) s)
  | dollar {t : Text} (hs : s = '$' :: '(' :: t)
      (h : Finds (prefixed expression) s (.ruleRef "$" ()) ('(' :: t))
      (hrest : Refuses (labeled expression) ('(' :: t))

def PrefixedOutcome (s F : Text) : Option (Expr Unit) → Prop
  | some e => Finds (prefixed expression) s e F
  | none => PrefixedJam s

def ElementOutcome (s F : Text) : Option (Expr Unit) → Prop
  | some e => Finds (labeled expression) s e F
  | none => ∃ es r, Elements s es r ∧ Stuck r

end Outcomes

theorem operandOutcome_of_primary (h : PrimaryOutcome s F o) (hF : Next IsNoSuffix (skipTrivia F)) :
    OperandOutcome s F o := by
  cases o with
  | some e => exact finds_suffixed h hF
  | none => exact ⟨refuses_suffixed h.1, h.2⟩

theorem operandOutcome_suffixed (op : SuffixOp) (h : PrimaryOutcome s (op.symbol :: F) o) :
    OperandOutcome s F (o.map (.suffixed op · ())) := by
  cases o with
  | some e => exact finds_suffixed_op op h
  | none => exact ⟨refuses_suffixed h.1, h.2⟩

theorem refuses_suffixed_shut {inner : Reader Node}
    (h : Next (fun c => opens c = false ∨ c = '@') s) : Refuses (suffixed inner) s :=
  refuses_suffixed (refuses_primary h)

theorem refuses_prefixed_paren (h : Refuses (suffixed expression) ('(' :: t)) :
    Refuses (prefixed expression) ('(' :: t) :=
  refuses_prefixed (next_cons (by decide)) h

theorem refuses_label_char {c : Char} (hname : isNameStart c = false) (hslash : c ≠ '\\') :
    Refuses label (c :: t) := refuses_label_of_name (Name.name_eq_none hname hslash)

theorem refuses_labeled_paren (h : Refuses (suffixed expression) ('(' :: t)) :
    Refuses (labeled expression) ('(' :: t) :=
  refuses_labeled (next_cons (by decide)) (refuses_label_char (by decide) (by decide))
    (refuses_prefixed_paren h)

theorem refuses_labeled_shut {inner : Reader Node} (h : Next (opens · = false) s) :
    Refuses (labeled inner) s := by
  have hshut : Next (fun c => opens c = false ∨ c = '@') s := h.imp fun _ hc => .inl hc
  refine refuses_labeled (h.imp fun c hc => ?_) (refuses_label_of_name (name_of_shut hshut))
    (refuses_prefixed (h.imp fun c hc => ?_) (refuses_suffixed_shut hshut))
  · rintro rfl
    cases hc
  · refine ⟨?_, ?_, ?_⟩
    all_goals
      rintro rfl
      cases hc

theorem isNoPrefix_of_mem {c : Char} (h : c ∈ ['(', '"', '[', '.']) : IsNoPrefix c :=
  forall_mem_of_all (by decide) c h

theorem prefixedOutcome_of_operand (ht : Plain s) (h : OperandOutcome s F o) :
    PrefixedOutcome s F o := by
  cases ht with
  | @char c t hc =>
      cases o with
      | some e => exact finds_prefixed (next_cons (isNoPrefix_of_mem hc)) h
      | none =>
          obtain ⟨hrefuses, u, hu⟩ := h
          cases hu
          exact .refuses rfl (by decide) (refuses_prefixed_paren hrefuses)
  | mark p t =>
      have hbrace : Refuses (suffixed expression) (skipTrivia ('{' :: t)) :=
        refuses_suffixed_shut (next_skipTrivia (by decide) (by decide))
      cases o with
      | some e =>
          cases p with
          | positive => exact finds_prefixed_of_suffixed .and hbrace h
          | negative => exact finds_prefixed_of_suffixed .not hbrace h
      | none =>
          obtain ⟨-, u, hu⟩ := h
          cases p <;> cases hu

theorem name_dollar (hF : Name.Ends F) : Name.name ('$' :: F) = some ⟨"$", 1⟩ := by
  have hparts := Name.nameParts_of_nameChar (Name.nameChar_of_ends hF)
  have hchar : Name.nameChar isNameStart (['$'] ++ F) = some ⟨'$', ['$'].length⟩ := rfl
  rw [← List.singleton_append, Name.name_append hchar, hparts]
  rfl

/-- A dollar sign that ends there is a reference to its name. -/
theorem finds_suffixed_dollar (hF : Ends F) (hnext : Next IsNoSuffix (skipTrivia F)) :
    Finds (suffixed expression) ('$' :: F) (.ruleRef "$" ()) F :=
  finds_suffixed (finds_primary_ruleRef (name_dollar hF.name) hF.rule) hnext

theorem prefixedOutcome_op (op : PrefixOp) (hskip : skipTrivia s = s) (h : OperandOutcome s F o) :
    PrefixedOutcome (op.symbol :: s) F (o.map (.prefixed op · ())) := by
  cases o with
  | some e =>
      apply finds_prefixed_op op
      rw [hskip]
      exact h
  | none =>
      obtain ⟨hrefuses, t, rfl⟩ := h
      rw [← hskip] at hrefuses
      have hmark (p : Polarity) : Refuses (suffixed expression) (p.symbol :: '(' :: t) :=
        refuses_suffixed (refuses_primary_mark p (next_skipTrivia (by decide) (by decide)))
      cases op with
      | text =>
          have hends : Ends ('(' :: t) :=
            ends_cons (by decide) (by decide) (by decide) (by decide) (by decide)
          have hname := finds_suffixed_dollar hends
            (next_skipTrivia (by decide) (by decide))
          rw [hskip] at hrefuses
          exact .dollar rfl (finds_prefixed_of_suffixed .text (by rwa [hskip]) hname)
            (refuses_labeled_paren hrefuses)
      | and => exact .refuses rfl (by decide) (refuses_prefixed_op .and hrefuses (hmark .positive))
      | not => exact .refuses rfl (by decide) (refuses_prefixed_op .not hrefuses (hmark .negative))

end Reader

end PegGrammar
