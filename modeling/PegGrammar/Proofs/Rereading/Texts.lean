import PegGrammar.Proofs.Rereading.Tree

namespace PegGrammar

open Reader

variable {σ : Type}

/-- The text of an expression where one of precedence `p` is wanted. -/
def Expr.textAt (e : Expr σ) (p : Precedence) : Text := Printer.parens (e.looserThan p) e.text

theorem Expr.texts_eq_map (p : Precedence) (es : List (Expr σ)) :
    Expr.texts p es = es.map (·.textAt p) := by
  induction es with
  | nil => rfl
  | cons e es ih => rw [Expr.texts, ih, List.map_cons]; rfl

def plainHeads : List Char := ['(', '"', '[', '.', '&', '!']

/-- The text begins with a parenthesis, a literal, a class, a dot or a code predicate. -/
inductive Plain : Text → Prop
  | char {c : Char} (t : Text) (h : c ∈ ['(', '"', '[', '.']) : Plain (c :: t)
  | mark (p : Polarity) (t : Text) : Plain (p.symbol :: '{' :: t)

theorem Plain.append {t : Text} (h : Plain t) (u : Text) : Plain (t ++ u) := by
  cases h with
  | char t h => exact .char (t ++ u) h
  | mark p t => exact .mark p (t ++ u)

theorem Plain.exists_cons {t : Text} (h : Plain t) :
    ∃ c u, t = c :: u ∧ c ∈ plainHeads := by
  cases h with
  | @char c t h => exact ⟨c, t, rfl, forall_mem_of_all (P := (· ∈ plainHeads)) (by decide) c h⟩
  | mark p t => exact ⟨_, _, rfl, by cases p <;> decide⟩

theorem opens_of_mem {c : Char} (h : c ∈ plainHeads) : opens c = true :=
  forall_mem_of_all (P := (opens · = true)) (by decide +kernel) c h

theorem opens_of_isNameHead {c : Char} (h : IsNameHead c) : opens c = true := by
  rcases h with h | rfl
  · simp [opens, h]
  · decide

theorem exists_nameText {n : String} (h : Name.Readable n) :
    ∃ c t, Printer.nameText n.toList = c :: t ∧ IsNameHead c := by
  obtain ⟨c, s, hn, hc, -⟩ := h.chars
  rw [hn, Printer.nameText, Printer.nameChar]
  split
  next hplain =>
    refine ⟨c, _, rfl, .inl ?_⟩
    rcases hplain with hplain | hbig
    · exact hplain
    · rcases hc with hc | hc
      · exact hc
      · omega
  next => exact ⟨'\\', _, rfl, .inr rfl⟩

theorem length_lt_append {c : Char} {t u : Text} (h : t = c :: u) (F : Text) :
    F.length < (t ++ F).length := by
  rw [h, List.length_append, List.length_cons]
  omega

namespace Expr

variable {N : String → Prop} {e : Expr σ}

theorem plain_primary (h : e.Shaped N) (hlabels : e.hasLabels = false)
    (href : ∀ n k, e ≠ .ruleRef n k) : Plain (e.textAt .primary) := by
  cases e with
  | named => exact h.elim
  | sequence | labeled => cases hlabels
  | choice | action | prefixed | suffixed | group => exact .char _ (by decide)
  | predicate p => exact .mark p _
  | ruleRef n k => exact (href n k rfl).elim
  | literal | charClass | any => exact .char _ (by decide)

theorem plain_suffixed (h : e.Shaped N) (hlabels : e.hasLabels = false)
    (href : e.isReference = false) : Plain (e.textAt .suffixed) := by
  cases e with
  | named => exact h.elim
  | sequence | labeled => cases hlabels
  | choice | action | prefixed | group => exact .char _ (by decide)
  | suffixed op b k =>
      refine Plain.append (plain_primary h.2 h.1 ?_) [op.symbol]
      rintro n j rfl
      cases href
  | predicate p => exact .mark p _
  | ruleRef n k => cases href
  | literal | charClass | any => exact .char _ (by decide)

theorem textAt_primary (hlabels : e.hasLabels = false) (h : e.Shaped N)
    (hop : ∀ op b k, e ≠ .suffixed op b k) : e.textAt .suffixed = e.textAt .primary := by
  cases e with
  | named => exact h.elim
  | sequence | labeled => cases hlabels
  | suffixed op b k => exact (hop op b k rfl).elim
  | _ => rfl

theorem textAt_suffixed (hlabels : e.hasLabels = false) (h : e.Shaped N)
    (hop : ∀ op b k, e ≠ .prefixed op b k) : e.textAt .labeled = e.textAt .suffixed := by
  cases e with
  | named => exact h.elim
  | sequence | labeled => cases hlabels
  | prefixed op b k => exact (hop op b k rfl).elim
  | _ => rfl

theorem textAt_prefixed (hlabels : e.hasLabels = false) (h : e.Shaped N) :
    e.textAt .labeled = e.textAt .prefixed := by
  cases e with
  | named => exact h.elim
  | sequence | labeled => cases hlabels
  | _ => rfl

theorem textAt_label (n : String) (j k : σ) (b : Expr σ) :
    textAt (.labeled (some n) j false b k) .labeled =
      Printer.nameText n.toList ++ (':' :: b.textAt .prefixed) := by
  simp [textAt, looserThan, precedence, Printer.parens, text]

theorem exists_textAt_labeled (hN : ∀ {n}, N n → Name.Readable n) (h : e.Shaped N)
    (hseq : e.isSequence = false) : ∃ c t, e.textAt .labeled = c :: t ∧ opens c = true := by
  have name {n : String} (hn : N n) (u : Text) :
      ∃ c t, Printer.nameText n.toList ++ u = c :: t ∧ opens c = true := by
    obtain ⟨c, t, ht, hc⟩ := exists_nameText (hN hn)
    exact ⟨c, t ++ u, by rw [ht]; rfl, opens_of_isNameHead hc⟩
  have plain {t : Text} (ht : Plain t) : ∃ c u, t = c :: u ∧ opens c = true := by
    obtain ⟨c, u, rfl, hc⟩ := ht.exists_cons
    exact ⟨c, u, rfl, opens_of_mem hc⟩
  cases e with
  | named => exact h.elim
  | sequence => cases hseq
  | labeled l j pick b k =>
      cases pick with
      | true => exact ⟨'@', _, rfl, by decide⟩
      | false =>
          cases l with
          | none => cases h.1 rfl
          | some n =>
              rw [textAt_label]
              exact name (h.2.1 n rfl) _
  | prefixed op b k =>
      refine ⟨op.symbol, b.textAt .suffixed, rfl, ?_⟩
      cases op <;> decide
  | suffixed op b k =>
      by_cases href : ∃ n j, b = .ruleRef n j
      · obtain ⟨n, j, rfl⟩ := href
        exact name h.2 [op.symbol]
      · have hplain : Plain (b.textAt .primary ++ [op.symbol]) :=
          (plain_primary h.2 h.1 fun n j hb => href ⟨n, j, hb⟩).append _
        exact plain hplain
  | ruleRef n k =>
      have := name h []
      rwa [List.append_nil] at this
  | choice | action => exact ⟨'(', _, rfl, by decide⟩
  | group | predicate | literal | charClass | any => exact plain (plain_suffixed h rfl rfl)

end Expr

end PegGrammar
