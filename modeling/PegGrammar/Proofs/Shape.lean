import PegGrammar.Proofs.ConcreteSyntax

namespace PegGrammar

variable {σ τ : Type}

namespace Expr

def isSequence : Expr σ → Bool
  | .sequence .. => true
  | _ => false

mutual

/-- An expression under a rule has the shape of one that was read, its names being in `N`. -/
def Shaped (N : String → Prop) : Expr σ → Prop
  | .named .. => False
  | .choice es _ => 2 ≤ es.length ∧ (∀ e ∈ es, e.isPick = false) ∧ ShapedList N es
  | .action e code _ _ => e.isPick = false ∧ e.Shaped N ∧ Balanced code.toList
  | .sequence es _ => (∀ e, es = [e] → e.isPick = true) ∧ (∀ e ∈ es, e.isSequence = false) ∧
      ShapedList N es
  | .labeled label _ pick e _ => (label = none → pick = true) ∧ (∀ n ∈ label, N n) ∧
      e.hasLabels = false ∧ e.Shaped N
  | .prefixed _ e _ => e.hasLabels = false ∧ e.Shaped N
  | .suffixed _ e _ => e.hasLabels = false ∧ e.Shaped N
  | .group e _ => e.hasLabels = true ∧ e.isPick = false ∧ e.Shaped N
  | .predicate _ code _ _ => Balanced code.toList
  | .ruleRef n _ => N n
  | .literal .. => True
  | .charClass ps _ _ _ => ∀ p ∈ ps, p.isOrdered = true
  | .any _ => True

def ShapedList (N : String → Prop) : List (Expr σ) → Prop
  | [] => True
  | e :: es => e.Shaped N ∧ ShapedList N es

end

theorem shapedList_iff {N : String → Prop} {es : List (Expr σ)} :
    ShapedList N es ↔ ∀ e ∈ es, e.Shaped N := by
  induction es with
  | nil => simp [ShapedList]
  | cons e es ih => simp [ShapedList, ih]

theorem isPick_eq_false_of_hasLabels {e : Expr σ} (h : e.hasLabels = false) : e.isPick = false := by
  cases e <;> simp_all [hasLabels, isPick]

theorem isSequence_eq_false_of_hasLabels {e : Expr σ} (h : e.hasLabels = false) :
    e.isSequence = false := by
  cases e <;> simp_all [hasLabels, isSequence]

theorem isPick_map (f : σ → τ) (e : Expr σ) : (e.map f).isPick = e.isPick := by
  cases e <;> rfl

theorem isSequence_map (f : σ → τ) (e : Expr σ) : (e.map f).isSequence = e.isSequence := by
  cases e <;> rfl

section

variable {N : String → Prop} {f : σ → τ}

mutual

theorem shaped_map : (e : Expr σ) → ((e.map f).Shaped N ↔ e.Shaped N)
  | .named .. => Iff.rfl
  | .choice es _ => by
      simp only [Expr.map, Shaped, shapedList_map es]
      simp [mapList_eq_map, isPick_map]
  | .action e _ _ _ => by simp only [Expr.map, Shaped, shaped_map e, isPick_map]
  | .sequence es _ => by
      simp only [Expr.map, Shaped, shapedList_map es]
      simp [mapList_eq_map, isPick_map, isSequence_map, List.map_eq_singleton_iff]
  | .labeled _ _ _ e _ => by simp only [Expr.map, Shaped, shaped_map e, hasLabels_map]
  | .prefixed _ e _ => by simp only [Expr.map, Shaped, shaped_map e, hasLabels_map]
  | .suffixed _ e _ => by simp only [Expr.map, Shaped, shaped_map e, hasLabels_map]
  | .group e _ => by simp only [Expr.map, Shaped, shaped_map e, hasLabels_map, isPick_map]
  | .predicate .. => Iff.rfl
  | .ruleRef .. => Iff.rfl
  | .literal .. => Iff.rfl
  | .charClass .. => Iff.rfl
  | .any _ => Iff.rfl

theorem shapedList_map : (es : List (Expr σ)) → (ShapedList N (mapList f es) ↔ ShapedList N es)
  | [] => Iff.rfl
  | e :: es => by simp only [mapList, ShapedList, shaped_map e, shapedList_map es]

end

end

end Expr

def Rule.body (r : Rule σ) : Expr σ :=
  match r.expression with
  | .named _ _ e _ => e
  | e => e

theorem Rule.body_of_shaped {N : String → Prop} {n : String} {j k : σ} {e : Expr σ}
    (h : e.Shaped N) : Rule.body ⟨n, j, e, k⟩ = e := by
  cases e with
  | named => exact h.elim
  | _ => rfl

/-- A rule has the shape of one that was read; a display name stands nowhere but on top. -/
structure Rule.Shaped (N : String → Prop) (r : Rule σ) : Prop where
  name : N r.name
  body : r.body.Shaped N
  body_isPick : r.body.isPick = false

theorem Rule.Shaped.plain {N : String → Prop} {n : String} {j k : σ} {e : Expr σ} (hn : N n)
    (h : e.Shaped N) (hpick : e.isPick = false) : Rule.Shaped N ⟨n, j, e, k⟩ := by
  have heq : Rule.body ⟨n, j, e, k⟩ = e := body_of_shaped h
  exact ⟨hn, heq.symm ▸ h, heq.symm ▸ hpick⟩

structure Grammar.Shaped (N : String → Prop) (g : Grammar σ) : Prop where
  rules_ne_nil : g.rules ≠ []
  rules : ∀ r ∈ g.rules, r.Shaped N
  topLevel : ∀ i ∈ g.topLevel, Balanced i.code.toList
  perParse : ∀ i ∈ g.perParse, Balanced i.code.toList

theorem Rule.bare_body (r : Rule σ) : r.bare.body = r.body.bare := by
  obtain ⟨n, j, e, k⟩ := r
  cases e <;> rfl

theorem Rule.Shaped.of_bare_eq {N : String → Prop} {r : Rule σ} {r' : Rule τ} (h : r.Shaped N)
    (heq : r'.bare = r.bare) : r'.Shaped N := by
  have hbody : r'.body.bare = r.body.bare := by rw [← bare_body, heq, bare_body]
  refine ⟨?_, ?_, ?_⟩
  · rw [(Rule.bare_eq_iff.1 heq).1]
    exact h.name
  · rw [← Expr.shaped_map, show r'.body.map _ = _ from hbody]
    exact Expr.shaped_map _ |>.2 h.body
  · rw [← Expr.isPick_map, show r'.body.map _ = _ from hbody]
    exact (Expr.isPick_map _ _).trans h.body_isPick

/-- The shape of a document does not depend on the locations in it. -/
theorem Grammar.Shaped.of_bare_eq {N : String → Prop} {g : Grammar σ} {g' : Grammar τ}
    (h : g.Shaped N) (heq : g'.bare = g.bare) : g'.Shaped N := by
  obtain ⟨htop, hinit, hrules⟩ := Grammar.bare_eq_iff.1 heq
  have code {o : Option (Initializer σ)} {o' : Option (Initializer τ)}
      (ho : ∀ i ∈ o, Balanced i.code.toList)
      (heq : o'.map Initializer.bare = o.map Initializer.bare) :
      ∀ i ∈ o', Balanced i.code.toList := by
    rintro i' rfl
    obtain ⟨i, rfl, hi⟩ := Option.map_eq_some_iff.1 heq.symm
    rw [← Initializer.bare_eq_iff.1 hi]
    exact ho i rfl
  refine ⟨?_, ?_, code h.topLevel htop, code h.perParse hinit⟩
  · intro hnil
    rw [hnil] at hrules
    exact h.rules_ne_nil (List.map_eq_nil_iff.1 hrules.symm)
  · intro r' hr'
    have hmem := List.mem_map_of_mem (f := Rule.bare) hr'
    rw [hrules] at hmem
    obtain ⟨r, hr, heq⟩ := List.mem_map.1 hmem
    exact (h.rules r hr).of_bare_eq heq.symm

end PegGrammar
