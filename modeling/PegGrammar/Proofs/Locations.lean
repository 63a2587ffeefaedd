import PegGrammar.Proofs.Mapping

namespace PegGrammar

variable {σ τ υ : Type}

/-- From every state in `I` on, a computation gives a value in `P` and goes to a state in `I`. -/
def Gives {S α : Type} (I : S → Prop) (x : OptionT (StateM S) α) (P : α → Prop) : Prop :=
  ∀ s, I s → ∃ a s', x.run.run s = (some a, s') ∧ P a ∧ I s'

namespace Gives

variable {S α β : Type} {I : S → Prop} {P : α → Prop} {Q : β → Prop}

protected theorem pure {a : α} (h : P a) : Gives I (pure a) P :=
  fun s hs => ⟨a, s, rfl, h, hs⟩

theorem imp {P' : α → Prop} {x : OptionT (StateM S) α} (hx : Gives I x P)
    (h : ∀ a, P a → P' a) : Gives I x P' := by
  intro s hs
  obtain ⟨a, s', hrun, ha, hs'⟩ := hx s hs
  exact ⟨a, s', hrun, h a ha, hs'⟩

protected theorem bind {x : OptionT (StateM S) α} {f : α → OptionT (StateM S) β}
    (hx : Gives I x P) (hf : ∀ a, P a → Gives I (f a) Q) : Gives I (x >>= f) Q := by
  intro s hs
  obtain ⟨a, s₁, hrun, ha, hs₁⟩ := hx s hs
  obtain ⟨b, s₂, hrun₂, hb, hs₂⟩ := hf a ha s₁ hs₁
  refine ⟨b, s₂, ?_, hb, hs₂⟩
  rw [OptionT.run_bind, Option.elimM, StateT.run_bind, hrun]
  exact hrun₂

end Gives

namespace Expr

def bare (e : Expr σ) : Expr Unit := e.map fun _ => ()

mutual

/-- All locations of a tree are in `L`. -/
def Located (L : σ → Prop) : Expr σ → Prop
  | .named _ _ e l => e.Located L ∧ L l
  | .choice es l => LocatedList L es ∧ L l
  | .action e _ k l => e.Located L ∧ L k ∧ L l
  | .sequence es l => LocatedList L es ∧ L l
  | .labeled _ k _ e l => L k ∧ e.Located L ∧ L l
  | .prefixed _ e l => e.Located L ∧ L l
  | .suffixed _ e l => e.Located L ∧ L l
  | .group e l => e.Located L ∧ L l
  | .predicate _ _ k l => L k ∧ L l
  | .ruleRef _ l => L l
  | .literal _ _ l => L l
  | .charClass _ _ _ l => L l
  | .any l => L l

def LocatedList (L : σ → Prop) : List (Expr σ) → Prop
  | [] => True
  | e :: es => e.Located L ∧ LocatedList L es

end

section

variable {S : Type} {I : S → Prop} {L : σ → Prop} {f : σ → OptionT (StateM S) τ} {u : σ → υ}
  {v : τ → υ}

mutual

/-- What the computation keeps of every location, it keeps of the whole tree. -/
theorem gives_mapM (hf : ∀ l, L l → Gives I (f l) fun l' => v l' = u l) :
    (e : Expr σ) → e.Located L → Gives I (e.mapM f) fun e' => e'.map v = e.map u
  | .named n b e l, h => by
      refine (gives_mapM hf e h.1).bind fun e' he => ?_
      refine (hf l h.2).bind fun l' hl => .pure ?_
      exact congr (congrArg (Expr.named n b) he) hl
  | .choice es l, h => by
      refine (gives_mapListM hf es h.1).bind fun es' hes => ?_
      refine (hf l h.2).bind fun l' hl => .pure ?_
      exact congr (congrArg Expr.choice hes) hl
  | .action e c k l, h => by
      refine (gives_mapM hf e h.1).bind fun e' he => ?_
      refine (hf k h.2.1).bind fun k' hk => ?_
      refine (hf l h.2.2).bind fun l' hl => .pure ?_
      exact congr (congr (congrArg (Expr.action · c) he) hk) hl
  | .sequence es l, h => by
      refine (gives_mapListM hf es h.1).bind fun es' hes => ?_
      refine (hf l h.2).bind fun l' hl => .pure ?_
      exact congr (congrArg Expr.sequence hes) hl
  | .labeled n k p e l, h => by
      refine (hf k h.1).bind fun k' hk => ?_
      refine (gives_mapM hf e h.2.1).bind fun e' he => ?_
      refine (hf l h.2.2).bind fun l' hl => .pure ?_
      exact congr (congr (congrArg (Expr.labeled n · p) hk) he) hl
  | .prefixed op e l, h => by
      refine (gives_mapM hf e h.1).bind fun e' he => ?_
      refine (hf l h.2).bind fun l' hl => .pure ?_
      exact congr (congrArg (Expr.prefixed op) he) hl
  | .suffixed op e l, h => by
      refine (gives_mapM hf e h.1).bind fun e' he => ?_
      refine (hf l h.2).bind fun l' hl => .pure ?_
      exact congr (congrArg (Expr.suffixed op) he) hl
  | .group e l, h => by
      refine (gives_mapM hf e h.1).bind fun e' he => ?_
      refine (hf l h.2).bind fun l' hl => .pure ?_
      exact congr (congrArg Expr.group he) hl
  | .predicate p c k l, h => by
      refine (hf k h.1).bind fun k' hk => ?_
      refine (hf l h.2).bind fun l' hl => .pure ?_
      exact congr (congrArg (Expr.predicate p c) hk) hl
  | .ruleRef n l, h => (hf l h).bind fun _ hl => .pure (congrArg (Expr.ruleRef n) hl)
  | .literal s i l, h => (hf l h).bind fun _ hl => .pure (congrArg (Expr.literal s i) hl)
  | .charClass ps b i l, h =>
      (hf l h).bind fun _ hl => .pure (congrArg (Expr.charClass ps b i) hl)
  | .any l, h => (hf l h).bind fun _ hl => .pure (congrArg Expr.any hl)

theorem gives_mapListM (hf : ∀ l, L l → Gives I (f l) fun l' => v l' = u l) :
    (es : List (Expr σ)) → LocatedList L es →
      Gives I (mapListM f es) fun es' => mapList v es' = mapList u es
  | [], _ => .pure rfl
  | e :: es, h => by
      refine (gives_mapM hf e h.1).bind fun e' he => ?_
      refine (gives_mapListM hf es h.2).bind fun es' hes => .pure ?_
      exact congr (congrArg List.cons he) hes

end

end

end Expr

namespace Initializer

def bare (i : Initializer σ) : Initializer Unit := i.map fun _ => ()

theorem bare_eq_iff {i : Initializer σ} {i' : Initializer τ} :
    i'.bare = i.bare ↔ i'.code = i.code := by
  simp [bare, Initializer.map]

def Located (L : σ → Prop) (i : Initializer σ) : Prop := L i.codeLocation ∧ L i.location

theorem gives_mapM {S : Type} {I : S → Prop} {L : σ → Prop} {f : σ → OptionT (StateM S) τ}
    {u : σ → υ} {v : τ → υ} (hf : ∀ l, L l → Gives I (f l) fun l' => v l' = u l)
    (i : Initializer σ) (h : i.Located L) : Gives I (i.mapM f) fun i' => i'.map v = i.map u := by
  refine (hf _ h.1).bind fun k hk => (hf _ h.2).bind fun l hl => .pure ?_
  exact congr (congrArg (Initializer.mk i.code) hk) hl

end Initializer

namespace Rule

def bare (r : Rule σ) : Rule Unit := r.map fun _ => ()

theorem bare_eq_iff {r : Rule σ} {r' : Rule τ} :
    r'.bare = r.bare ↔ r'.name = r.name ∧ r'.expression.bare = r.expression.bare := by
  simp [bare, Rule.map, Expr.bare]

def Located (L : σ → Prop) (r : Rule σ) : Prop :=
  L r.nameLocation ∧ r.expression.Located L ∧ L r.location

theorem gives_mapM {S : Type} {I : S → Prop} {L : σ → Prop} {f : σ → OptionT (StateM S) τ}
    {u : σ → υ} {v : τ → υ} (hf : ∀ l, L l → Gives I (f l) fun l' => v l' = u l) (r : Rule σ)
    (h : r.Located L) : Gives I (r.mapM f) fun r' => r'.map v = r.map u := by
  refine (hf _ h.1).bind fun k hk => ?_
  refine (r.expression.gives_mapM hf h.2.1).bind fun e' he => ?_
  refine (hf _ h.2.2).bind fun l hl => .pure ?_
  exact congr (congr (congrArg (Rule.mk r.name) hk) he) hl

end Rule

namespace Grammar

def bare (g : Grammar σ) : Grammar Unit := g.map fun _ => ()

theorem bare_eq_iff {g : Grammar σ} {g' : Grammar τ} :
    g'.bare = g.bare ↔ g'.topLevel.map Initializer.bare = g.topLevel.map Initializer.bare ∧
      g'.perParse.map Initializer.bare = g.perParse.map Initializer.bare ∧
      g'.rules.map Rule.bare = g.rules.map Rule.bare := by
  change Grammar.mk (g'.topLevel.map Initializer.bare) (g'.perParse.map Initializer.bare)
    (g'.rules.map Rule.bare) () = Grammar.mk _ _ _ () ↔ _
  rw [Grammar.mk.injEq]
  simp only [and_true]
  rfl

structure Located (L : σ → Prop) (g : Grammar σ) : Prop where
  topLevel : ∀ i ∈ g.topLevel, i.Located L
  perParse : ∀ i ∈ g.perParse, i.Located L
  rules : ∀ r ∈ g.rules, r.Located L
  location : L g.location

section

variable {S : Type} {I : S → Prop} {L : σ → Prop} {f : σ → OptionT (StateM S) τ} {u : σ → υ}
  {v : τ → υ}

theorem gives_mapM_initializer (hf : ∀ l, L l → Gives I (f l) fun l' => v l' = u l)
    (o : Option (Initializer σ)) (h : ∀ i ∈ o, i.Located L) :
    Gives I (o.mapM (·.mapM f)) fun o' => o'.map (·.map v) = o.map (·.map u) := by
  cases o with
  | none => exact .pure rfl
  | some i =>
      refine (i.gives_mapM hf (h i rfl)).bind fun i' hi => .pure ?_
      exact congrArg some hi

theorem gives_mapM_rules (hf : ∀ l, L l → Gives I (f l) fun l' => v l' = u l) (rs : List (Rule σ))
    (h : ∀ r ∈ rs, r.Located L) :
    Gives I (rs.mapM (·.mapM f)) fun rs' => rs'.map (·.map v) = rs.map (·.map u) := by
  induction rs with
  | nil =>
      rw [List.mapM_nil]
      exact .pure rfl
  | cons r rs ih =>
      rw [List.mapM_cons]
      refine (r.gives_mapM hf (h r List.mem_cons_self)).bind fun r' hr => ?_
      refine (ih fun x hx => h x (List.mem_cons_of_mem r hx)).bind fun rs' hrs => .pure ?_
      exact congr (congrArg List.cons hr) hrs

theorem gives_mapM (hf : ∀ l, L l → Gives I (f l) fun l' => v l' = u l) (g : Grammar σ)
    (h : g.Located L) : Gives I (g.mapM f) fun g' => g'.map v = g.map u := by
  refine (gives_mapM_initializer hf _ h.topLevel).bind fun top htop => ?_
  refine (gives_mapM_initializer hf _ h.perParse).bind fun init hinit => ?_
  refine (gives_mapM_rules hf _ h.rules).bind fun rs hrs => ?_
  refine (hf _ h.location).bind fun l hl => .pure ?_
  exact congr (congr (congr (congrArg Grammar.mk htop) hinit) hrs) hl

end

end Grammar

end PegGrammar
