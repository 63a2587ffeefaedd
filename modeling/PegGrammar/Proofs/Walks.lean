import PegGrammar.Grammar.Visit
import PegGrammar.Proofs.Likeness
import PegGrammar.Proofs.PrintedText

namespace PegGrammar

variable {σ τ υ S α β : Type}

/-- A walk calls the hook for the locations `ls` in a row, and for nothing else. What it gives and
what the hook has given are in the relation `P`. -/
def Walks (hook : σ → StateM S τ) (ls : List σ) (walk : StateM S α)
    (P : List τ → α → Prop) : Prop :=
  ∀ s, ∃ ms a s', (ls.mapM hook).run s = (ms, s') ∧ walk.run s = (a, s') ∧ P ms a

namespace Walks

variable {hook : σ → StateM S τ} {l : σ} {ls ls' : List σ} {P : List τ → α → Prop}
  {Q : List τ → β → Prop}

protected theorem pure {a : α} (h : P [] a) : Walks hook [] (pure a) P :=
  fun s => ⟨[], a, s, rfl, rfl, h⟩

theorem cons {walk : τ → StateM S β} (h : ∀ m, Walks hook ls (walk m) fun ms b => Q (m :: ms) b) :
    Walks hook (l :: ls) (hook l >>= walk) Q := by
  intro s
  obtain ⟨ms, b, s', hrun, hwalk, hb⟩ := h ((hook l).run s).1 ((hook l).run s).2
  refine ⟨_ :: ms, b, s', ?_, hwalk, hb⟩
  rw [List.mapM_cons, StateT.run_bind]
  change ((ls.mapM hook >>= fun ms => pure (_ :: ms)).run ((hook l).run s).2) = _
  rw [StateT.run_bind, hrun]
  rfl

theorem last {f : τ → β} (h : ∀ m, Q [m] (f m)) :
    Walks hook [l] (hook l >>= fun m => pure (f m)) Q :=
  .cons fun m => .pure (h m)

protected theorem bind {walk : StateM S α} {next : α → StateM S β} (hx : Walks hook ls walk P)
    (hnext : ∀ ms a, P ms a → Walks hook ls' (next a) fun ms' b => Q (ms ++ ms') b) :
    Walks hook (ls ++ ls') (walk >>= next) Q := by
  intro s
  obtain ⟨ms, a, s₁, hrun, hwalk, ha⟩ := hx s
  obtain ⟨ms', b, s₂, hrun', hwalk', hb⟩ := hnext ms a ha s₁
  refine ⟨ms ++ ms', b, s₂, ?_, ?_, hb⟩
  · rw [List.mapM_append, StateT.run_bind, hrun]
    change ((ls'.mapM hook >>= fun ms' => pure (ms ++ ms')).run s₁) = _
    rw [StateT.run_bind, hrun']
    rfl
  · rw [StateT.run_bind, hwalk]
    exact hwalk'

theorem map {walk : StateM S α} {f : α → β} (hx : Walks hook ls walk P)
    (h : ∀ ms a, P ms a → Q ms (f a)) : Walks hook ls (walk >>= fun a => pure (f a)) Q := by
  intro s
  obtain ⟨ms, a, s', hrun, hwalk, ha⟩ := hx s
  refine ⟨ms, f a, s', hrun, ?_, h ms a ha⟩
  rw [StateT.run_bind, hwalk]
  rfl

theorem imp {P' : List τ → α → Prop} {walk : StateM S α} (hx : Walks hook ls walk P)
    (h : ∀ ms a, P ms a → P' ms a) : Walks hook ls walk P' := by
  intro s
  obtain ⟨ms, a, s', hrun, hwalk, ha⟩ := hx s
  exact ⟨ms, a, s', hrun, hwalk, h ms a ha⟩

end Walks

section

variable (hook : σ → StateM S τ)

namespace Expr

mutual

theorem walks_mapM : (e : Expr σ) →
    Walks hook e.locations (e.mapM hook) fun ms e' => e'.locations = ms ∧ e.Alike e'
  | .named _ _ e _ =>
      (walks_mapM e).bind fun | _, _, ⟨rfl, he⟩ => .last fun _ => ⟨rfl, .named he⟩
  | .choice es _ =>
      (walks_mapListM es).bind fun | _, _, ⟨rfl, hes⟩ => .last fun _ => ⟨rfl, .choice hes⟩
  | .action e _ _ _ =>
      (walks_mapM e).bind fun
        | _, _, ⟨rfl, he⟩ => .cons fun _ => .last fun _ => ⟨rfl, .action he⟩
  | .sequence es _ =>
      (walks_mapListM es).bind fun | _, _, ⟨rfl, hes⟩ => .last fun _ => ⟨rfl, .sequence hes⟩
  | .labeled _ _ _ e _ =>
      .cons fun _ =>
        (walks_mapM e).bind fun | _, _, ⟨rfl, he⟩ => .last fun _ => ⟨rfl, .labeled he⟩
  | .prefixed _ e _ =>
      (walks_mapM e).bind fun | _, _, ⟨rfl, he⟩ => .last fun _ => ⟨rfl, .prefixed he⟩
  | .suffixed _ e _ =>
      (walks_mapM e).bind fun | _, _, ⟨rfl, he⟩ => .last fun _ => ⟨rfl, .suffixed he⟩
  | .group e _ =>
      (walks_mapM e).bind fun | _, _, ⟨rfl, he⟩ => .last fun _ => ⟨rfl, .group he⟩
  | .predicate .. => .cons fun _ => .last fun _ => ⟨rfl, .predicate⟩
  | .ruleRef .. => .last fun _ => ⟨rfl, .ruleRef⟩
  | .literal .. => .last fun _ => ⟨rfl, .literal⟩
  | .charClass .. => .last fun _ => ⟨rfl, .charClass⟩
  | .any _ => .last fun _ => ⟨rfl, .any⟩

theorem walks_mapListM : (es : List (Expr σ)) →
    Walks hook (listLocations es) (mapListM hook es) fun ms es' =>
      listLocations es' = ms ∧ AlikeList es es'
  | [] => .pure ⟨rfl, .nil⟩
  | e :: es =>
      (walks_mapM e).bind fun
        | _, _, ⟨rfl, he⟩ => (walks_mapListM es).map fun | _, _, ⟨rfl, hes⟩ => ⟨rfl, .cons he hes⟩

end

end Expr

theorem Rule.walks_mapM (r : Rule σ) :
    Walks hook r.locations (r.mapM hook) fun ms r' => r'.locations = ms ∧ r.Alike r' := by
  refine .cons fun k => (r.expression.walks_mapM hook).bind ?_
  rintro _ e' ⟨rfl, he⟩
  exact .last fun l => ⟨rfl, rfl, he⟩

namespace Grammar

theorem walks_mapM_initializer (o : Option (Initializer σ)) :
    Walks hook (o.toList.flatMap (·.locations)) (o.mapM (·.mapM hook)) fun ms o' =>
      o'.toList.flatMap (·.locations) = ms ∧ o.map (·.code) = o'.map (·.code) := by
  cases o with
  | none => exact .pure ⟨rfl, rfl⟩
  | some i =>
      have hi : Walks hook i.locations (i.mapM hook) fun ms i' =>
          i'.locations = ms ∧ i.code = i'.code :=
        .cons fun k => .last fun l => ⟨rfl, rfl⟩
      change Walks hook (i.locations ++ []) (i.mapM hook >>= fun i' => pure (some i')) _
      rw [List.append_nil]
      refine hi.map ?_
      rintro _ i' ⟨rfl, hcode⟩
      exact ⟨List.append_nil _, congrArg some hcode⟩

theorem walks_mapM_rules (rs : List (Rule σ)) :
    Walks hook (rs.flatMap (·.locations)) (rs.mapM (·.mapM hook)) fun ms rs' =>
      rs'.flatMap (·.locations) = ms ∧ List.Forall₂ Rule.Alike rs rs' := by
  induction rs with
  | nil =>
      rw [List.mapM_nil]
      exact .pure ⟨rfl, .nil⟩
  | cons r rs ih =>
      rw [List.mapM_cons, List.flatMap_cons]
      refine (r.walks_mapM hook).bind ?_
      rintro _ r' ⟨rfl, hr⟩
      refine ih.map ?_
      rintro _ rs' ⟨rfl, hrs⟩
      exact ⟨rfl, .cons hr hrs⟩

theorem walks_mapM (g : Grammar σ) :
    Walks hook g.locations (g.mapM hook) fun ms g' => g'.locations = ms ∧ g.Alike g' := by
  rw [locations, List.append_assoc, List.append_assoc]
  refine (walks_mapM_initializer hook g.topLevel).bind ?_
  rintro _ top ⟨rfl, htop⟩
  refine (walks_mapM_initializer hook g.perParse).bind ?_
  rintro _ per ⟨rfl, hper⟩
  refine (walks_mapM_rules hook g.rules).bind ?_
  rintro _ rs ⟨rfl, hrs⟩
  refine .last fun l => ⟨?_, htop, hper, hrs⟩
  rw [locations, List.append_assoc, List.append_assoc]

end Grammar

end

section Pure

variable {m : Type → Type} [Monad m] [LawfulMonad m] (f : σ → τ)

namespace Expr

mutual

theorem mapM_pure : (e : Expr σ) → e.mapM (fun l => (pure (f l) : m τ)) = pure (e.map f)
  | .named _ _ e _ | .action e _ _ _ | .labeled _ _ _ e _ | .prefixed _ e _ | .suffixed _ e _
  | .group e _ => by simp [mapM, map, mapM_pure e]
  | .choice es _ | .sequence es _ => by simp [mapM, map, mapListM_pure es]
  | .predicate .. | .ruleRef .. | .literal .. | .charClass .. | .any _ => by simp [mapM, map]

theorem mapListM_pure : (es : List (Expr σ)) →
    mapListM (fun l => (pure (f l) : m τ)) es = pure (mapList f es)
  | [] => rfl
  | e :: es => by simp [mapListM, mapList, mapM_pure e, mapListM_pure es]

end

end Expr

theorem Rule.mapM_pure (r : Rule σ) : r.mapM (fun l => (pure (f l) : m τ)) = pure (r.map f) := by
  simp [mapM, map, Expr.mapM_pure]

theorem Grammar.mapM_pure (g : Grammar σ) :
    g.mapM (fun l => (pure (f l) : m τ)) = pure (g.map f) := by
  have hinit (o : Option (Initializer σ)) :
      o.mapM (·.mapM fun l => (pure (f l) : m τ)) = pure (o.map (·.map f)) := by
    cases o with
    | none => rfl
    | some i => simp [Initializer.mapM, Initializer.map]
  have hrules :
      g.rules.mapM (·.mapM fun l => (pure (f l) : m τ)) = pure (g.rules.map (·.map f)) := by
    simp only [Rule.mapM_pure, List.mapM_pure]
  simp [mapM, map, hinit, hrules]

end Pure

section Map

variable (f : σ → τ)

theorem Walks.of_pure {ls : List σ} {a : α} {P : List τ → α → Prop}
    (h : Walks (S := Unit) (fun l => pure (f l)) ls (pure a) P) : P (ls.map f) a := by
  obtain ⟨ms, b, s', hrun, hwalk, hb⟩ := h ()
  rw [List.mapM_pure] at hrun
  cases hrun
  cases hwalk
  exact hb

theorem Expr.locations_alike_map (e : Expr σ) :
    (e.map f).locations = e.locations.map f ∧ e.Alike (e.map f) := by
  have h := e.walks_mapM (S := Unit) fun l => pure (f l)
  rw [mapM_pure] at h
  exact h.of_pure

theorem Grammar.locations_alike_map (g : Grammar σ) :
    (g.map f).locations = g.locations.map f ∧ g.Alike (g.map f) := by
  have h := g.walks_mapM (S := Unit) fun l => pure (f l)
  rw [mapM_pure] at h
  exact h.of_pure

end Map

section Alike

variable {e : Expr σ} {e' : Expr τ} {r : Rule σ} {r' : Rule τ} {g : Grammar σ} {g' : Grammar τ}

theorem Expr.Alike.map_const (h : e.Alike e') (u : υ) :
    e.map (fun _ => u) = e'.map fun _ => u := by
  obtain ⟨hl, he⟩ := e.locations_alike_map fun _ => u
  obtain ⟨hl', he'⟩ := e'.locations_alike_map fun _ => u
  refine (he.symm.trans (h.trans he')).eq_of_locations ?_
  rw [hl, hl', List.map_const', List.map_const', h.length_eq]

theorem Rule.Alike.map_const (h : r.Alike r') (u : υ) : r.map (fun _ => u) = r'.map fun _ => u := by
  rw [map, map, h.name, h.expression.map_const]

theorem Grammar.Alike.map_const (h : g.Alike g') (u : υ) :
    g.map (fun _ => u) = g'.map fun _ => u := by
  obtain ⟨hl, hg⟩ := g.locations_alike_map fun _ => u
  obtain ⟨hl', hg'⟩ := g'.locations_alike_map fun _ => u
  refine (hg.symm.trans (h.trans hg')).eq_of_locations ?_
  rw [hl, hl', List.map_const', List.map_const', h.length_eq]

theorem Expr.Alike.print_eq (h : e.Alike e') : e'.print = e.print := by
  rw [print, print, ← text_map (fun _ => ()) e, ← text_map (fun _ => ()) e', h.map_const]

theorem Rule.Alike.print_eq (h : r.Alike r') : r'.print = r.print := by
  rw [print, print, ← text_map (fun _ => ()) r, ← text_map (fun _ => ()) r', h.map_const]

theorem Grammar.Alike.print_eq (h : g.Alike g') : g'.print = g.print := by
  rw [print, print, ← text_map (fun _ => ()) g, ← text_map (fun _ => ()) g', h.map_const]

/-- Without their locations, exactly the grammars that are alike are the same. -/
theorem Grammar.strip_eq_iff {g g' : Grammar Span} : g.strip = g'.strip ↔ g.Alike g' := by
  constructor
  · intro h
    have hg : g.Alike g.strip := (g.locations_alike_map _).2
    have hg' : g'.Alike g'.strip := (g'.locations_alike_map _).2
    exact (h ▸ hg).trans hg'.symm
  · exact fun h => h.map_const ({} : Span)

end Alike

section Refill

/-- Puts the next one of some given locations in the place of a location. -/
def refill (l : σ) : StateM (List σ) σ := modifyGet fun ms => (ms.headD l, ms.tail)

theorem mapM_refill {ls ms : List σ} (h : ms.length = ls.length) :
    (ls.mapM refill).run ms = (ms, []) := by
  induction ls generalizing ms with
  | nil =>
      obtain rfl := List.length_eq_zero_iff.1 h
      rfl
  | cons l ls ih =>
      obtain ⟨m, ms, rfl⟩ := List.exists_cons_of_length_eq_add_one h
      rw [List.mapM_cons, StateT.run_bind]
      change (ls.mapM refill >>= fun ms => pure (m :: ms)).run ms = _
      rw [StateT.run_bind, ih (Nat.succ.inj h)]
      rfl

/-- For any locations in the places of its own, there is exactly one grammar. -/
theorem Grammar.existsUnique_locations (g : Grammar σ) {ms : List σ}
    (h : ms.length = g.locations.length) : ∃! g' : Grammar σ, g.Alike g' ∧ g'.locations = ms := by
  obtain ⟨ms', g', s', hrun, -, hl, hg⟩ := g.walks_mapM refill ms
  rw [mapM_refill h] at hrun
  cases hrun
  refine ⟨g', ⟨hg, hl⟩, fun g'' hg'' => ?_⟩
  exact (hg''.1.symm.trans hg).eq_of_locations (hg''.2.trans hl.symm)

end Refill

section Visits

def Visit.location? : Visit σ → Option σ
  | .location l => some l
  | _ => none

namespace Expr

mutual

theorem locations_visits : (e : Expr σ) → e.visits.filterMap Visit.location? = e.locations
  | .named _ _ e _ | .action e _ _ _ | .labeled _ _ _ e _ | .prefixed _ e _ | .suffixed _ e _
  | .group e _ => by
      simp [visits, locations, Visit.location?, List.filterMap_cons, locations_visits e]
  | .choice es _ | .sequence es _ => by
      simp [visits, locations, Visit.location?, List.filterMap_cons, locations_listVisits es]
  | .predicate .. | .ruleRef .. | .literal .. | .charClass .. | .any _ => rfl

theorem locations_listVisits : (es : List (Expr σ)) →
    (listVisits es).filterMap Visit.location? = listLocations es
  | [] => rfl
  | e :: es => by simp [listVisits, listLocations, locations_visits e, locations_listVisits es]

end

end Expr

theorem Grammar.locations_visits (g : Grammar σ) :
    g.visits.filterMap Visit.location? = g.locations := by
  have hinit (o : Option (Initializer σ)) : (o.elim [] (·.visits)).filterMap Visit.location? =
      o.toList.flatMap (·.locations) := by
    cases o <;> rfl
  have hrule (r : Rule σ) : r.visits.filterMap Visit.location? = r.locations := by
    simp [Rule.visits, Rule.locations, Visit.location?, List.filterMap_cons, Expr.locations_visits]
  simp [visits, locations, Visit.location?, List.filterMap_cons, List.filterMap_flatMap, hinit,
    hrule]

end Visits

section Strip

theorem Expr.Alike.refl (e : Expr σ) : e.Alike e := by
  have h := (e.locations_alike_map id).2
  rwa [map_id] at h

theorem Rule.alike_stripExpression (r : Rule Span) : r.Alike r.stripExpression :=
  ⟨rfl, (r.expression.locations_alike_map _).2⟩

theorem Grammar.alike_stripRule (g : Grammar Span) (i : Nat) : g.Alike (g.stripRule i) := by
  refine ⟨rfl, rfl, List.forall₂_iff_get.2 ⟨(List.length_modify ..).symm, fun j hj hj' => ?_⟩⟩
  simp only [stripRule, List.get_eq_getElem, List.getElem_modify]
  split
  · exact Rule.alike_stripExpression _
  · exact ⟨rfl, .refl _⟩

theorem Grammar.expression_stripRule (g : Grammar Span) (i j : Nat) :
    (g.stripRule i).rules[j]?.map (·.expression) =
      (if j = i then g.strip else g).rules[j]?.map (·.expression) := by
  rw [stripRule, List.getElem?_modify]
  split
  next hij =>
    rw [if_pos hij.symm, strip, map, List.getElem?_map]
    cases g.rules[j]? <;> rfl
  next hij =>
    rw [if_neg (Ne.symm hij)]
    cases g.rules[j]? <;> rfl

end Strip

/-- What walks do to trees. -/
structure WalkLaws : Prop where
  grammar : ∀ {S : Type} (hook : Span → StateM S Span) (g : Grammar Span),
    Walks hook g.locations (g.mapM hook) fun ms g' =>
      g'.locations = ms ∧ g.Alike g' ∧ g'.print = g.print
  rule : ∀ {S : Type} (hook : Span → StateM S Span) (r : Rule Span),
    Walks hook r.locations (r.mapM hook) fun ms r' =>
      r'.locations = ms ∧ r.Alike r' ∧ r'.print = r.print
  expression : ∀ {S : Type} (hook : Span → StateM S Span) (e : Expr Span),
    Walks hook e.locations (e.mapM hook) fun ms e' =>
      e'.locations = ms ∧ e.Alike e' ∧ e'.print = e.print
  /-- No location of a grammar is missing in `Grammar.locations`, and none is there twice. -/
  each_once : ∀ (g : Grammar Span) (ms : List Span), ms.length = g.locations.length →
    ∃! g' : Grammar Span, g.Alike g' ∧ g'.locations = ms
  recorded : ∀ g : Grammar Span, g.visits.filterMap Visit.location? = g.locations
  /-- Stripping is the walk with the hook that resets a location. -/
  strip : ∀ {S : Type} (g : Grammar Span), (g.mapM fun _ => pure {} : StateM S _) = pure g.strip
  strip_expression : ∀ {S : Type} (e : Expr Span),
    (e.mapM fun _ => pure {} : StateM S _) = pure e.strip
  strip_strip : ∀ g : Grammar Span, g.strip.strip = g.strip
  strip_eq_iff : ∀ g g' : Grammar Span, g.strip = g'.strip ↔ g.Alike g'
  expressions : ∀ g : Grammar Span,
    g.strip.rules.map (·.expression) = g.rules.map (·.expression.strip)
  /-- Stripping the expression of one rule. -/
  strip_rule : ∀ (g : Grammar Span) (i : Nat), (g.stripRule i).strip = g.strip ∧
    ∀ j, (g.stripRule i).rules[j]?.map (·.expression) =
      (if j = i then g.strip else g).rules[j]?.map (·.expression)

/-- A walk meets every location once, in the order of the fields, and leaves all else as it is. -/
theorem walkLaws : WalkLaws where
  grammar hook g := (g.walks_mapM hook).imp fun _ _ h => ⟨h.1, h.2, h.2.print_eq⟩
  rule hook r := (r.walks_mapM hook).imp fun _ _ h => ⟨h.1, h.2, h.2.print_eq⟩
  expression hook e := (e.walks_mapM hook).imp fun _ _ h => ⟨h.1, h.2, h.2.print_eq⟩
  each_once g _ h := g.existsUnique_locations h
  recorded g := g.locations_visits
  strip g := g.mapM_pure _
  strip_expression e := e.mapM_pure _
  strip_strip g := Grammar.map_map _ _ g
  strip_eq_iff _ _ := Grammar.strip_eq_iff
  expressions g := by
    rw [Grammar.strip, Grammar.map, List.map_map]
    rfl
  strip_rule g i :=
    ⟨(Grammar.strip_eq_iff.2 (g.alike_stripRule i)).symm, g.expression_stripRule i⟩

end PegGrammar
