import PegGrammar.Proofs.Placement

namespace PegGrammar

variable {σ τ : Type} {L : σ → Prop} {f : σ → τ}

namespace Expr

mutual

/-- The locations of the nodes of a tree and of the labels in it. -/
def anchors : Expr σ → List σ
  | .named _ _ e l => l :: e.anchors
  | .choice es l => l :: anchorsList es
  | .action e _ _ l => l :: e.anchors
  | .sequence es l => l :: anchorsList es
  | .labeled _ k _ e l => l :: k :: e.anchors
  | .prefixed _ e l => l :: e.anchors
  | .suffixed _ e l => l :: e.anchors
  | .group e l => l :: e.anchors
  | .predicate _ _ _ l => [l]
  | .ruleRef _ l => [l]
  | .literal _ _ l => [l]
  | .charClass _ _ _ l => [l]
  | .any l => [l]

def anchorsList : List (Expr σ) → List σ
  | [] => []
  | e :: es => e.anchors ++ anchorsList es

end

mutual

theorem anchors_map : (e : Expr σ) → (e.map f).anchors = e.anchors.map f
  | .named _ _ e _ | .action e _ _ _ | .labeled _ _ _ e _ | .prefixed _ e _ | .suffixed _ e _
  | .group e _ => by simp only [Expr.map, anchors, anchors_map e, List.map_cons]
  | .choice es _ | .sequence es _ => by
      simp only [Expr.map, anchors, anchorsList_map es, List.map_cons]
  | .predicate .. | .ruleRef .. | .literal .. | .charClass .. | .any _ => rfl

theorem anchorsList_map : (es : List (Expr σ)) → anchorsList (mapList f es) = (anchorsList es).map f
  | [] => rfl
  | e :: es => by simp only [mapList, anchorsList, anchors_map e, anchorsList_map es, List.map_append]

end

mutual

theorem forall_anchors : (e : Expr σ) → e.Located L → ∀ l ∈ e.anchors, L l
  | .named _ _ e _, h | .prefixed _ e _, h | .suffixed _ e _, h | .group e _, h =>
      List.forall_mem_cons.2 ⟨h.2, forall_anchors e h.1⟩
  | .choice es _, h | .sequence es _, h =>
      List.forall_mem_cons.2 ⟨h.2, forall_anchorsList es h.1⟩
  | .action e _ _ _, h => List.forall_mem_cons.2 ⟨h.2.2, forall_anchors e h.1⟩
  | .labeled _ _ _ e _, h =>
      List.forall_mem_cons.2 ⟨h.2.2, List.forall_mem_cons.2 ⟨h.1, forall_anchors e h.2.1⟩⟩
  | .predicate .., h => List.forall_mem_singleton.2 h.2
  | .ruleRef .., h | .literal .., h | .charClass .., h | .any _, h => List.forall_mem_singleton.2 h

theorem forall_anchorsList : (es : List (Expr σ)) → LocatedList L es → ∀ l ∈ anchorsList es, L l
  | [], _ => by simp [anchorsList]
  | e :: es, h => List.forall_mem_append.2 ⟨forall_anchors e h.1, forall_anchorsList es h.2⟩

end

end Expr

def Rule.anchors (r : Rule σ) : List σ := r.location :: r.expression.anchors

theorem Rule.anchors_map (r : Rule σ) : (r.map f).anchors = r.anchors.map f := by
  rw [anchors, anchors, List.map_cons, ← Expr.anchors_map]
  rfl

theorem Rule.forall_anchors (r : Rule σ) (h : r.Located L) : ∀ l ∈ r.anchors, L l :=
  List.forall_mem_cons.2 ⟨h.2.2, r.expression.forall_anchors h.2.1⟩

def Grammar.anchors (g : Grammar σ) : List σ :=
  g.location :: ((g.topLevel.toList ++ g.perParse.toList).map (·.location) ++
    g.rules.flatMap (·.anchors))

theorem Grammar.anchors_map (g : Grammar σ) : (g.map f).anchors = g.anchors.map f := by
  obtain ⟨top, init, rules, l⟩ := g
  have hrules : (rules.map (Rule.map f)).flatMap Rule.anchors = (rules.flatMap Rule.anchors).map f := by
    rw [List.flatMap_map, List.map_flatMap]
    exact congrArg (List.flatMap · rules) (funext Rule.anchors_map)
  have hinit (o : Option (Initializer σ)) :
      (o.map (Initializer.map f)).toList.map Initializer.location = (o.toList.map Initializer.location).map f := by
    cases o <;> rfl
  simp only [anchors, map, hrules, List.map_append, hinit, List.map_cons]

theorem Grammar.forall_anchors (g : Grammar σ) (h : g.Located L) : ∀ l ∈ g.anchors, L l := by
  refine List.forall_mem_cons.2 ⟨h.location, List.forall_mem_append.2 ⟨fun l hl => ?_, fun l hl => ?_⟩⟩
  · obtain ⟨i, hi, rfl⟩ := List.mem_map.1 hl
    rcases List.mem_append.1 hi with hi | hi
    · exact (h.topLevel i (Option.mem_toList.1 hi)).2
    · exact (h.perParse i (Option.mem_toList.1 hi)).2
  · obtain ⟨r, hr, hl⟩ := List.mem_flatMap.1 hl
    exact r.forall_anchors (h.rules r hr) l hl

def StartWithin (as : List ByteRange) (a b : Nat) : Prop := ∀ r ∈ as, a ≤ r.start ∧ r.start ≤ b

theorem Reader.Places.startWithin {st st' : State} {e : Node} (h : Places st e st') :
    StartWithin e.anchors st.offset st'.offset :=
  e.forall_anchors (h.located fun _ hr => hr.start_le)

theorem Reader.startWithin_runs {p : Reader Node} {st st' : State} {es : List Node}
    (hp : ∀ st e st', p st = .matched e st' → Places st e st') (h : Runs p st es st') :
    StartWithin (Expr.anchorsList es) st.offset st'.offset :=
  Expr.forall_anchorsList es ((places_runs hp h).2 fun _ hr => hr.start_le)

namespace Reader

variable {st st' : State}

theorem startWithin_rule {r : Rule ByteRange} (h : rule st = .matched r st') :
    StartWithin r.anchors st.offset st'.offset :=
  r.forall_anchors ((places_rule h).2 fun _ hr => hr.start_le)

theorem startWithin_rules {rs : List (Rule ByteRange)} (h : Runs (thenTrivia rule) st rs st') :
    StartWithin (rs.flatMap Rule.anchors) st.offset st'.offset := by
  intro x hx
  obtain ⟨r, hr, hx⟩ := List.mem_flatMap.1 hx
  exact r.forall_anchors ((places_rules h).2 (fun _ hr => hr.start_le) r hr) x hx

end Reader

end PegGrammar
