import PegGrammar.Grammar.Map

namespace PegGrammar

variable {σ τ υ : Type} (f : σ → τ) (h : τ → υ)

namespace Expr

mutual

theorem map_map : (e : Expr σ) → (e.map f).map h = e.map (h ∘ f)
  | .named _ _ e _ => by simp only [map, map_map e, Function.comp]
  | .choice es _ => by simp only [map, mapList_mapList es, Function.comp]
  | .action e _ _ _ => by simp only [map, map_map e, Function.comp]
  | .sequence es _ => by simp only [map, mapList_mapList es, Function.comp]
  | .labeled _ _ _ e _ => by simp only [map, map_map e, Function.comp]
  | .prefixed _ e _ => by simp only [map, map_map e, Function.comp]
  | .suffixed _ e _ => by simp only [map, map_map e, Function.comp]
  | .group e _ => by simp only [map, map_map e, Function.comp]
  | .predicate .. => rfl
  | .ruleRef .. => rfl
  | .literal .. => rfl
  | .charClass .. => rfl
  | .any _ => rfl

theorem mapList_mapList : (es : List (Expr σ)) → mapList h (mapList f es) = mapList (h ∘ f) es
  | [] => rfl
  | e :: es => by simp only [mapList, map_map e, mapList_mapList es]

end

mutual

theorem map_id : (e : Expr σ) → e.map id = e
  | .named _ _ e _ => by simp only [map, map_id e, id]
  | .choice es _ => by simp only [map, mapList_id es, id]
  | .action e _ _ _ => by simp only [map, map_id e, id]
  | .sequence es _ => by simp only [map, mapList_id es, id]
  | .labeled _ _ _ e _ => by simp only [map, map_id e, id]
  | .prefixed _ e _ => by simp only [map, map_id e, id]
  | .suffixed _ e _ => by simp only [map, map_id e, id]
  | .group e _ => by simp only [map, map_id e, id]
  | .predicate .. => rfl
  | .ruleRef .. => rfl
  | .literal .. => rfl
  | .charClass .. => rfl
  | .any _ => rfl

theorem mapList_id : (es : List (Expr σ)) → mapList id es = es
  | [] => rfl
  | e :: es => by simp only [mapList, map_id e, mapList_id es]

end

theorem mapList_eq_map (es : List (Expr σ)) : mapList f es = es.map (map f) := by
  induction es with
  | nil => rfl
  | cons e es ih => rw [mapList, ih, List.map_cons]

end Expr

theorem Rule.map_map (r : Rule σ) : (r.map f).map h = r.map (h ∘ f) := by
  simp only [map, Expr.map_map, Function.comp]

theorem Rule.map_id (r : Rule σ) : r.map id = r := by
  simp only [map, Expr.map_id, id]

def Rule.strip (r : Rule Span) : Rule Span := r.map fun _ => {}

/-- Rules that agree after some change of their locations have the same structure. -/
theorem Rule.strip_eq_of_map {f h : Span → τ} {r r' : Rule Span} (heq : r'.map f = r.map h) :
    r'.strip = r.strip := by
  have hstrip := congrArg (map fun _ : τ => ({} : Span)) heq
  rwa [map_map, map_map] at hstrip

namespace Grammar

theorem map_map (g : Grammar σ) : (g.map f).map h = g.map (h ∘ f) := by
  have hrules : (g.rules.map (Rule.map f)).map (Rule.map h) = g.rules.map (Rule.map (h ∘ f)) := by
    rw [List.map_map]
    exact List.map_congr_left fun r _ => Rule.map_map f h r
  simp only [map, hrules, Option.map_map, Function.comp]
  rfl

theorem map_id (g : Grammar σ) : g.map id = g := by
  obtain ⟨top, init, rules, l⟩ := g
  have hrules : rules.map (Rule.map id) = rules :=
    (List.map_congr_left fun r _ => Rule.map_id r).trans (List.map_id rules)
  have hinit (o : Option (Initializer σ)) : o.map (Initializer.map id) = o := by cases o <;> rfl
  simp only [map, hrules, hinit, id]

theorem strip_eq_of_map {f h : Span → τ} {g g' : Grammar Span} (heq : g'.map f = g.map h) :
    g'.strip = g.strip := by
  have hstrip := congrArg (map fun _ : τ => ({} : Span)) heq
  rwa [map_map, map_map] at hstrip

end Grammar

end PegGrammar
