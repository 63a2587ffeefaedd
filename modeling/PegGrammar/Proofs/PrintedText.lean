import PegGrammar.Grammar.Map
import PegGrammar.Printer
import PegGrammar.Proofs.Locations

namespace PegGrammar

variable {σ τ : Type} (f : σ → τ)

namespace Expr

theorem precedence_map : (e : Expr σ) → (e.map f).precedence = e.precedence
  | .named _ _ e _ => by simp only [map, precedence, precedence_map e]
  | .choice .. => rfl
  | .action .. => rfl
  | .sequence [] _ => rfl
  | .sequence [e] _ => by simp only [map, mapList, precedence, precedence_map e]
  | .sequence (_ :: _ :: _) _ => rfl
  | .labeled .. => rfl
  | .prefixed .. => rfl
  | .suffixed .. => rfl
  | .group .. => rfl
  | .predicate .. => rfl
  | .ruleRef .. => rfl
  | .literal .. => rfl
  | .charClass .. => rfl
  | .any _ => rfl

theorem looserThan_map (e : Expr σ) (p : Precedence) :
    (e.map f).looserThan p = e.looserThan p := by
  rw [looserThan, looserThan, precedence_map]

mutual

theorem text_map : (e : Expr σ) → (e.map f).text = e.text
  | .named _ _ e _ => by simp only [map, text, text_map e]
  | .choice es _ => by simp only [map, text, texts_map _ es]
  | .action e _ _ _ => by simp only [map, text, text_map e, looserThan_map]
  | .sequence es _ => by simp only [map, text, texts_map _ es]
  | .labeled _ _ _ e _ => by simp only [map, text, text_map e, looserThan_map]
  | .prefixed _ e _ => by simp only [map, text, text_map e, looserThan_map]
  | .suffixed _ e _ => by simp only [map, text, text_map e, looserThan_map]
  | .group e _ => by simp only [map, text, text_map e]
  | .predicate .. => rfl
  | .ruleRef .. => rfl
  | .literal .. => rfl
  | .charClass .. => rfl
  | .any _ => rfl

theorem texts_map (p : Precedence) : (es : List (Expr σ)) → texts p (mapList f es) = texts p es
  | [] => rfl
  | e :: es => by simp only [mapList, texts, text_map e, texts_map p es, looserThan_map]

end

end Expr

theorem Rule.text_map (r : Rule σ) : (r.map f).text = r.text := by
  obtain ⟨n, j, e, k⟩ := r
  have htext := Expr.text_map f e
  cases e with
  | _ => exact congrArg (_ ++ ·) htext

theorem Grammar.text_map (g : Grammar σ) : (g.map f).text = g.text := by
  have hrules : (g.rules.map (Rule.map f)).map Rule.text = g.rules.map Rule.text := by
    rw [List.map_map]
    exact List.map_congr_left fun r _ => Rule.text_map f r
  have hstatements : (g.map f).statements = g.statements := by
    rw [statements, statements, map, hrules]
    cases g.topLevel <;> cases g.perParse <;> rfl
  rw [text, text, hstatements]

/-- A document is printed as its structure is. -/
theorem Grammar.text_bare (g : Grammar σ) : g.bare.text = g.text := text_map _ g

theorem Grammar.strip_of_bare_eq {g g' : Grammar Span} (heq : g'.bare = g.bare) :
    g'.strip = g.strip := by
  have hstrip (g : Grammar Span) : g.strip = g.bare.map fun _ => {} := by
    rw [bare, map_map]
    rfl
  rw [hstrip, hstrip, heq]

end PegGrammar
