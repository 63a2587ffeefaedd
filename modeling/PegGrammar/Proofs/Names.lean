import PegGrammar.Proofs.Rereading.Rules

namespace PegGrammar

variable {σ τ : Type}

/-- A name and what it stands for. -/
inductive NameUse where
  | rule (name : String) (display : Option String)
  | reference (name : String)
  | label (name : String)
  deriving DecidableEq, Repr

namespace Expr

mutual

def names : Expr σ → List NameUse
  | .named _ _ e _ => e.names
  | .choice es _ => namesList es
  | .action e _ _ _ => e.names
  | .sequence es _ => namesList es
  | .labeled l _ _ e _ => (l.map NameUse.label).toList ++ e.names
  | .prefixed _ e _ => e.names
  | .suffixed _ e _ => e.names
  | .group e _ => e.names
  | .predicate .. => []
  | .ruleRef n _ => [.reference n]
  | .literal .. => []
  | .charClass .. => []
  | .any _ => []

def namesList : List (Expr σ) → List NameUse
  | [] => []
  | e :: es => e.names ++ namesList es

end

/-- Behind a reference to `$`, the element is read on its own, or at least its names are. -/
def standsApart : Expr σ → Bool
  | .labeled _ _ pick _ _ => pick
  | .prefixed .text e _ => !e.isReference
  | .prefixed .. => true
  | _ => false

mutual

/-- No name in the expression is read as anything else. -/
def keepsNames : Expr σ → Bool
  | .named _ _ e _ => e.keepsNames
  | .choice es _ => keepsNamesList es
  | .action e _ _ _ => e.keepsNames
  | .sequence es _ => keepsNamesRow es
  | .labeled _ _ _ e _ => e.keepsNames
  | .prefixed _ e _ => e.isReference || e.keepsNames
  | .suffixed _ e _ => e.keepsNames
  | .group e _ => e.keepsNames
  | .predicate .. => true
  | .ruleRef n _ => !isMasked n
  | .literal .. => true
  | .charClass .. => true
  | .any _ => true

def keepsNamesList : List (Expr σ) → Bool
  | [] => true
  | e :: es => e.keepsNames && keepsNamesList es

/-- The elements of a sequence keep their names, each in front of the next one. -/
def keepsNamesRow : List (Expr σ) → Bool
  | [] => true
  | e :: es => (!e.dangles || es.head?.all standsApart) && e.keepsNames && keepsNamesRow es

end

end Expr

namespace Rule

def names (r : Rule σ) : List NameUse := .rule r.name r.displayName :: r.expression.names

end Rule

namespace Grammar

def names (g : Grammar σ) : List NameUse := g.rules.flatMap Rule.names

end Grammar

/-- No name in the rules is read as anything else, and no header of a rule is read as a part of the
rule before it. -/
def keepsNamesRules : List (Rule σ) → Bool
  | [] => true
  | r :: rs => !(rs.head?.any Rule.isMistakable && !r.body.endsInAction) && r.body.keepsNames &&
      keepsNamesRules rs

def Grammar.keepsNames (g : Grammar σ) : Bool := keepsNamesRules g.rules

section Locations

variable (f : σ → τ)

namespace Expr

theorem isReference_map (e : Expr σ) : (e.map f).isReference = e.isReference := by
  cases e with
  | suffixed op b k => cases b <;> rfl
  | _ => rfl

theorem dangles_map (e : Expr σ) : (e.map f).dangles = e.dangles := by
  cases e with
  | labeled l j p b k => cases b <;> rfl
  | _ => rfl

theorem standsApart_map (e : Expr σ) : (e.map f).standsApart = e.standsApart := by
  cases e with
  | prefixed op b k =>
      cases op with
      | text => simp only [map, standsApart, isReference_map]
      | _ => rfl
  | _ => rfl

mutual

theorem names_map : (e : Expr σ) → (e.map f).names = e.names
  | .named _ _ e _ => by simp only [map, names, names_map e]
  | .choice es _ => by simp only [map, names, namesList_map es]
  | .action e _ _ _ => by simp only [map, names, names_map e]
  | .sequence es _ => by simp only [map, names, namesList_map es]
  | .labeled _ _ _ e _ => by simp only [map, names, names_map e]
  | .prefixed _ e _ => by simp only [map, names, names_map e]
  | .suffixed _ e _ => by simp only [map, names, names_map e]
  | .group e _ => by simp only [map, names, names_map e]
  | .predicate .. => rfl
  | .ruleRef .. => rfl
  | .literal .. => rfl
  | .charClass .. => rfl
  | .any _ => rfl

theorem namesList_map : (es : List (Expr σ)) → namesList (mapList f es) = namesList es
  | [] => rfl
  | e :: es => by simp only [mapList, namesList, names_map e, namesList_map es]

end

mutual

theorem keepsNames_map : (e : Expr σ) → (e.map f).keepsNames = e.keepsNames
  | .named _ _ e _ => by simp only [map, keepsNames, keepsNames_map e]
  | .choice es _ => by simp only [map, keepsNames, keepsNamesList_map es]
  | .action e _ _ _ => by simp only [map, keepsNames, keepsNames_map e]
  | .sequence es _ => by simp only [map, keepsNames, keepsNamesRow_map es]
  | .labeled _ _ _ e _ => by simp only [map, keepsNames, keepsNames_map e]
  | .prefixed _ e _ => by simp only [map, keepsNames, isReference_map, keepsNames_map e]
  | .suffixed _ e _ => by simp only [map, keepsNames, keepsNames_map e]
  | .group e _ => by simp only [map, keepsNames, keepsNames_map e]
  | .predicate .. => rfl
  | .ruleRef .. => rfl
  | .literal .. => rfl
  | .charClass .. => rfl
  | .any _ => rfl

theorem keepsNamesList_map : (es : List (Expr σ)) → keepsNamesList (mapList f es) = keepsNamesList es
  | [] => rfl
  | e :: es => by simp only [mapList, keepsNamesList, keepsNames_map e, keepsNamesList_map es]

theorem keepsNamesRow_map : (es : List (Expr σ)) → keepsNamesRow (mapList f es) = keepsNamesRow es
  | [] => rfl
  | [e] => by simp [mapList, keepsNamesRow, keepsNames_map e]
  | e :: x :: es => by
      have hrest := keepsNamesRow_map (x :: es)
      rw [mapList, keepsNamesRow, keepsNamesRow, hrest, dangles_map, keepsNames_map e, mapList,
        List.head?_cons, List.head?_cons, Option.all_some, Option.all_some, standsApart_map]

end

end Expr

theorem Rule.names_map (r : Rule σ) : (r.map f).names = r.names := by
  have hdisplay : (r.map f).displayName = r.displayName := by
    obtain ⟨n, j, e, k⟩ := r
    cases e <;> rfl
  rw [names, hdisplay]
  exact congrArg (_ :: ·) (Expr.names_map f r.expression)

theorem Rule.isMistakable_map (r : Rule σ) : (r.map f).isMistakable = r.isMistakable := by
  obtain ⟨n, j, e, k⟩ := r
  cases e <;> rfl

theorem Rule.body_map (r : Rule σ) : (r.map f).body = r.body.map f := by
  obtain ⟨n, j, e, k⟩ := r
  cases e <;> rfl

theorem Expr.endsInAction_map (e : Expr σ) : (e.map f).endsInAction = e.endsInAction := by
  cases e with
  | choice es k =>
      rw [map, endsInAction, endsInAction, mapList_eq_map, List.getLast?_map, Option.any_map]
      congr 1
      funext e
      cases e <;> rfl
  | _ => rfl

theorem keepsNamesRules_map (rs : List (Rule σ)) :
    keepsNamesRules (rs.map (Rule.map f)) = keepsNamesRules rs := by
  induction rs with
  | nil => rfl
  | cons r rs ih =>
      have hnext : (rs.map (Rule.map f)).head?.any Rule.isMistakable =
          rs.head?.any Rule.isMistakable := by
        cases rs with
        | nil => rfl
        | cons r rs => exact Rule.isMistakable_map f r
      rw [List.map_cons, keepsNamesRules, keepsNamesRules, ih, hnext, Rule.body_map,
        Expr.endsInAction_map, Expr.keepsNames_map]

theorem Grammar.names_map (g : Grammar σ) : (g.map f).names = g.names := by
  rw [names, names, map, List.flatMap_map]
  congr 1
  funext r
  exact Rule.names_map f r

theorem Grammar.keepsNames_map (g : Grammar σ) : (g.map f).keepsNames = g.keepsNames :=
  keepsNamesRules_map f g.rules

end Locations

end PegGrammar
