import Mathlib.Data.List.Forall2
import PegGrammar.Proofs.Locations

namespace PegGrammar

variable {σ τ υ : Type} {L : σ → Prop}

namespace Expr

mutual

/-- The locations of a tree, each of them once. What is inside a node comes first, the node's own
location last. -/
def locations : Expr σ → List σ
  | .named _ _ e l | .prefixed _ e l | .suffixed _ e l | .group e l => e.locations ++ [l]
  | .choice es l | .sequence es l => listLocations es ++ [l]
  | .action e _ k l => e.locations ++ [k, l]
  | .labeled _ k _ e l => k :: (e.locations ++ [l])
  | .predicate _ _ k l => [k, l]
  | .ruleRef _ l | .literal _ _ l | .charClass _ _ _ l | .any l => [l]

def listLocations : List (Expr σ) → List σ
  | [] => []
  | e :: es => e.locations ++ listLocations es

end

mutual

theorem forall_locations : (e : Expr σ) → e.Located L → ∀ l ∈ e.locations, L l
  | .named _ _ e _, h | .prefixed _ e _, h | .suffixed _ e _, h | .group e _, h =>
      List.forall_mem_append.2 ⟨forall_locations e h.1, List.forall_mem_singleton.2 h.2⟩
  | .choice es _, h | .sequence es _, h =>
      List.forall_mem_append.2 ⟨forall_listLocations es h.1, List.forall_mem_singleton.2 h.2⟩
  | .action e _ _ _, h =>
      List.forall_mem_append.2 ⟨forall_locations e h.1,
        List.forall_mem_cons.2 ⟨h.2.1, List.forall_mem_singleton.2 h.2.2⟩⟩
  | .labeled _ _ _ e _, h =>
      List.forall_mem_cons.2 ⟨h.1, List.forall_mem_append.2
        ⟨forall_locations e h.2.1, List.forall_mem_singleton.2 h.2.2⟩⟩
  | .predicate .., h => List.forall_mem_cons.2 ⟨h.1, List.forall_mem_singleton.2 h.2⟩
  | .ruleRef .., h | .literal .., h | .charClass .., h | .any _, h => List.forall_mem_singleton.2 h

theorem forall_listLocations :
    (es : List (Expr σ)) → LocatedList L es → ∀ l ∈ listLocations es, L l
  | [], _ => by simp [listLocations]
  | e :: es, h => List.forall_mem_append.2 ⟨forall_locations e h.1, forall_listLocations es h.2⟩

end

mutual

/-- The trees are the same up to their locations. -/
inductive Alike : Expr σ → Expr τ → Prop
  | named {n : String} {v : Bool} {e : Expr σ} {e' : Expr τ} {l : σ} {l' : τ} (h : Alike e e') :
      Alike (.named n v e l) (.named n v e' l')
  | choice {es : List (Expr σ)} {es' : List (Expr τ)} {l : σ} {l' : τ} (h : AlikeList es es') :
      Alike (.choice es l) (.choice es' l')
  | action {c : String} {e : Expr σ} {e' : Expr τ} {k l : σ} {k' l' : τ} (h : Alike e e') :
      Alike (.action e c k l) (.action e' c k' l')
  | sequence {es : List (Expr σ)} {es' : List (Expr τ)} {l : σ} {l' : τ} (h : AlikeList es es') :
      Alike (.sequence es l) (.sequence es' l')
  | labeled {n : Option String} {p : Bool} {e : Expr σ} {e' : Expr τ} {k l : σ} {k' l' : τ}
      (h : Alike e e') : Alike (.labeled n k p e l) (.labeled n k' p e' l')
  | prefixed {op : PrefixOp} {e : Expr σ} {e' : Expr τ} {l : σ} {l' : τ} (h : Alike e e') :
      Alike (.prefixed op e l) (.prefixed op e' l')
  | suffixed {op : SuffixOp} {e : Expr σ} {e' : Expr τ} {l : σ} {l' : τ} (h : Alike e e') :
      Alike (.suffixed op e l) (.suffixed op e' l')
  | group {e : Expr σ} {e' : Expr τ} {l : σ} {l' : τ} (h : Alike e e') :
      Alike (.group e l) (.group e' l')
  | predicate {p : Polarity} {c : String} {k l : σ} {k' l' : τ} :
      Alike (.predicate p c k l) (.predicate p c k' l')
  | ruleRef {n : String} {l : σ} {l' : τ} : Alike (.ruleRef n l) (.ruleRef n l')
  | literal {v : String} {i : Bool} {l : σ} {l' : τ} : Alike (.literal v i l) (.literal v i l')
  | charClass {ps : List ClassPart} {v i : Bool} {l : σ} {l' : τ} :
      Alike (.charClass ps v i l) (.charClass ps v i l')
  | any {l : σ} {l' : τ} : Alike (.any l) (.any l')

inductive AlikeList : List (Expr σ) → List (Expr τ) → Prop
  | nil : AlikeList [] []
  | cons {e : Expr σ} {e' : Expr τ} {es : List (Expr σ)} {es' : List (Expr τ)} (h : Alike e e')
      (hs : AlikeList es es') : AlikeList (e :: es) (e' :: es')

end

mutual

theorem Alike.symm {e : Expr σ} {e' : Expr τ} : Alike e e' → Alike e' e
  | .named h => .named h.symm
  | .choice h => .choice h.symm
  | .action h => .action h.symm
  | .sequence h => .sequence h.symm
  | .labeled h => .labeled h.symm
  | .prefixed h => .prefixed h.symm
  | .suffixed h => .suffixed h.symm
  | .group h => .group h.symm
  | .predicate => .predicate
  | .ruleRef => .ruleRef
  | .literal => .literal
  | .charClass => .charClass
  | .any => .any

theorem AlikeList.symm {es : List (Expr σ)} {es' : List (Expr τ)} :
    AlikeList es es' → AlikeList es' es
  | .nil => .nil
  | .cons h hs => .cons h.symm hs.symm

end

mutual

theorem Alike.trans {e : Expr σ} {e' : Expr τ} {e'' : Expr υ} :
    Alike e e' → Alike e' e'' → Alike e e''
  | .named h, .named h' => .named (h.trans h')
  | .choice h, .choice h' => .choice (h.trans h')
  | .action h, .action h' => .action (h.trans h')
  | .sequence h, .sequence h' => .sequence (h.trans h')
  | .labeled h, .labeled h' => .labeled (h.trans h')
  | .prefixed h, .prefixed h' => .prefixed (h.trans h')
  | .suffixed h, .suffixed h' => .suffixed (h.trans h')
  | .group h, .group h' => .group (h.trans h')
  | .predicate, .predicate => .predicate
  | .ruleRef, .ruleRef => .ruleRef
  | .literal, .literal => .literal
  | .charClass, .charClass => .charClass
  | .any, .any => .any

theorem AlikeList.trans {es : List (Expr σ)} {es' : List (Expr τ)} {es'' : List (Expr υ)} :
    AlikeList es es' → AlikeList es' es'' → AlikeList es es''
  | .nil, .nil => .nil
  | .cons h hs, .cons h' hs' => .cons (h.trans h') (hs.trans hs')

end

mutual

theorem Alike.length_eq {e : Expr σ} {e' : Expr τ} :
    Alike e e' → e.locations.length = e'.locations.length
  | .named h | .prefixed h | .suffixed h | .group h | .action h | .labeled h => by
      simp [locations, h.length_eq]
  | .choice h | .sequence h => by simp [locations, h.length_eq]
  | .predicate | .ruleRef | .literal | .charClass | .any => rfl

theorem AlikeList.length_eq {es : List (Expr σ)} {es' : List (Expr τ)} :
    AlikeList es es' → (listLocations es).length = (listLocations es').length
  | .nil => rfl
  | .cons h hs => by simp only [listLocations, List.length_append, h.length_eq, hs.length_eq]

end

mutual

/-- A tree is determined by its locations and by what it is up to them. -/
theorem Alike.eq_of_locations {e e' : Expr σ} :
    Alike e e' → e.locations = e'.locations → e = e'
  | .named h, hl | .prefixed h, hl | .suffixed h, hl | .group h, hl => by
      obtain ⟨he, hl⟩ := List.append_inj hl h.length_eq
      rw [h.eq_of_locations he, List.singleton_inj.1 hl]
  | .choice h, hl | .sequence h, hl => by
      obtain ⟨he, hl⟩ := List.append_inj hl h.length_eq
      rw [h.eq_of_locations he, List.singleton_inj.1 hl]
  | .action h, hl => by
      obtain ⟨he, hl⟩ := List.append_inj hl h.length_eq
      cases hl
      rw [h.eq_of_locations he]
  | .labeled h, hl => by
      obtain ⟨hk, hl⟩ := List.cons.inj hl
      obtain ⟨he, hl⟩ := List.append_inj hl h.length_eq
      rw [hk, h.eq_of_locations he, List.singleton_inj.1 hl]
  | .predicate, hl => by cases hl; rfl
  | .ruleRef, hl | .literal, hl | .charClass, hl | .any, hl => by cases hl; rfl

theorem AlikeList.eq_of_locations {es es' : List (Expr σ)} :
    AlikeList es es' → listLocations es = listLocations es' → es = es'
  | .nil, _ => rfl
  | .cons h hs, hl => by
      obtain ⟨he, hes⟩ := List.append_inj hl h.length_eq
      rw [h.eq_of_locations he, hs.eq_of_locations hes]

end

end Expr

namespace Initializer

def locations (i : Initializer σ) : List σ := [i.codeLocation, i.location]

end Initializer

namespace Rule

def locations (r : Rule σ) : List σ := r.nameLocation :: (r.expression.locations ++ [r.location])

structure Alike (r : Rule σ) (r' : Rule τ) : Prop where
  name : r.name = r'.name
  expression : r.expression.Alike r'.expression

namespace Alike

theorem symm {r : Rule σ} {r' : Rule τ} (h : r.Alike r') : r'.Alike r :=
  ⟨h.name.symm, h.expression.symm⟩

theorem trans {r : Rule σ} {r' : Rule τ} {r'' : Rule υ} (h : r.Alike r') (h' : r'.Alike r'') :
    r.Alike r'' := ⟨h.name.trans h'.name, h.expression.trans h'.expression⟩

theorem length_eq {r : Rule σ} {r' : Rule τ} (h : r.Alike r') :
    r.locations.length = r'.locations.length := by
  simp [locations, h.expression.length_eq]

theorem eq_of_locations {r r' : Rule σ} (h : r.Alike r') (hl : r.locations = r'.locations) :
    r = r' := by
  obtain ⟨n, j, e, k⟩ := r
  obtain ⟨n', j', e', k'⟩ := r'
  obtain ⟨rfl, hexpr⟩ := h
  obtain ⟨rfl, hl⟩ := List.cons.inj hl
  obtain ⟨he, hk⟩ := List.append_inj hl hexpr.length_eq
  obtain rfl := hexpr.eq_of_locations he
  obtain rfl := List.singleton_inj.1 hk
  rfl

end Alike

end Rule

namespace Grammar

def locations (g : Grammar σ) : List σ :=
  g.topLevel.toList.flatMap (·.locations) ++ g.perParse.toList.flatMap (·.locations) ++
    g.rules.flatMap (·.locations) ++ [g.location]

theorem forall_locations (g : Grammar σ) (h : g.Located L) : ∀ l ∈ g.locations, L l := by
  have hinit (o : Option (Initializer σ)) (ho : ∀ i ∈ o, i.Located L) :
      ∀ l ∈ o.toList.flatMap (·.locations), L l := by
    intro l hl
    obtain ⟨i, hi, hl⟩ := List.mem_flatMap.1 hl
    obtain ⟨hk, hi⟩ := ho i (Option.mem_toList.1 hi)
    rcases List.mem_pair.1 hl with rfl | rfl
    · exact hk
    · exact hi
  have hrules : ∀ l ∈ g.rules.flatMap (·.locations), L l := by
    intro l hl
    obtain ⟨r, hr, hl⟩ := List.mem_flatMap.1 hl
    obtain ⟨hk, he, hr⟩ := h.rules r hr
    exact List.forall_mem_cons.2 ⟨hk, List.forall_mem_append.2
      ⟨r.expression.forall_locations he, List.forall_mem_singleton.2 hr⟩⟩ l hl
  simp only [locations, List.forall_mem_append, List.forall_mem_singleton]
  exact ⟨⟨⟨hinit _ h.topLevel, hinit _ h.perParse⟩, hrules⟩, h.location⟩

structure Alike (g : Grammar σ) (g' : Grammar τ) : Prop where
  topLevel : g.topLevel.map (·.code) = g'.topLevel.map (·.code)
  perParse : g.perParse.map (·.code) = g'.perParse.map (·.code)
  rules : List.Forall₂ Rule.Alike g.rules g'.rules

namespace Alike

theorem trans_rules {rs : List (Rule σ)} {rs' : List (Rule τ)} {rs'' : List (Rule υ)} :
    List.Forall₂ Rule.Alike rs rs' → List.Forall₂ Rule.Alike rs' rs'' →
      List.Forall₂ Rule.Alike rs rs''
  | .nil, .nil => .nil
  | .cons h hs, .cons h' hs' => .cons (h.trans h') (trans_rules hs hs')

theorem symm {g : Grammar σ} {g' : Grammar τ} (h : g.Alike g') : g'.Alike g :=
  ⟨h.topLevel.symm, h.perParse.symm, (h.rules.imp fun _ _ hr => hr.symm).flip⟩

theorem trans {g : Grammar σ} {g' : Grammar τ} {g'' : Grammar υ} (h : g.Alike g')
    (h' : g'.Alike g'') : g.Alike g'' :=
  ⟨h.topLevel.trans h'.topLevel, h.perParse.trans h'.perParse, trans_rules h.rules h'.rules⟩

theorem length_initializer {o : Option (Initializer σ)} {o' : Option (Initializer τ)}
    (h : o.map (·.code) = o'.map (·.code)) :
    (o.toList.flatMap (·.locations)).length = (o'.toList.flatMap (·.locations)).length := by
  cases o <;> cases o' <;> first | rfl | cases h

theorem eq_of_initializer {o o' : Option (Initializer σ)} (h : o.map (·.code) = o'.map (·.code))
    (hl : o.toList.flatMap (·.locations) = o'.toList.flatMap (·.locations)) : o = o' := by
  cases o with
  | none => cases o' with
    | none => rfl
    | some i' => cases h
  | some i => cases o' with
    | none => cases h
    | some i' =>
        obtain ⟨c, k, l⟩ := i
        cases h
        cases hl
        rfl

theorem length_rules {rs : List (Rule σ)} {rs' : List (Rule τ)}
    (h : List.Forall₂ Rule.Alike rs rs') :
    (rs.flatMap (·.locations)).length = (rs'.flatMap (·.locations)).length := by
  induction h with
  | nil => rfl
  | cons hr hrs ih => simp only [List.flatMap_cons, List.length_append, hr.length_eq, ih]

theorem eq_of_rules {rs rs' : List (Rule σ)} (h : List.Forall₂ Rule.Alike rs rs')
    (hl : rs.flatMap (·.locations) = rs'.flatMap (·.locations)) : rs = rs' := by
  induction h with
  | nil => rfl
  | cons hr hrs ih =>
      rw [List.flatMap_cons, List.flatMap_cons] at hl
      obtain ⟨hfirst, hothers⟩ := List.append_inj hl hr.length_eq
      rw [hr.eq_of_locations hfirst, ih hothers]

theorem length_eq {g : Grammar σ} {g' : Grammar τ} (h : g.Alike g') :
    g.locations.length = g'.locations.length := by
  simp only [locations, List.length_append, length_initializer h.topLevel,
    length_initializer h.perParse, length_rules h.rules, List.length_singleton]

theorem eq_of_locations {g g' : Grammar σ} (h : g.Alike g') (hl : g.locations = g'.locations) :
    g = g' := by
  obtain ⟨hinit, hrules, hlast⟩ : _ ∧ _ ∧ _ := by
    obtain ⟨hfront, hlast⟩ := List.append_inj' hl rfl
    obtain ⟨hinit, hrules⟩ := List.append_inj' hfront (length_rules h.rules)
    exact ⟨hinit, hrules, hlast⟩
  obtain ⟨htop, hper⟩ := List.append_inj hinit (length_initializer h.topLevel)
  obtain ⟨top, per, rs, l⟩ := g
  obtain ⟨top', per', rs', l'⟩ := g'
  obtain rfl : top = top' := eq_of_initializer h.topLevel htop
  obtain rfl : per = per' := eq_of_initializer h.perParse hper
  obtain rfl : rs = rs' := eq_of_rules h.rules hrules
  obtain rfl : l = l' := List.singleton_inj.1 hlast
  rfl

end Alike

end Grammar

end PegGrammar
