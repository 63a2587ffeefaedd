import PegGrammar.Proofs.Rereading.Rows

namespace PegGrammar

/-- The name after the dollar sign in front is read as a name of its own. -/
def isMasked (n : String) : Bool :=
  match n.toList with
  | '$' :: c :: _ => isNameStart c || !isNamePart c
  | _ => false

def unmask (n : String) : String := String.ofList n.toList.tail

def mask (n : String) : String := String.ofList ('$' :: n.toList)

namespace Expr

variable {σ : Type}

def isReference : Expr σ → Bool
  | .ruleRef .. => true
  | .suffixed _ (.ruleRef ..) _ => true
  | _ => false

/-- An element that ends with a reference to the name `$`. -/
def dangles : Expr σ → Bool
  | .ruleRef n _ => n = "$"
  | .labeled _ _ _ (.ruleRef n _) _ => n = "$"
  | _ => false

def onto (b : Expr Unit) : Expr Unit → Expr Unit
  | .labeled l j p _ k => .labeled l j p b k
  | _ => b

def masked : Expr Unit → Expr Unit
  | .ruleRef n k => .ruleRef (mask n) k
  | .suffixed op (.ruleRef n j) k => .suffixed op (.ruleRef (mask n) j) k
  | e => e

/-- What a reference becomes at the front of an element, `wrap` adding its suffix operator. -/
def exposed (wrap : Expr Unit → Expr Unit) (n : String) : Expr Unit :=
  if isMasked n then .prefixed .text (wrap (.ruleRef (unmask n) ())) () else wrap (.ruleRef n ())

theorem exposed_eq_wrap (wrap : Expr Unit → Expr Unit) {n : String} (h : isMasked n = false) :
    exposed wrap n = wrap (.ruleRef n ()) := by
  simp [exposed, h]

/-- What an operand becomes; a reference is safe behind an operator. -/
def operand (e : Expr Unit) (r : Option (Expr Unit)) : Option (Expr Unit) :=
  if e.isReference then some e else r

theorem operand_eq {e : Expr Unit} (h : e.isReference = false) (r : Option (Expr Unit)) :
    operand e r = r := by
  simp [operand, h]

/-- What becomes of an element that ends with a reference to `$` in front of `x`. The other
arguments are what becomes of `x`, of its operand, of the elements from `x` on and of those after
`x`. -/
def meet (e x : Expr Unit) (r body : Option (Expr Unit))
    (rest after : Option (List (Expr Unit))) : Option (List (Expr Unit)) :=
  match x with
  | .labeled _ _ true _ _ => rest.map (e :: ·)
  -- the label is taken for a reference, and its colon is left over
  | .labeled _ _ false _ _ => none
  | .prefixed .text b _ =>
    if b.isReference then after.map (onto (.prefixed .text b.masked ()) e :: ·)
    else
      body.bind fun b' => after.map fun es =>
        onto (.prefixed .text (.ruleRef "$" ()) ()) e :: b' :: es
  | .prefixed .. => rest.map (e :: ·)
  | x => (operand x r).bind fun x' => after.map (onto (.prefixed .text x' ()) e :: ·)

mutual

/-- What is read in place of a printed tree, if its text can still be read. At the front of an element
a dollar sign is taken for the operator as soon as something follows that this can be applied to:
the rest of the name, or the next element when the dollar sign is the whole name. -/
def reread : Expr Unit → Option (Expr Unit)
  | .named d v e k => (reread e).map (.named d v · k)
  | .choice es k => (rereadList es).map (.choice · k)
  | .action e c j k => (reread e).map (.action · c j k)
  | .sequence es _ => (rereadElements es).map collapse
  | .labeled l j p e k => (reread e).map (.labeled l j p · k)
  | .prefixed op e k => (operand e (reread e)).map (.prefixed op · k)
  | .suffixed op (.ruleRef n _) k => some (exposed (.suffixed op · k) n)
  | .suffixed op e k => (reread e).map (.suffixed op · k)
  | .group e _ => (reread e).map regroup
  | .predicate p c j k => some (.predicate p c j k)
  | .ruleRef n _ => some (exposed id n)
  | .literal v i k => some (.literal v i k)
  | .charClass ps v i k => some (.charClass ps v i k)
  | .any k => some (.any k)

def rereadBody : Expr Unit → Option (Expr Unit)
  | .prefixed _ e _ => reread e
  | _ => none

def rereadList : List (Expr Unit) → Option (List (Expr Unit))
  | [] => some []
  | e :: es => (reread e).bind fun e' => (rereadList es).map (e' :: ·)

def rereadElements : List (Expr Unit) → Option (List (Expr Unit))
  | [] => some []
  | [e] => (reread e).map ([·])
  | e :: x :: xs =>
    if e.dangles then
      meet e x (reread x) (rereadBody x) (rereadElements (x :: xs)) (rereadElements xs)
    else (reread e).bind fun e' => (rereadElements (x :: xs)).map (e' :: ·)

end

section

variable {e e' : Expr Unit}

theorem hasLabels_regroup (e : Expr Unit) : e.regroup.hasLabels = false := by
  rw [regroup]
  split
  next => rfl
  next h => rwa [Bool.not_eq_true] at h

theorem hasLabels_reread (h : e.hasLabels = false) (he : e.reread = some e') :
    e'.hasLabels = false := by
  cases e with
  | sequence | labeled => cases h
  | suffixed op b k =>
      cases b with
      | ruleRef n j =>
          cases he
          rw [exposed]
          split <;> rfl
      | _ =>
          obtain ⟨b', -, rfl⟩ := Option.map_eq_some_iff.1 he
          rfl
  | ruleRef n k =>
      cases he
      rw [exposed]
      split <;> rfl
  | group b k =>
      obtain ⟨b', -, rfl⟩ := Option.map_eq_some_iff.1 he
      exact hasLabels_regroup b'
  | predicate | literal | charClass | any =>
      cases he
      rfl
  | named | choice | action | prefixed =>
      obtain ⟨x, -, rfl⟩ := Option.map_eq_some_iff.1 he
      rfl

theorem isPick_collapse (es : List (Expr Unit)) : (collapse es).isPick = false := by
  match es with
  | [] => rfl
  | [e] =>
      rw [collapse]
      split
      next => rfl
      next h => rwa [Bool.not_eq_true] at h
  | _ :: _ :: _ => rfl

theorem isPick_reread (h : e.isPick = false) (he : e.reread = some e') : e'.isPick = false := by
  by_cases hlabels : e.hasLabels = true
  · cases e with
    | sequence es k =>
        obtain ⟨es', -, rfl⟩ := Option.map_eq_some_iff.1 he
        exact isPick_collapse es'
    | labeled l j p b k =>
        obtain ⟨b', -, rfl⟩ := Option.map_eq_some_iff.1 he
        exact h
    | _ => cases hlabels
  · rw [Bool.not_eq_true] at hlabels
    exact isPick_eq_false_of_hasLabels (hasLabels_reread hlabels he)

end

end Expr

end PegGrammar
