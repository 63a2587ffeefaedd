import PegGrammar.Proofs.Names

namespace PegGrammar

variable {k k' : Bool} {o o' : Option (List NameUse)} {ns ns' : List NameUse}

/-- What the references among some names weigh; no name weighs nothing. -/
def weight : List NameUse → Nat
  | [] => 0
  | .reference n :: ns => n.toList.length + 1 + weight ns
  | _ :: ns => weight ns

theorem weight_append (ns ns' : List NameUse) : weight (ns ++ ns') = weight ns + weight ns' := by
  induction ns with
  | nil => exact (Nat.zero_add _).symm
  | cons n ns ih => cases n <;> simp only [List.cons_append, weight, ih, Nat.add_assoc]

/-- The names that are read are all of `ns`, or else their references weigh less. -/
def Kept : Bool → Option (List NameUse) → List NameUse → Prop
  | true, o, ns => o = some ns
  | false, o, ns => ∀ ns' ∈ o, weight ns' < weight ns

theorem Kept.weight_le (h : Kept k o ns) : ∀ ns' ∈ o, weight ns' ≤ weight ns := by
  cases k with
  | true =>
      rintro ns' rfl
      cases h
      exact Nat.le_refl _
  | false => exact fun ns' hns' => Nat.le_of_lt (h ns' hns')

theorem Kept.append (h : Kept k o ns) (h' : Kept k' o' ns') :
    Kept (k && k') (o.bind fun a => o'.map (a ++ ·)) (ns ++ ns') := by
  by_cases hk : k = true ∧ k' = true
  · obtain ⟨rfl, rfl⟩ := hk
    cases h
    cases h'
    rfl
  · have hfalse : (k && k') = false := by simpa using hk
    rw [hfalse]
    rintro _ hmem
    obtain ⟨a, ha, hmem⟩ := Option.bind_eq_some_iff.1 hmem
    obtain ⟨b, hb, rfl⟩ := Option.map_eq_some_iff.1 hmem
    have hle := h.weight_le a ha
    have hle' := h'.weight_le b hb
    rw [weight_append, weight_append]
    cases k with
    | false =>
        have hlt : weight a < weight ns := h a ha
        omega
    | true =>
        cases k' with
        | false =>
            have hlt : weight b < weight ns' := h' b hb
            omega
        | true => exact (hk ⟨rfl, rfl⟩).elim

theorem Kept.prepend (h : Kept k o ns) (ns₀ : List NameUse) :
    Kept k (o.map (ns₀ ++ ·)) (ns₀ ++ ns) := by
  have happend := Kept.append (k := true) (o := some ns₀) rfl h
  rwa [Bool.true_and] at happend

open PegGrammar.Expr

variable {e x b : Expr Unit} {es xs : List (Expr Unit)}

theorem names_collapse (es : List (Expr Unit)) : (collapse es).names = namesList es := by
  match es with
  | [] => rfl
  | [e] =>
      rw [collapse]
      split
      · rfl
      · exact (List.append_nil _).symm
  | _ :: _ :: _ => rfl

theorem names_regroup (e : Expr Unit) : e.regroup.names = e.names := by
  rw [regroup]
  split <;> rfl

theorem weight_unmask {n : String} (h : isMasked n = true) :
    weight [.reference (unmask n)] < weight [.reference n] := by
  have hlength : (unmask n).toList.length < n.toList.length := by
    rw [isMasked] at h
    split at h
    next c s heq =>
      rw [unmask, String.toList_ofList, heq]
      simp
    next => cases h
  simpa [weight] using hlength

theorem kept_exposed (wrap : Expr Unit → Expr Unit) (h : ∀ e, (wrap e).names = e.names)
    (n : String) : Kept (!isMasked n) ((some (exposed wrap n)).map names) [.reference n] := by
  rw [exposed]
  cases hmasked : isMasked n with
  | true =>
      rintro _ ⟨⟩
      rw [if_pos rfl, Expr.names, h]
      exact weight_unmask hmasked
  | false => exact congrArg some (h _)

theorem names_masked (h : b.isReference = true) :
    ∃ n, b.names = [.reference n] ∧ b.masked.names = [.reference (mask n)] := by
  cases b with
  | ruleRef n k => exact ⟨n, rfl, rfl⟩
  | suffixed op b k =>
      cases b with
      | ruleRef n k => exact ⟨n, rfl, rfl⟩
      | _ => cases h
  | _ => cases h

/-- An element that ends with a reference to `$` loses that one when something is put in its
place. -/
theorem names_onto (h : e.dangles = true) : ∃ ns, e.names = ns ++ [.reference "$"] ∧
    e.keepsNames = true ∧ ∀ b, (onto b e).names = ns ++ b.names := by
  cases e with
  | ruleRef n k =>
      obtain rfl : n = "$" := of_decide_eq_true h
      exact ⟨[], rfl, rfl, fun _ => rfl⟩
  | labeled l j p b k =>
      cases b with
      | ruleRef n k =>
          obtain rfl : n = "$" := of_decide_eq_true h
          exact ⟨_, rfl, rfl, fun _ => rfl⟩
      | _ => cases h
  | _ => cases h

theorem keepsNamesRow_cons (h : e.dangles = false) (es : List (Expr Unit)) :
    keepsNamesRow (e :: es) = (e.keepsNames && keepsNamesRow es) := by
  rw [keepsNamesRow, h]
  rfl

variable {k : Bool} {rest after : Option (List (Expr Unit))} {body : Option (Expr Unit)}
  {ns : List NameUse}

theorem kept_cons (e : Expr Unit) (h : Kept k (rest.map namesList) ns) :
    Kept k ((rest.map (e :: ·)).map namesList) (e.names ++ ns) := by
  have h := h.prepend e.names
  cases rest with
  | _ => exact h

/-- With the reference gone, whatever else is read weighs less than what was printed. -/
theorem weight_onto (he : e.dangles = true) {ns' : List NameUse}
    (hle : weight (b.names ++ ns') < weight ns + 2) :
    weight ((onto b e).names ++ ns') < weight (e.names ++ ns) := by
  obtain ⟨l, hnames, -, honto⟩ := names_onto he
  have hdollar : weight [.reference "$"] = 2 := rfl
  rw [hnames, honto, List.append_assoc, List.append_assoc, weight_append l, weight_append l,
    weight_append [_] ns, hdollar]
  omega

theorem kept_operand (he : e.dangles = true)
    (hx : Kept x.keepsNames (x.reread.map names) x.names)
    (hafter : Kept k (after.map namesList) ns) :
    Kept false (((operand x x.reread).bind fun x' =>
      after.map (onto (.prefixed .text x' ()) e :: ·)).map namesList) (e.names ++ (x.names ++ ns)) := by
  rintro _ hmem
  obtain ⟨es, hes, rfl⟩ := Option.map_eq_some_iff.1 hmem
  obtain ⟨x', hx', hes⟩ := Option.bind_eq_some_iff.1 hes
  obtain ⟨es, rfl, rfl⟩ := Option.map_eq_some_iff.1 hes
  have hle : weight x'.names ≤ weight x.names := by
    rw [operand] at hx'
    split at hx'
    next =>
      cases hx'
      exact Nat.le_refl _
    next => exact hx.weight_le _ (by rw [hx']; rfl)
  have hle' := hafter.weight_le _ rfl
  apply weight_onto he
  rw [Expr.names, weight_append, weight_append]
  omega

theorem kept_text_reference (he : e.dangles = true) (hb : b.isReference = true)
    (hafter : Kept k (after.map namesList) ns) :
    Kept false ((after.map (onto (.prefixed .text b.masked ()) e :: ·)).map namesList)
      (e.names ++ (b.names ++ ns)) := by
  rintro _ hmem
  obtain ⟨es, hes, rfl⟩ := Option.map_eq_some_iff.1 hmem
  obtain ⟨es, rfl, rfl⟩ := Option.map_eq_some_iff.1 hes
  obtain ⟨n, hnames, hmasked⟩ := names_masked hb
  have hle := hafter.weight_le _ rfl
  apply weight_onto he
  have hmask : weight [.reference (mask n)] = weight [.reference n] + 1 := by
    simp [weight, mask]
  rw [Expr.names, hnames, hmasked, weight_append, weight_append, hmask]
  omega

theorem kept_text (he : e.dangles = true) (hb : Kept b.keepsNames (b.reread.map names) b.names)
    (hafter : Kept k (after.map namesList) ns) :
    Kept (b.keepsNames && k) ((b.reread.bind fun b' => after.map fun es =>
      onto (.prefixed .text (.ruleRef "$" ()) ()) e :: b' :: es).map namesList)
      (e.names ++ (b.names ++ ns)) := by
  obtain ⟨l, hnames, -, honto⟩ := names_onto he
  have honto := (honto (.prefixed .text (.ruleRef "$" ()) ())).trans hnames.symm
  have h := (hb.append hafter).prepend e.names
  cases hr : b.reread with
  | none =>
      rw [hr] at h
      exact h
  | some b' =>
      rw [hr] at h
      cases after with
      | none => exact h
      | some es =>
          change Kept _ (some ((onto (.prefixed .text (.ruleRef "$" ()) ()) e).names ++
            (b'.names ++ namesList es))) _
          rw [honto]
          exact h

theorem kept_meet (he : e.dangles = true)
    (hx : Kept x.keepsNames (x.reread.map names) x.names)
    (hbody : ∀ op b j, x = .prefixed op b j → Kept b.keepsNames (b.reread.map names) b.names)
    (hrest : Kept (keepsNamesRow (x :: xs)) (rest.map namesList) (x.names ++ namesList xs))
    (hafter : Kept (keepsNamesRow xs) (after.map namesList) (namesList xs)) :
    Kept (x.standsApart && keepsNamesRow (x :: xs))
      ((meet e x x.reread (rereadBody x) rest after).map namesList)
      (e.names ++ (x.names ++ namesList xs)) := by
  cases x with
  | labeled l j p b i =>
      cases p with
      | true => exact kept_cons e hrest
      | false => rintro _ ⟨⟩
  | prefixed op b j =>
      cases op with
      | text =>
          cases hb : b.isReference with
          | true =>
              rw [meet, if_pos hb, standsApart, hb]
              exact kept_text_reference he hb hafter
          | false =>
              have hkeeps : keepsNamesRow (.prefixed .text b j :: xs) =
                  (b.keepsNames && keepsNamesRow xs) := by
                rw [keepsNamesRow_cons rfl, Expr.keepsNames, hb, Bool.false_or]
              rw [meet, if_neg (by rw [hb]; decide), standsApart, hb, hkeeps]
              exact kept_text he (hbody _ b j rfl) hafter
      | and => exact kept_cons e hrest
      | not => exact kept_cons e hrest
  | _ => exact kept_operand he hx hafter

end PegGrammar
