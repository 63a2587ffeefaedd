import PegGrammar.Proofs.Names
import PegGrammar.Proofs.Rereading.Documents

namespace PegGrammar

open PegGrammar.Expr

variable {N : String → Prop} {e : Expr Unit} {es : List (Expr Unit)}

/-- None of the references begins with a dollar sign. -/
def Undollared (ns : List NameUse) : Prop := ∀ n, .reference n ∈ ns → n.toList.head? ≠ some '$'

theorem undollared_append {ns ns' : List NameUse} :
    Undollared (ns ++ ns') ↔ Undollared ns ∧ Undollared ns' := by
  simp only [Undollared, List.mem_append]
  exact ⟨fun h => ⟨fun n hn => h n (.inl hn), fun n hn => h n (.inr hn)⟩,
    fun h n hn => hn.elim (h.1 n) (h.2 n)⟩

theorem exposed_eq (wrap : Expr Unit → Expr Unit) {n : String} (h : Undollared [.reference n]) :
    exposed wrap n = wrap (.ruleRef n ()) := by
  have hmasked : isMasked n = false := by
    rw [isMasked]
    split
    next heq => exact (h n List.mem_cons_self (by rw [heq]; rfl)).elim
    next => rfl
  exact exposed_eq_wrap wrap hmasked

theorem dangles_eq_false (h : Undollared e.names) : e.dangles = false := by
  have hne {n : String} (h : Undollared [.reference n]) : decide (n = "$") = false := by
    refine decide_eq_false ?_
    rintro rfl
    exact h "$" List.mem_cons_self (by decide)
  cases e with
  | ruleRef n k => exact hne h
  | labeled l j p b k =>
      cases b with
      | ruleRef n k => exact hne (undollared_append.1 h).2
      | _ => rfl
  | _ => rfl

mutual

theorem reread_eq : (e : Expr Unit) → e.Shaped N → Undollared e.names → e.reread = some e
  | .named .., h, _ => h.elim
  | .choice es k, h, hn => by rw [reread, rereadList_eq es h.2.2 hn]; rfl
  | .action e c j k, h, hn => by rw [reread, reread_eq e h.2.1 hn]; rfl
  | .sequence es k, h, hn => by
      rw [reread, rereadElements_eq es h.2.2 hn, Option.map_some]
      match es, h.1 with
      | [], _ => rfl
      | [e], hpick => rw [collapse, if_pos (hpick e rfl)]
      | _ :: _ :: _, _ => rfl
  | .labeled l j p e k, h, hn => by
      rw [reread, reread_eq e h.2.2.2 (undollared_append.1 hn).2]
      rfl
  | .prefixed op e k, h, hn => by
      rw [reread, reread_eq e h.2 hn, operand]
      split <;> rfl
  | .suffixed op e k, h, hn => by
      have he := reread_eq e h.2 hn
      cases e with
      | ruleRef n j => exact congrArg some (exposed_eq (.suffixed op · k) hn)
      | _ =>
          rw [reread, he]
          · rfl
          all_goals rintro _ _ ⟨⟩
  | .group e k, h, hn => by
      rw [reread, reread_eq e h.2.2 hn, Option.map_some, regroup, if_pos h.1]
  | .predicate .., _, _ => rfl
  | .ruleRef n k, _, hn => congrArg some (exposed_eq id hn)
  | .literal .., _, _ => rfl
  | .charClass .., _, _ => rfl
  | .any _, _, _ => rfl

theorem rereadList_eq : (es : List (Expr Unit)) → ShapedList N es → Undollared (namesList es) →
    rereadList es = some es
  | [], _, _ => rfl
  | e :: es, h, hn => by
      obtain ⟨he, hes⟩ := undollared_append.1 hn
      rw [rereadList, reread_eq e h.1 he, rereadList_eq es h.2 hes]
      rfl

theorem rereadElements_eq : (es : List (Expr Unit)) → ShapedList N es →
    Undollared (namesList es) → rereadElements es = some es
  | [], _, _ => rfl
  | [e], h, hn => by
      rw [rereadElements, reread_eq e h.1 (undollared_append.1 hn).1]
      rfl
  | e :: x :: xs, h, hn => by
      obtain ⟨he, hxs⟩ := undollared_append.1 hn
      rw [rereadElements, dangles_eq_false he, if_neg (by decide), reread_eq e h.1 he,
        rereadElements_eq (x :: xs) h.2 hxs]
      rfl

end

theorem names_expression (r : Rule Unit) : r.expression.names = r.body.names := by
  obtain ⟨n, j, e, k⟩ := r
  cases e <;> rfl

theorem rereadRules_eq {rs : List (Rule Unit)} (hrs : ∀ r ∈ rs, r.Shaped N)
    (hn : Undollared (rs.flatMap Rule.names)) (htail : ∀ r ∈ rs.tail, r.isMistakable = false) :
    rereadRules rs = some rs := by
  induction rs with
  | nil => rfl
  | cons r rs ih =>
      rw [List.flatMap_cons] at hn
      obtain ⟨hr, hnames⟩ := undollared_append.1 hn
      have hbody : Undollared r.body.names := by
        rw [← names_expression]
        exact fun n hmem => hr n (List.mem_cons_of_mem _ hmem)
      have hnext : rs.head?.any Rule.isMistakable = false := by
        cases rs with
        | nil => rfl
        | cons r' rs => exact htail r' List.mem_cons_self
      have hreread : r.reread rs.head? = some r := by
        rw [Rule.reread, hnext, Bool.false_and, if_neg (by decide),
          reread_eq r.body (hrs r List.mem_cons_self).body hbody, Option.map_some, Rule.ofParts_eq]
      rw [rereadRules, hreread, ih (fun x hx => hrs x (List.mem_cons_of_mem r hx)) hnames
        fun x hx => htail x (List.mem_of_mem_tail hx)]
      rfl

end PegGrammar
