import Mathlib.Algebra.GroupWithZero.Nat
import PegGrammar.Printer
import PegGrammar.Proofs.PrintedText

namespace PegGrammar

open Printer

variable {σ τ : Type}

namespace Expr

mutual

/-- The pairs of parentheses in the text of an expression. -/
def pairs : Expr σ → Nat
  | .named _ _ e _ => e.pairs
  | .choice es _ => pairsEach .action es
  | .action e _ _ _ => (e.looserThan .sequence).toNat + e.pairs
  | .sequence es _ => pairsEach .labeled es
  | .labeled _ _ _ e _ => (e.looserThan .prefixed).toNat + e.pairs
  | .prefixed _ e _ => (e.looserThan .suffixed).toNat + e.pairs
  | .suffixed _ e _ => (e.looserThan .primary).toNat + e.pairs
  | .group e _ => e.pairs + 1
  | .predicate .. => 0
  | .ruleRef .. => 0
  | .literal .. => 0
  | .charClass .. => 0
  | .any _ => 0

def pairsEach (p : Precedence) : List (Expr σ) → Nat
  | [] => 0
  | e :: es => (e.looserThan p).toNat + e.pairs + pairsEach p es

end

/-- The pairs in the text of an expression where one of precedence `p` is wanted. -/
def pairsAt (p : Precedence) (e : Expr σ) : Nat := (e.looserThan p).toNat + e.pairs

theorem pairsEach_eq (p : Precedence) (es : List (Expr σ)) :
    pairsEach p es = (es.map (pairsAt p)).sum := by
  induction es with
  | nil => rfl
  | cons e es ih => rw [pairsEach, ih, List.map_cons, List.sum_cons, pairsAt]

mutual

/-- The parentheses that are opened inside strings, classes, code and names. -/
def enclosed : Expr σ → Nat
  | .named _ _ e _ => e.enclosed
  | .choice es _ => enclosedEach es
  | .action e code _ _ => e.enclosed + (block code).count '('
  | .sequence es _ => enclosedEach es
  | .labeled label _ _ e _ => label.elim 0 (fun n => (nameText n.toList).count '(') + e.enclosed
  | .prefixed _ e _ => e.enclosed
  | .suffixed _ e _ => e.enclosed
  | .group e _ => e.enclosed
  | .predicate _ code _ _ => (block code).count '('
  | .ruleRef n _ => (nameText n.toList).count '('
  | .literal v _ _ => (quote v.toList).count '('
  | .charClass ps v _ _ => (classBody ps v).count '('
  | .any _ => 0

def enclosedEach : List (Expr σ) → Nat
  | [] => 0
  | e :: es => e.enclosed + enclosedEach es

end

theorem count_parens (b : Bool) (s : Text) :
    (parens b s).count '(' = b.toNat + s.count '(' := by
  cases b with
  | false => rw [parens, if_neg Bool.false_ne_true, Bool.toNat_false, Nat.zero_add]
  | true => simp [parens, Nat.add_comm]

theorem count_intercalate {s : Text} {c : Char} (h : s.count c = 0) (ts : List Text) :
    (List.intercalate s ts).count c = (ts.map (List.count c)).sum := by
  induction ts with
  | nil => rfl
  | cons t ts ih =>
      cases ts with
      | nil => simp
      | cons u ts =>
          rw [List.intercalate_cons_cons, List.count_append, List.count_append, h, ih]
          simp

theorem count_caseFlag (i : Bool) : (caseFlag i).count '(' = 0 := by
  cases i <;> decide

mutual

/-- The parentheses that are opened in the text of an expression are those of its pairs and those
inside its tokens. -/
theorem count_text : (e : Expr σ) → e.text.count '(' = e.pairs + e.enclosed
  | .named _ _ e _ => by
      rw [text, pairs, enclosed, count_text e]
  | .choice es _ => by
      rw [text, pairs, enclosed, count_intercalate (by decide), count_texts]
  | .action e code _ _ => by
      have hbody : (parens (e.looserThan .sequence) e.text).count '(' =
          (e.looserThan .sequence).toNat + e.pairs + e.enclosed := by
        rw [count_parens, count_text e, Nat.add_assoc]
      rw [text, pairs, enclosed]
      split
      next hempty =>
        rw [List.isEmpty_iff.1 hempty, List.count_nil] at hbody
        omega
      next => simp [hbody, Nat.add_assoc]
  | .sequence es _ => by
      rw [text, pairs, enclosed, count_intercalate (by decide), count_texts]
  | .labeled label _ pick e _ => by
      have hpick : (if pick then ['@'] else []).count '(' = 0 := by cases pick <;> decide
      have hlabel : (label.elim [] fun n => nameText n.toList ++ [':']).count '(' =
          label.elim 0 fun n => (nameText n.toList).count '(' := by
        cases label <;> simp
      rw [text, pairs, enclosed, List.count_append, List.count_append, hpick, hlabel, count_parens,
        count_text e]
      omega
  | .prefixed op e _ => by
      have hop : (op.symbol == '(') = false := by cases op <;> decide
      rw [text, pairs, enclosed, List.count_cons, hop, count_parens, count_text e]
      simp [Nat.add_assoc]
  | .suffixed op e _ => by
      have hop : (op.symbol == '(') = false := by cases op <;> decide
      rw [text, pairs, enclosed, List.count_append, List.count_singleton, hop, count_parens, count_text e]
      simp [Nat.add_assoc]
  | .group e _ => by
      rw [text, pairs, enclosed, count_parens, count_text e, Bool.toNat_true]
      omega
  | .predicate p code _ _ => by
      have hp : (p.symbol == '(') = false := by cases p <;> decide
      rw [text, pairs, enclosed, List.count_cons, hp]
      simp
  | .ruleRef n _ => by
      rw [text, pairs, enclosed, Nat.zero_add]
  | .literal v i _ => by
      rw [text, pairs, enclosed, List.count_append, count_caseFlag, Nat.zero_add, Nat.add_zero]
  | .charClass ps v i _ => by
      rw [text, pairs, enclosed, List.count_append, count_caseFlag, Nat.zero_add, Nat.add_zero]
  | .any _ => by
      rw [text, pairs, enclosed]
      decide

theorem count_texts (p : Precedence) : (es : List (Expr σ)) →
    ((texts p es).map (List.count '(')).sum = pairsEach p es + enclosedEach es
  | [] => rfl
  | e :: es => by
      rw [texts, pairsEach, enclosedEach, List.map_cons, List.sum_cons, count_parens, count_text e,
        count_texts p es]
      omega

end

mutual

theorem pairs_map (f : σ → τ) : (e : Expr σ) → (e.map f).pairs = e.pairs
  | .named _ _ e _ => pairs_map f e
  | .choice es _ => pairsEach_map f .action es
  | .action e _ _ _ => by rw [map, pairs, pairs, looserThan_map, pairs_map f e]
  | .sequence es _ => pairsEach_map f .labeled es
  | .labeled _ _ _ e _ => by rw [map, pairs, pairs, looserThan_map, pairs_map f e]
  | .prefixed _ e _ => by rw [map, pairs, pairs, looserThan_map, pairs_map f e]
  | .suffixed _ e _ => by rw [map, pairs, pairs, looserThan_map, pairs_map f e]
  | .group e _ => congrArg (· + 1) (pairs_map f e)
  | .predicate .. => rfl
  | .ruleRef .. => rfl
  | .literal .. => rfl
  | .charClass .. => rfl
  | .any _ => rfl

theorem pairsEach_map (f : σ → τ) (p : Precedence) : (es : List (Expr σ)) →
    pairsEach p (mapList f es) = pairsEach p es
  | [] => rfl
  | e :: es => by
      rw [mapList, pairsEach, pairsEach, looserThan_map, pairs_map f e, pairsEach_map f p es]

end

end Expr

namespace Rule

def pairs (r : Rule σ) : Nat := r.header.2.pairs

theorem pairs_eq (r : Rule σ) : r.pairs = r.expression.pairs := by
  obtain ⟨n, k, e, l⟩ := r
  cases e <;> rfl

def enclosed (r : Rule σ) : Nat := r.header.1.count '(' + r.header.2.enclosed

theorem count_text (r : Rule σ) : r.text.count '(' = r.pairs + r.enclosed := by
  have hequals : [' ', '=', ' '].count '(' = 0 := by decide
  rw [text, List.count_append, List.count_append, hequals, Expr.count_text, pairs, enclosed]
  omega

theorem pairs_map (f : σ → τ) (r : Rule σ) : (r.map f).pairs = r.pairs := by
  rw [pairs_eq, pairs_eq]
  exact Expr.pairs_map f r.expression

end Rule

namespace Grammar

def pairs (g : Grammar σ) : Nat := (g.rules.map Rule.pairs).sum

def enclosed (g : Grammar σ) : Nat :=
  (g.topLevel.toList.map (·.topLevelText.count '(')).sum +
    (g.perParse.toList.map (·.text.count '(')).sum + (g.rules.map Rule.enclosed).sum

theorem count_text (g : Grammar σ) : g.text.count '(' = g.pairs + g.enclosed := by
  have hrules (rs : List (Rule σ)) : (rs.map (·.text.count '(')).sum =
      (rs.map Rule.pairs).sum + (rs.map Rule.enclosed).sum := by
    induction rs with
    | nil => rfl
    | cons r rs ih =>
        rw [List.map_cons, List.sum_cons, ih, r.count_text]
        simp only [List.map_cons, List.sum_cons]
        omega
  have hend : ['\n'].count '(' = 0 := by decide
  rw [text, List.count_append, hend, Expr.count_intercalate (by decide), statements, pairs, enclosed]
  simp only [List.map_append, List.sum_append, List.map_map]
  have hall := hrules g.rules
  simp only [Function.comp_def]
  omega

theorem pairs_map (f : σ → τ) (g : Grammar σ) : (g.map f).pairs = g.pairs := by
  rw [pairs, pairs, map, List.map_map]
  exact congrArg List.sum (List.map_congr_left fun r _ => Rule.pairs_map f r)

end Grammar

end PegGrammar
