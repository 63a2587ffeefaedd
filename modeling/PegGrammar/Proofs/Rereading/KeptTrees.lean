import PegGrammar.Proofs.Rereading.Documents
import PegGrammar.Proofs.Rereading.KeptNames

namespace PegGrammar

open PegGrammar.Expr

variable {e : Expr Unit} {r : Rule Unit} {rs : List (Rule Unit)} {g : Grammar Unit}

theorem bind_names (o : Option (Expr Unit)) (os : Option (List (Expr Unit))) :
    (o.bind fun e => os.map (e :: ·)).map namesList =
      (o.map names).bind fun a => (os.map namesList).map (a ++ ·) := by
  cases o with
  | none => rfl
  | some e => cases os <;> rfl

/-- The names of an expression that is read back, and those behind its prefix operator. -/
structure KeptReread (e : Expr Unit) : Prop where
  whole : Kept e.keepsNames (e.reread.map names) e.names
  body : ∀ op b j, e = .prefixed op b j → Kept b.keepsNames (b.reread.map names) b.names

theorem KeptReread.of_whole (hop : ∀ op b j, e ≠ .prefixed op b j)
    (h : Kept e.keepsNames (e.reread.map names) e.names) : KeptReread e :=
  ⟨h, fun op b j he => (hop op b j he).elim⟩

mutual

theorem keptReread : (e : Expr Unit) → KeptReread e
  | .named d v e k => .of_whole (by rintro _ _ _ ⟨⟩) (by
      have h := (keptReread e).whole
      rw [reread, Option.map_map]
      exact h)
  | .choice es k => .of_whole (by rintro _ _ _ ⟨⟩) (by
      have h := kept_rereadList es
      rw [reread, Option.map_map]
      exact h)
  | .action e c j k => .of_whole (by rintro _ _ _ ⟨⟩) (by
      have h := (keptReread e).whole
      rw [reread, Option.map_map]
      exact h)
  | .sequence es k => .of_whole (by rintro _ _ _ ⟨⟩) (by
      have h := kept_rereadElements es
      rw [reread, Option.map_map, show names ∘ collapse = namesList from funext names_collapse]
      exact h)
  | .labeled l j p e k => .of_whole (by rintro _ _ _ ⟨⟩) (by
      have h := (keptReread e).whole.prepend (l.map NameUse.label).toList
      rw [reread, Option.map_map]
      rwa [Option.map_map] at h)
  | .prefixed op e k => ⟨by
      have h := (keptReread e).whole
      rw [reread, Option.map_map, operand, Expr.keepsNames]
      cases href : e.isReference with
      | true => exact rfl
      | false => exact h, by
      rintro _ _ _ ⟨⟩
      exact (keptReread e).whole⟩
  | .suffixed op e k => .of_whole (by rintro _ _ _ ⟨⟩) (by
      have h := (keptReread e).whole
      cases e with
      | ruleRef n j => exact kept_exposed (.suffixed op · k) (fun _ => rfl) n
      | _ =>
          rw [reread, Option.map_map]
          · exact h
          all_goals rintro _ _ ⟨⟩)
  | .group e k => .of_whole (by rintro _ _ _ ⟨⟩) (by
      have h := (keptReread e).whole
      rw [reread, Option.map_map, show names ∘ regroup = names from funext names_regroup]
      exact h)
  | .predicate p c j k => .of_whole (by rintro _ _ _ ⟨⟩) rfl
  | .ruleRef n k => .of_whole (by rintro _ _ _ ⟨⟩) (kept_exposed id (fun _ => rfl) n)
  | .literal v i k => .of_whole (by rintro _ _ _ ⟨⟩) rfl
  | .charClass ps v i k => .of_whole (by rintro _ _ _ ⟨⟩) rfl
  | .any k => .of_whole (by rintro _ _ _ ⟨⟩) rfl

theorem kept_rereadList : (es : List (Expr Unit)) →
    Kept (keepsNamesList es) ((rereadList es).map namesList) (namesList es)
  | [] => rfl
  | e :: es => by
      have h := (keptReread e).whole.append (kept_rereadList es)
      rw [rereadList]
      rwa [bind_names]

theorem kept_rereadElements : (es : List (Expr Unit)) →
    Kept (keepsNamesRow es) ((rereadElements es).map namesList) (namesList es)
  | [] => rfl
  | [e] => by
      have h := (keptReread e).whole
      have hkeeps : keepsNamesRow [e] = e.keepsNames := by simp [keepsNamesRow]
      have hnames (e : Expr Unit) : namesList [e] = e.names := List.append_nil _
      rw [rereadElements, Option.map_map, hkeeps, hnames,
        show namesList ∘ ([·]) = names from funext hnames]
      exact h
  | e :: x :: xs => by
      have hrest := kept_rereadElements (x :: xs)
      have hafter := kept_rereadElements xs
      have hx := keptReread x
      have he := (keptReread e).whole
      rw [rereadElements, keepsNamesRow, List.head?_cons, Option.all_some]
      cases hdangles : e.dangles with
      | true =>
          obtain ⟨-, -, hkeeps, -⟩ := names_onto hdangles
          rw [if_pos rfl, hkeeps, Bool.not_true, Bool.false_or, Bool.and_true]
          exact kept_meet hdangles hx.whole hx.body hrest hafter
      | false =>
          rw [if_neg Bool.false_ne_true, Bool.not_false, Bool.true_or, Bool.true_and, bind_names]
          exact he.append hrest

end

theorem shaped_reread {e e' : Expr Unit} (h : e.Shaped Name.Readable) (hpick : e.isPick = false)
    (he : e.reread = some e') : e'.Shaped fun _ => True := by
  have houtcome := (rereads e h).expression hpick (shut_close [])
    (Reader.next_skipTrivia (by decide) (by decide))
  rw [he, ← Reader.expression_eq_choice] at houtcome
  obtain ⟨s, m, hfinds⟩ : ∃ s m, Reader.Finds Reader.expression s e' m := by
    cases houtcome with
    | found _ _ h => exact ⟨_, _, h⟩
    | empty _ _ h => exact ⟨_, _, h⟩
  obtain ⟨a, st', hmatch, rfl, -⟩ := hfinds { rest := s } rfl
  exact (Expr.shaped_map a).2 (Reader.shaped_expression (fun _ => trivial) hmatch).1

theorem names_ofParts {N : String → Prop} {e : Expr Unit} (he : e.Shaped N) (n : String)
    (d : Option (String × Bool)) :
    (Rule.ofParts n d e).names = .rule n (d.map (·.1)) :: e.names := by
  cases d with
  | some d => rfl
  | none =>
      cases e with
      | named => exact he.elim
      | _ => rfl

theorem kept_rule (hr : r.Shaped Name.Readable) (next : Option (Rule Unit)) :
    Kept (!(next.any Rule.isMistakable && !r.body.endsInAction) && r.body.keepsNames)
      ((r.reread next).map Rule.names) r.names := by
  have hnames := names_ofParts hr.body r.name r.display
  rw [Rule.ofParts_eq] at hnames
  rw [Rule.reread, hnames]
  cases next.any Rule.isMistakable && !r.body.endsInAction with
  | true => rintro _ ⟨⟩
  | false =>
      have h := (keptReread r.body).whole.prepend [.rule r.name (r.display.map (·.1))]
      rw [if_neg Bool.false_ne_true]
      cases he : r.body.reread with
      | none =>
          rw [he] at h
          exact h
      | some e =>
          rw [he] at h
          have hnames := names_ofParts (shaped_reread hr.body hr.body_isPick he) r.name r.display
          change Kept _ (some (Rule.ofParts r.name r.display e).names) _
          rw [hnames]
          exact h

theorem kept_rereadRules (hrs : ∀ r ∈ rs, r.Shaped Name.Readable) :
    Kept (keepsNamesRules rs) ((rereadRules rs).map (·.flatMap Rule.names))
      (rs.flatMap Rule.names) := by
  induction rs with
  | nil => rfl
  | cons r rs ih =>
      have h := (kept_rule (hrs r List.mem_cons_self) rs.head?).append
        (ih fun x hx => hrs x (List.mem_cons_of_mem r hx))
      rw [rereadRules, keepsNamesRules, List.flatMap_cons]
      cases hr : r.reread rs.head? with
      | none =>
          rw [hr] at h
          exact h
      | some r' =>
          rw [hr] at h
          cases hrs : rereadRules rs with
          | _ =>
              rw [hrs] at h
              exact h

/-- All names are read back exactly if none of them stands where it is mistaken. -/
theorem reread_names_iff (hg : g.Shaped Name.Readable) :
    (∃ g', g.reread = some g' ∧ g'.names = g.names) ↔ g.keepsNames = true := by
  have hkept := kept_rereadRules hg.rules
  constructor
  · rintro ⟨g', hg', hnames⟩
    obtain ⟨rs, hrs, rfl⟩ := Option.map_eq_some_iff.1 hg'
    rw [Grammar.keepsNames]
    cases hk : keepsNamesRules g.rules with
    | true => rfl
    | false =>
        rw [hk, hrs] at hkept
        have hlt : weight (rs.flatMap Rule.names) < weight g.names := hkept _ rfl
        have heq : rs.flatMap Rule.names = g.names := hnames
        rw [heq] at hlt
        exact (Nat.lt_irrefl _ hlt).elim
  · intro hk
    rw [show keepsNamesRules g.rules = true from hk] at hkept
    obtain ⟨rs, hrs, hnames⟩ := Option.map_eq_some_iff.1 hkept
    exact ⟨{ g with rules := rs }, by rw [Grammar.reread, hrs]; rfl, hnames⟩

end PegGrammar
