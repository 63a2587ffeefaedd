import Mathlib.Algebra.Group.Nat.Defs
import PegGrammar.Json.Read
import PegGrammar.Json.Write
import PegGrammar.Proofs.Locations

namespace PegGrammar

structure Position.InWord (p : Position) : Prop where
  offset : p.offset < UInt64.size
  line : p.line < UInt64.size
  column : p.column < UInt64.size

structure Span.InWord (s : Span) : Prop where
  start : s.start.InWord
  stop : s.stop.InWord

namespace Json

section

variable (key : String) (fields : List (String × Json))

@[simp]
theorem field?_object : (object fields).field? key = fields.lookup key := rfl

@[simp]
theorem fieldOrNull?_object :
    (object fields).fieldOrNull? key = some ((fields.lookup key).getD .null) := rfl

@[simp]
theorem spanField?_object :
    (object fields).spanField? key = (fields.lookup key).bind Span.ofJson? := rfl

@[simp]
theorem stringField?_object :
    (object fields).stringField? key = (fields.lookup key).bind string? := rfl

@[simp]
theorem boolField?_object : (object fields).boolField? key = (fields.lookup key).bind bool? := rfl

end

@[simp]
theorem string?_string (s : String) : (string s).string? = some s := rfl

@[simp]
theorem bool?_bool (b : Bool) : (bool b).bool? = some b := rfl

@[simp]
theorem array?_array (items : List Json) : (array items).array? = some items := rfl

@[simp]
theorem char?_ofChar (c : Char) : (ofChar c).char? = some c := by simp [ofChar, char?]

/-- No value is written as null, so a value that may be missing is told from a missing one. -/
theorem nullable?_ofOption {α : Type} {read : Json → Option α} {write : α → Json} {o : Option α}
    (hread : ∀ a ∈ o, read (write a) = some a) (hnull : ∀ a, write a ≠ .null) :
    (ofOption write o).nullable? read = some o := by
  cases o with
  | none => rfl
  | some a =>
      change nullable? read (write a) = _
      have hnot := hnull a
      unfold nullable?
      split
      next heq => exact (hnot heq).elim
      next => rw [hread a rfl]; rfl

theorem mapM_map {α : Type} {read : Json → Option α} {write : α → Json} {as : List α}
    (h : ∀ a ∈ as, read (write a) = some a) : (as.map write).mapM read = some as := by
  induction as with
  | nil => rfl
  | cons a as ih =>
      rw [List.map_cons, List.mapM_cons, h a List.mem_cons_self,
        ih fun b hb => h b (List.mem_cons_of_mem a hb)]
      rfl

theorem exists_of_mapM {α : Type} {read : Json → Option α} {items : List Json} {as : List α} {a : α}
    (h : items.mapM read = some as) (ha : a ∈ as) : ∃ j ∈ items, read j = some a := by
  induction items generalizing as with
  | nil =>
      cases h
      cases ha
  | cons j items ih =>
      simp only [List.mapM_cons, Option.bind_eq_bind, Option.bind_eq_some_iff,
        Option.pure_def] at h
      obtain ⟨b, hb, bs, hbs, ⟨⟩⟩ := h
      rcases List.mem_cons.1 ha with rfl | ha
      · exact ⟨j, List.mem_cons_self, hb⟩
      · obtain ⟨x, hx, hread⟩ := ih hbs ha
        exact ⟨x, List.mem_cons_of_mem j hx, hread⟩

theorem lt_of_nat? {j : Json} {n : Nat} (h : j.nat? = some n) : n < UInt64.size := by
  cases j with
  | nat m =>
      rw [nat?, Option.ite_none_right_eq_some] at h
      obtain ⟨hm, ⟨⟩⟩ := h
      exact hm
  | null | bool | number | string | array | object => cases h

end Json

section Locations

theorem Position.ofJson?_toJson {p : Position} (h : p.InWord) : ofJson? p.toJson = some p := by
  simp [ofJson?, toJson, List.lookup_cons, Json.nat?, h.offset, h.line, h.column]

theorem SourceTag.ofJson?_toJson (tag : SourceTag) : ofJson? tag.toJson = some tag :=
  Json.nullable?_ofOption (fun _ _ => rfl) fun _ => nofun

@[simp]
theorem Span.ofJson?_toJson {s : Span} (h : s.InWord) : ofJson? s.toJson = some s := by
  simp [ofJson?, toJson, List.lookup_cons, SourceTag.ofJson?_toJson,
    Position.ofJson?_toJson h.start, Position.ofJson?_toJson h.stop]

theorem Position.inWord_of_ofJson? {j : Json} {p : Position} (h : ofJson? j = some p) :
    p.InWord := by
  simp only [ofJson?, Option.bind_eq_bind, Option.bind_eq_some_iff, Option.pure_def] at h
  obtain ⟨_, -, _, hoffset, _, -, _, hline, _, -, _, hcolumn, ⟨⟩⟩ := h
  exact ⟨Json.lt_of_nat? hoffset, Json.lt_of_nat? hline, Json.lt_of_nat? hcolumn⟩

theorem Span.inWord_of_ofJson? {j : Json} {s : Span} (h : ofJson? j = some s) : s.InWord := by
  simp only [ofJson?, Option.bind_eq_bind, Option.bind_eq_some_iff, Option.pure_def] at h
  obtain ⟨_, -, _, -, _, -, _, hstart, _, -, _, hstop, ⟨⟩⟩ := h
  exact ⟨Position.inWord_of_ofJson? hstart, Position.inWord_of_ofJson? hstop⟩

theorem Json.inWord_of_spanField? {key : String} {j : Json} {s : Span}
    (h : j.spanField? key = some s) : s.InWord := by
  obtain ⟨_, -, h⟩ := Option.bind_eq_some_iff.1 h
  exact Span.inWord_of_ofJson? h

end Locations

/-- One character is a string and a range is a list, so parts are told apart. -/
theorem ClassPart.ofJson?_toJson (p : ClassPart) : ofJson? p.toJson = some p := by
  cases p <;> simp [ofJson?, toJson]
  case char c => simp [Json.ofChar, Json.char?]

namespace Expr

mutual

theorem ofJson?_toJson : (e : Expr Span) → e.Located Span.InWord → ofJson? e.toJson = some e
  | .named n v e l, h => by
      rw [ofJson?.eq_def]
      simp [toJson, node, kind, location, List.lookup_cons, h.2, ofJson?_toJson e h.1]
  | .choice es l, h => by
      rw [ofJson?.eq_def]
      simp [toJson, node, kind, location, List.lookup_cons, h.2, childrenOfJson?.eq_def,
        listOfJson?_listToJson es h.1]
  | .action e c k l, h => by
      rw [ofJson?.eq_def]
      simp [toJson, node, kind, location, List.lookup_cons, h.2.1, h.2.2, ofJson?_toJson e h.1]
  | .sequence es l, h => by
      rw [ofJson?.eq_def]
      simp [toJson, node, kind, location, List.lookup_cons, h.2, childrenOfJson?.eq_def,
        listOfJson?_listToJson es h.1]
  | .labeled n k p e l, h => by
      have hlabel : (Json.ofOption Json.string n).nullable? Json.string? = some n :=
        Json.nullable?_ofOption (fun _ _ => rfl) fun _ => nofun
      rw [ofJson?.eq_def]
      simp [toJson, node, kind, location, List.lookup_cons, hlabel, h.1, h.2.2,
        ofJson?_toJson e h.2.1]
  | .prefixed op e l, h => by
      rw [ofJson?.eq_def]
      cases op <;>
        simp [toJson, node, kind, PrefixOp.kind, location, List.lookup_cons, h.2,
          ofJson?_toJson e h.1]
  | .suffixed op e l, h => by
      rw [ofJson?.eq_def]
      cases op <;>
        simp [toJson, node, kind, SuffixOp.kind, location, List.lookup_cons, h.2,
          ofJson?_toJson e h.1]
  | .group e l, h => by
      rw [ofJson?.eq_def]
      simp [toJson, node, kind, location, List.lookup_cons, h.2, ofJson?_toJson e h.1]
  | .predicate p c k l, h => by
      rw [ofJson?.eq_def]
      cases p <;>
        simp [toJson, node, kind, Polarity.kind, location, List.lookup_cons, h.1, h.2]
  | .ruleRef n l, h => by
      have hl : l.InWord := h
      rw [ofJson?.eq_def]
      simp [toJson, node, kind, location, List.lookup_cons, hl]
  | .literal v i l, h => by
      have hl : l.InWord := h
      rw [ofJson?.eq_def]
      simp [toJson, node, kind, location, List.lookup_cons, hl]
  | .charClass ps v i l, h => by
      have hl : l.InWord := h
      rw [ofJson?.eq_def]
      simp [toJson, node, kind, location, List.lookup_cons, hl,
        Json.mapM_map fun p _ => ClassPart.ofJson?_toJson p]
  | .any l, h => by
      have hl : l.InWord := h
      rw [ofJson?.eq_def]
      simp [toJson, node, kind, location, List.lookup_cons, hl]

theorem listOfJson?_listToJson : (es : List (Expr Span)) → LocatedList Span.InWord es →
    listOfJson? (listToJson es) = some es
  | [], _ => by rw [listToJson, listOfJson?]
  | e :: es, h => by
      rw [listToJson, listOfJson?, ofJson?_toJson e h.1, listOfJson?_listToJson es h.2]
      rfl

end

mutual

theorem located_of_ofJson? {j : Json} {e : Expr Span} (h : ofJson? j = some e) :
    e.Located Span.InWord := by
  rw [ofJson?.eq_def] at h
  have hbody {b : Expr Span} (hb : (match _ : j.field? "expression" with
      | some e => ofJson? e
      | none => none) = some b) : b.Located Span.InWord := by
    split at hb
    next v hv => exact located_of_ofJson? hb
    next => cases hb
  simp only [Option.bind_eq_bind, Option.bind_eq_some_iff, Option.pure_def] at h
  obtain ⟨l, hl, kind, -, h⟩ := h
  have hl := Json.inWord_of_spanField? hl
  split at h
  all_goals simp only [Option.bind_eq_some_iff, reduceCtorEq, Option.some.injEq] at h
  case h_1 =>
    obtain ⟨_, -, _, -, b, hb, rfl⟩ := h
    exact ⟨hbody hb, hl⟩
  case h_2 | h_4 =>
    obtain ⟨es, hes, rfl⟩ := h
    exact ⟨located_of_childrenOfJson? hes, hl⟩
  case h_3 =>
    obtain ⟨b, hb, _, -, k, hk, rfl⟩ := h
    exact ⟨hbody hb, Json.inWord_of_spanField? hk, hl⟩
  case h_5 =>
    obtain ⟨_, -, _, -, k, hk, _, -, b, hb, rfl⟩ := h
    exact ⟨Json.inWord_of_spanField? hk, hbody hb, hl⟩
  case h_6 | h_7 | h_8 | h_9 | h_10 | h_11 | h_12 =>
    obtain ⟨b, hb, rfl⟩ := h
    exact ⟨hbody hb, hl⟩
  case h_13 | h_14 =>
    obtain ⟨_, -, k, hk, rfl⟩ := h
    exact ⟨Json.inWord_of_spanField? hk, hl⟩
  case h_15 =>
    obtain ⟨_, -, rfl⟩ := h
    exact hl
  case h_16 =>
    obtain ⟨_, -, _, -, rfl⟩ := h
    exact hl
  case h_17 =>
    obtain ⟨_, -, _, -, _, -, _, -, _, -, rfl⟩ := h
    exact hl
  case h_18 =>
    subst h
    exact hl
termination_by (sizeOf j, 1)
decreasing_by
  all_goals first
    | exact Prod.Lex.left _ _ (Json.sizeOf_field? ‹_›)
    | exact Prod.Lex.right _ (by decide)

theorem located_of_childrenOfJson? {key : String} {j : Json} {es : List (Expr Span)}
    (h : childrenOfJson? key j = some es) : LocatedList Span.InWord es := by
  rw [childrenOfJson?.eq_def] at h
  split at h
  next items hitems => exact located_of_listOfJson? h
  next => cases h
termination_by (sizeOf j, 0)
decreasing_by
  have := Json.sizeOf_field? ‹j.field? key = _›
  simp at this
  exact Prod.Lex.left _ _ (by omega)

theorem located_of_listOfJson? {items : List Json} {es : List (Expr Span)}
    (h : listOfJson? items = some es) : LocatedList Span.InWord es := by
  cases items with
  | nil =>
      rw [listOfJson?] at h
      cases h
      exact trivial
  | cons j items =>
      rw [listOfJson?] at h
      simp only [Option.bind_eq_bind, Option.bind_eq_some_iff, Option.pure_def] at h
      obtain ⟨e, he, es, hes, ⟨⟩⟩ := h
      exact ⟨located_of_ofJson? he, located_of_listOfJson? hes⟩
termination_by (sizeOf items, 0)

end

end Expr

namespace Initializer

theorem ofJson?_toJson {kind : String} {i : Initializer Span} (h : i.Located Span.InWord) :
    ofJson? (i.toJson kind) = some i := by
  simp [ofJson?, toJson, List.lookup_cons, h.1, h.2]

theorem located_of_ofJson? {j : Json} {i : Initializer Span} (h : ofJson? j = some i) :
    i.Located Span.InWord := by
  simp only [ofJson?, Option.bind_eq_bind, Option.bind_eq_some_iff, Option.pure_def] at h
  obtain ⟨_, -, k, hk, l, hl, ⟨⟩⟩ := h
  exact ⟨Json.inWord_of_spanField? hk, Json.inWord_of_spanField? hl⟩

end Initializer

namespace Rule

theorem ofJson?_toJson {r : Rule Span} (h : r.Located Span.InWord) : ofJson? r.toJson = some r := by
  simp [ofJson?, toJson, List.lookup_cons, h.1, h.2.2, Expr.ofJson?_toJson r.expression h.2.1]

theorem located_of_ofJson? {j : Json} {r : Rule Span} (h : ofJson? j = some r) :
    r.Located Span.InWord := by
  simp only [ofJson?, Option.bind_eq_bind, Option.bind_eq_some_iff, Option.pure_def] at h
  obtain ⟨_, -, k, hk, _, -, e, he, l, hl, ⟨⟩⟩ := h
  exact ⟨Json.inWord_of_spanField? hk, Expr.located_of_ofJson? he, Json.inWord_of_spanField? hl⟩

end Rule

namespace Grammar

theorem ofJson?_toJson {g : Grammar Span} (h : g.Located Span.InWord) :
    ofJson? g.toJson = some g := by
  have htop : (Json.ofOption topLevelToJson g.topLevel).nullable? Initializer.ofJson? =
      some g.topLevel :=
    Json.nullable?_ofOption (fun i hi => Initializer.ofJson?_toJson (h.topLevel i hi)) fun _ => nofun
  have hinit : (Json.ofOption perParseToJson g.perParse).nullable? Initializer.ofJson? =
      some g.perParse :=
    Json.nullable?_ofOption (fun i hi => Initializer.ofJson?_toJson (h.perParse i hi)) fun _ => nofun
  have hrules := Json.mapM_map fun r hr => Rule.ofJson?_toJson (h.rules r hr)
  simp [ofJson?, toJson, List.lookup_cons, htop, hinit, hrules, h.location]

theorem located_of_ofJson? {j : Json} {g : Grammar Span} (h : ofJson? j = some g) :
    g.Located Span.InWord := by
  have hinit {v : Json} {o : Option (Initializer Span)}
      (ho : v.nullable? Initializer.ofJson? = some o) : ∀ i ∈ o, i.Located Span.InWord := by
    rintro i rfl
    unfold Json.nullable? at ho
    split at ho
    next => cases ho
    next =>
      obtain ⟨_, hi, ⟨⟩⟩ := Option.map_eq_some_iff.1 ho
      exact Initializer.located_of_ofJson? hi
  simp only [ofJson?, Option.bind_eq_bind, Option.bind_eq_some_iff, Option.pure_def] at h
  obtain ⟨_, -, top, htop, _, -, init, hper, _, -, items, -, rs, hrs, l, hl, ⟨⟩⟩ := h
  refine ⟨hinit htop, hinit hper, fun r hr => ?_, Json.inWord_of_spanField? hl⟩
  obtain ⟨j, -, hj⟩ := Json.exists_of_mapM hrs hr
  exact Rule.located_of_ofJson? hj

end Grammar

/-- Every tree is read back from its JSON, and writing what was read loses nothing. -/
theorem json_roundTrip :
    (∀ g : Grammar Span, g.Located Span.InWord → Grammar.ofJson? g.toJson = some g) ∧
      ∀ j g, Grammar.ofJson? j = some g → Grammar.ofJson? g.toJson = some g :=
  ⟨fun _ => Grammar.ofJson?_toJson,
    fun _ _ h => Grammar.ofJson?_toJson (Grammar.located_of_ofJson? h)⟩

/-- No parser makes this tree: its code is not balanced, a label is missing, a range goes backwards
and so do the locations. -/
theorem json_roundTrip_odd :
    let l : Span := ⟨some "", ⟨2 ^ 64 - 1, 0, 7⟩, {}⟩
    let parts : List ClassPart := [.range 'z' 'a', .char '\n']
    let e : Expr Span := .choice [.labeled none l false (.charClass parts true false {}) l,
      .sequence [] {}] l
    let g : Grammar Span := ⟨some ⟨"\x7d", l, {}⟩, none, [⟨"", {}, e, l⟩], l⟩
    g.Located Span.InWord ∧ Grammar.ofJson? g.toJson = some g := by
  intro l parts e g
  have hdefault : ({} : Span).InWord :=
    ⟨⟨by decide, by decide, by decide⟩, by decide, by decide, by decide⟩
  have hl : l.InWord := ⟨⟨by decide, by decide, by decide⟩, hdefault.stop⟩
  have he : e.Located Span.InWord := ⟨⟨⟨hl, hdefault, hl⟩, ⟨trivial, hdefault⟩, trivial⟩, hl⟩
  have hg : g.Located Span.InWord := by
    refine ⟨?_, nofun, ?_, hl⟩
    · rintro _ ⟨⟩
      exact ⟨hl, hdefault⟩
    · exact List.forall_mem_singleton.2 ⟨hdefault, he, hl⟩
  exact ⟨hg, json_roundTrip.1 g hg⟩

end PegGrammar
