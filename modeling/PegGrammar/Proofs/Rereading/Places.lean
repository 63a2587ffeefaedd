import PegGrammar.Proofs.Rereading.Rules

namespace PegGrammar

open Reader PegGrammar.Expr

def Rule.reread (r : Rule Unit) (next : Option (Rule Unit)) : Option (Rule Unit) :=
  if next.any Rule.isMistakable && !r.body.endsInAction then none
  else r.body.reread.map (.ofParts r.name r.display)

def rereadRules : List (Rule Unit) → Option (List (Rule Unit))
  | [] => some []
  | r :: rs => (r.reread rs.head?).bind fun r' => (rereadRules rs).map (r' :: ·)

/-- What is read in place of a document. -/
def Grammar.reread (g : Grammar Unit) : Option (Grammar Unit) :=
  (rereadRules g.rules).map fun rs => { g with rules := rs }

variable {s t m F : Text} {ts : List Text} {r : Rule Unit} {rs : List (Rule Unit)}

section Places

def following : List Text → Text
  | [] => []
  | t :: ts => '\n' :: (t ++ '\n' :: following ts)

/-- The text where reading stands when these statements are left. -/
def place (ts : List Text) : Text := skipTrivia (following ts)

theorem intercalate_eq_following (ts : List Text) :
    '\n' :: (List.intercalate ['\n', '\n'] (t :: ts) ++ ['\n']) = following (t :: ts) := by
  induction ts generalizing t with
  | nil => simp [following]
  | cons u ts ih =>
      have hcons : List.intercalate ['\n', '\n'] (t :: u :: ts) =
          t ++ (['\n', '\n'] ++ List.intercalate ['\n', '\n'] (u :: ts)) := rfl
      rw [hcons, following, ← ih]
      simp

theorem place_cons {c : Char} (hc : Solid c) (ht : t = c :: s) (ts : List Text) :
    place (t :: ts) = t ++ '\n' :: following ts := by
  rw [place, following, skipTrivia_newline, ht, List.cons_append, skipTrivia_solid hc]

theorem place_ruleText (hn : Name.Readable r.name) (ts : List Text) :
    place (r.text :: ts) = r.text ++ '\n' :: following ts := by
  obtain ⟨c, u, hu, hc⟩ := exists_nameText hn
  rw [Rule.text_eq, hu]
  exact place_cons (solid_of_opens (opens_of_isNameHead hc)) rfl ts

theorem takes_thenTrivia {α : Type} {p : Reader α} {V : α → Prop} (h : Takes p s V t) :
    Takes (thenTrivia p) s V (skipTrivia t) :=
  h.bind fun _ ha => takes_trivia.bind fun _ _ => takes_pure ha

end Places

section Rules

theorem next_following (hrs : ∀ r ∈ rs, r.Shaped Name.Readable) :
    Next IsNameHead (place (rs.map Rule.text)) := by
  cases rs with
  | nil =>
      rw [place, List.map_nil, following, skipTrivia_nil]
      exact nofun
  | cons r rs =>
      have hn := (hrs r List.mem_cons_self).name
      obtain ⟨c, u, hu, hc⟩ := exists_nameText hn
      rw [List.map_cons, place_ruleText hn, Rule.text_eq, hu]
      exact next_cons hc

theorem outcome_body (hr : r.Shaped Name.Readable) (hrs : ∀ r ∈ rs, r.Shaped Name.Readable) :
    Outcome (choice expression) r.body.text ('\n' :: following (rs.map Rule.text))
      (if rs.head?.any Rule.isMistakable && !r.body.endsInAction then none
        else r.body.reread) := by
  have hreads := (rereads r.body hr.body).expression hr.body_isPick
  cases rs with
  | nil =>
      have hskip : skipTrivia ['\n'] = [] := by rw [skipTrivia_newline, skipTrivia_nil]
      apply hreads shut_newline
      rw [hskip]
      exact nofun
  | cons r' rs =>
      have hn := (hrs r' List.mem_cons_self).name
      have htext : '\n' :: following ((r' :: rs).map Rule.text) =
          '\n' :: '\n' :: (Printer.nameText r'.name.toList ++
            afterName r'.display (r'.body.text ++ '\n' :: following (rs.map Rule.text))) := by
        rw [List.map_cons, following, Rule.text_eq]
        simp [afterName]
      have hnext : Next (fun c => c ≠ '{' ∧ c ≠ '/')
          (skipTrivia ('\n' :: following ((r' :: rs).map Rule.text))) := by
        rw [skipTrivia_newline]
        exact (next_following hrs).imp fun c hc =>
          ⟨hc.ne (by decide) (by decide), hc.ne (by decide) (by decide)⟩
      rw [htext] at hnext ⊢
      rw [List.head?_cons, Option.any_some]
      cases hd : r'.isMistakable with
      | false =>
          refine hreads (shut_header hn (fun hdollar => ?_) _) hnext
          rw [Rule.isMistakable, decide_eq_true hdollar, Bool.true_and] at hd
          exact Option.isNone_iff_eq_none.1 (Option.isSome_eq_false_iff.1 hd)
      | true =>
          rw [Rule.isMistakable, Bool.and_eq_true, decide_eq_true_iff] at hd
          obtain ⟨⟨d, v⟩, hdisplay⟩ := Option.isSome_iff_exists.1 hd.2
          have hstuck := stuck_header d v (r'.body.text ++ '\n' :: following (rs.map Rule.text))
          have hsuffixed := refuses_suffixed_header hn r'.display
            (r'.body.text ++ '\n' :: following (rs.map Rule.text))
          rw [← skipTrivia_header hn] at hsuffixed
          rw [hd.1, hdisplay] at hnext hsuffixed ⊢
          have h := outcome_stuck hr.body hr.body_isPick (follow_header (hd.1 ▸ hn) _) hsuffixed hstuck
            hnext
          cases hend : r.body.endsInAction with
          | _ => rwa [hend] at h

/-- Reading a rule from its place leads to the place of the next one, or not past it at all. -/
def RuleOutcome (s : Text) (ts : List Text) : Option (Rule Unit) → Prop
  | some r => Takes (thenTrivia rule) s (·.bare = r) (place ts)
  | none => Refuses (thenTrivia rule) s

theorem ruleOutcome (hr : r.Shaped Name.Readable) (hrs : ∀ r ∈ rs, r.Shaped Name.Readable) :
    RuleOutcome (place ((r :: rs).map Rule.text)) (rs.map Rule.text) (r.reread rs.head?) := by
  have hplace : place ((r :: rs).map Rule.text) = Printer.nameText r.name.toList ++
      afterName r.display (r.body.text ++ '\n' :: following (rs.map Rule.text)) := by
    rw [List.map_cons, place_ruleText hr.name, Rule.text_eq]
    simp [afterName]
  have hsemicolon : Next (· ≠ ';') (skipTrivia (following (rs.map Rule.text))) :=
    (next_following hrs).imp fun c hc => hc.ne (by decide) (by decide)
  have hbody := outcome_body hr hrs
  rw [← expression_eq_choice] at hbody
  have found {e : Expr Unit} (h : Found expression r.body.text
      ('\n' :: following (rs.map Rule.text)) e) :
      RuleOutcome (place ((r :: rs).map Rule.text)) (rs.map Rule.text)
        (some (.ofParts r.name r.display e)) := by
    obtain ⟨m, hfinds, hm⟩ := h.afterTrivia Spaces.refl.space
    rw [hplace]
    exact takes_thenTrivia (takes_rule hr.name hfinds (takes_statementEnd hsemicolon hm))
  have jammed (h : Jammed expression r.body.text ('\n' :: following (rs.map Rule.text))) :
      RuleOutcome (place ((r :: rs).map Rule.text)) (rs.map Rule.text) none := by
    obtain ⟨e, m, hfinds, hm⟩ := h.afterTrivia Spaces.refl.space
    rw [hplace]
    exact (refuses_rule hr.name hfinds (refuses_statementEnd hm)).bind
  rw [Rule.reread]
  split at hbody
  next hhazard =>
    rw [if_pos hhazard]
    exact jammed hbody
  next hhazard =>
    rw [if_neg hhazard]
    cases he : r.body.reread with
    | none =>
        rw [he] at hbody
        exact jammed hbody
    | some e =>
        rw [he] at hbody
        exact found hbody

def RulesOutcome (s : Text) : Option (List (Rule Unit)) → Prop
  | some rs => Takes (many (thenTrivia rule)) s (fun as => as.map Rule.bare = rs) []
  | none => ∃ m, m ≠ [] ∧ Takes (many (thenTrivia rule)) s (fun _ => True) m

theorem rulesOutcome (hrs : ∀ r ∈ rs, r.Shaped Name.Readable) :
    RulesOutcome (place (rs.map Rule.text)) (rereadRules rs) := by
  induction rs with
  | nil =>
      have hplace : place [] = [] := by rw [place, following, skipTrivia_nil]
      have hnone : Refuses (thenTrivia rule) [] := (refuses_rule_of_name rfl).bind
      rw [List.map_nil, hplace]
      apply hnone.many.imp
      rintro _ rfl
      rfl
  | cons r rs ih =>
      have hr := hrs r List.mem_cons_self
      have hrs' := fun x hx => hrs x (List.mem_cons_of_mem r hx)
      have hrule := ruleOutcome hr hrs'
      have hlength : (place (rs.map Rule.text)).length < (place ((r :: rs).map Rule.text)).length := by
        have hle := length_skipTrivia_le (following (rs.map Rule.text))
        rw [List.map_cons, place_ruleText hr.name, List.length_append, List.length_cons, place]
        omega
      rw [rereadRules]
      cases hr' : r.reread rs.head? with
      | none =>
          rw [hr'] at hrule
          refine ⟨_, ?_, hrule.many.imp fun _ _ => trivial⟩
          intro hnil
          rw [hnil] at hlength
          cases hlength
      | some r' =>
          rw [hr'] at hrule
          have hrest := ih hrs'
          cases hrs'' : rereadRules rs with
          | none =>
              rw [hrs''] at hrest
              obtain ⟨m, hm, hrest⟩ := hrest
              exact ⟨m, hm, (hrule.many hlength hrest).imp fun _ _ => trivial⟩
          | some rs' =>
              rw [hrs''] at hrest
              refine (hrule.many hlength hrest).imp ?_
              rintro _ ⟨a, as, rfl, rfl, rfl⟩
              rfl

end Rules

end PegGrammar
