import PegGrammar.Proofs.Rereading.Statements

namespace PegGrammar

open Reader PegGrammar.Expr

variable {σ : Type} {s t m r F X : Text} {n : String} {d : Option (String × Bool)} {e : Expr Unit}

def Rule.display (r : Rule σ) : Option (String × Bool) :=
  match r.expression with
  | .named d v _ _ => some (d, v)
  | _ => none

/-- The name and the display name of the rule can be taken for an operator and a literal. -/
def Rule.isMistakable (r : Rule σ) : Bool := r.name = "$" && r.display.isSome

def Rule.ofParts (n : String) (d : Option (String × Bool)) (e : Expr Unit) : Rule Unit :=
  ⟨n, (), match d with | some (d, v) => .named d v e () | none => e, ()⟩

def displayText : Option (String × Bool) → Text
  | some (d, v) => ' ' :: (Printer.quote d.toList ++ if v then ['~'] else [])
  | none => []

/-- The text of a rule after its name, its expression being printed as `X`. -/
def afterName (d : Option (String × Bool)) (X : Text) : Text :=
  displayText d ++ ' ' :: '=' :: ' ' :: X

theorem Rule.text_eq (r : Rule σ) :
    r.text = Printer.nameText r.name.toList ++ afterName r.display r.body.text := by
  obtain ⟨n, j, e, k⟩ := r
  cases e with
  | named d v b k => simp [Rule.text, header, display, body, afterName, displayText]
  | _ => exact List.append_assoc _ _ _

theorem Rule.ofParts_eq (r : Rule Unit) : Rule.ofParts r.name r.display r.body = r := by
  obtain ⟨n, j, e, k⟩ := r
  cases e <;> rfl

theorem skipTrivia_equals (s : Text) : skipTrivia (' ' :: '=' :: s) = '=' :: s := by
  rw [skipTrivia_space, skipTrivia_solid (by decide)]

theorem afterName_some (d : String) (v : Bool) (X : Text) : afterName (some (d, v)) X =
    ' ' :: (Printer.quote d.toList ++ ((if v then ['~'] else []) ++ ' ' :: '=' :: ' ' :: X)) := by
  simp [afterName, displayText]

theorem skipTrivia_afterName_some (d : String) (v : Bool) (X : Text) :
    skipTrivia (afterName (some (d, v)) X) =
      Printer.quote d.toList ++ ((if v then ['~'] else []) ++ ' ' :: '=' :: ' ' :: X) := by
  rw [afterName_some, skipTrivia_space]
  exact skipTrivia_solid (by decide) _

theorem nameEnds_afterName (d : Option (String × Bool)) (X : Text) :
    Name.Ends (afterName d X) := by
  cases d with
  | none => exact nameEnds_of_head (by decide) (by decide)
  | some d =>
      rw [afterName_some]
      exact nameEnds_of_head (by decide) (by decide)

theorem next_afterName (d : Option (String × Bool)) (X : Text) :
    Next (fun c => c = '=' ∨ c = '"') (skipTrivia (afterName d X)) := by
  cases d with
  | none =>
      rw [afterName, displayText, List.nil_append, skipTrivia_equals]
      exact next_cons (.inl rfl)
  | some d =>
      rw [skipTrivia_afterName_some]
      exact next_cons (c := '"') (.inr rfl)

theorem startsRule_afterName (d : Option (String × Bool)) (X : Text) :
    startsRule (afterName d X) = true := by
  cases d with
  | none =>
      rw [afterName, displayText, List.nil_append, startsRule, skipTrivia_equals]
      rfl
  | some d =>
      obtain ⟨d, v⟩ := d
      rw [startsRule, skipTrivia_afterName_some, StringLiteral.stringLiteral_quote]
      simp only [List.drop_left]
      cases v with
      | true =>
          have htilde : skipTrivia ('~' :: ' ' :: '=' :: ' ' :: X) = '~' :: ' ' :: '=' :: ' ' :: X :=
            skipTrivia_solid (by decide) _
          simp [htilde, skipTrivia_equals]
      | false => simp [skipTrivia_equals]

theorem takes_succeeds {p : Reader Unit} (h : Takes p s (fun _ => True) r) :
    Takes (succeeds p) s (· = true) r :=
  .orElse (h.bind fun _ _ => takes_pure rfl)

theorem succeeds_not {p : Reader Unit} (h : Refuses p s) : Takes (succeeds p) s (· = false) s :=
  .orElse_right h.bind (takes_pure rfl)

theorem takes_displayName (d : String) (v : Bool) (X : Text) :
    Takes displayName (Printer.quote d.toList ++ ((if v then ['~'] else []) ++ ' ' :: '=' :: X))
      (· = (d, v)) ('=' :: X) := by
  have hstring : Takes (lexeme "string" StringLiteral.stringLiteral) _ _ _ :=
    takes_lexeme (StringLiteral.stringLiteral_quote d.toList
      ((if v then ['~'] else []) ++ ' ' :: '=' :: X))
  rw [String.ofList_toList, List.drop_left] at hstring
  refine hstring.bind fun token htoken => takes_trivia.bind fun _ _ => ?_
  have hverbose : Takes (succeeds do
      symbol '~'
      trivia) (skipTrivia ((if v then ['~'] else []) ++ ' ' :: '=' :: X)) (· = v) ('=' :: X) := by
    cases v with
    | true =>
        have htilde : skipTrivia ('~' :: ' ' :: '=' :: X) = '~' :: ' ' :: '=' :: X :=
          skipTrivia_solid (by decide) _
        have h := (takes_symbol (c := '~') (s := ' ' :: '=' :: X)).bind fun _ _ => takes_trivia
        rw [skipTrivia_equals] at h
        change Takes _ (skipTrivia ('~' :: ' ' :: '=' :: X)) _ _
        rw [htilde]
        exact takes_succeeds h
    | false =>
        change Takes _ (skipTrivia (' ' :: '=' :: X)) _ _
        rw [skipTrivia_equals]
        exact succeeds_not (refuses_symbol (next_cons (by decide))).bind
  apply hverbose.bind
  rintro _ rfl
  exact takes_pure (by rw [htoken])

theorem takes_header (hn : Name.Readable n) (d : Option (String × Bool)) (X : Text) :
    Takes header (Printer.nameText n.toList ++ afterName d X) (fun h => h.1.value = n ∧ h.2 = d)
      (' ' :: X) := by
  have hname := takes_name (Name.name_nameText hn (nameEnds_afterName d X))
  rw [List.drop_left] at hname
  refine hname.bind fun token htoken => takes_trivia.bind fun _ _ => ?_
  cases d with
  | none =>
      rw [afterName, displayText, List.nil_append, skipTrivia_equals]
      have hnone : Refuses displayName ('=' :: ' ' :: X) := (refuses_lexeme rfl).bind
      apply hnone.optional.bind
      rintro _ rfl
      exact takes_symbol.bind fun _ _ => takes_pure ⟨htoken, rfl⟩
  | some d =>
      obtain ⟨d, v⟩ := d
      rw [skipTrivia_afterName_some]
      refine (takes_displayName d v (' ' :: X)).optional.bind ?_
      rintro _ ⟨_, rfl, rfl⟩
      exact takes_symbol.bind fun _ _ => takes_pure ⟨htoken, rfl⟩

theorem takes_rule (hn : Name.Readable n) (h : Finds (afterTrivia expression) (' ' :: X) e m)
    (hend : Takes statementEnd m (fun _ => True) t) :
    Takes rule (Printer.nameText n.toList ++ afterName d X) (·.bare = .ofParts n d e) t := by
  refine .located ((takes_header hn d X).bind ?_)
  rintro ⟨token, d⟩ ⟨rfl, rfl⟩
  refine h.bind fun body hbody => hend.bind fun _ _ => ?_
  cases d with
  | none =>
      refine takes_pure fun range => ?_
      rw [← hbody]
      rfl
  | some d =>
      refine takes_pure fun range => ?_
      rw [← hbody]
      rfl

theorem refuses_rule {V : Node → Prop} (hn : Name.Readable n)
    (h : Takes (afterTrivia expression) (' ' :: X) V m) (hend : Refuses statementEnd m) :
    Refuses rule (Printer.nameText n.toList ++ afterName d X) := by
  refine .located ((takes_header hn d X).bind_refuses ?_)
  rintro ⟨token, _⟩ -
  exact h.bind_refuses fun body _ => hend.bind

theorem refuses_rule_of_name (h : Name.name s = none) : Refuses rule s :=
  .located (Refuses.bind (refuses_name h).bind)

end PegGrammar
