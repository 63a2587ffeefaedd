import PegGrammar.Proofs.ConcreteSyntax
import PegGrammar.Proofs.Rereading.Tokens

namespace PegGrammar

/-- Parentheses leave a node of their own only around labels. -/
def Expr.regroup (e : Expr Unit) : Expr Unit := if e.hasLabels then .group e () else e

theorem PrefixOp.symbol_injective (a b : PrefixOp) (h : a.symbol = b.symbol) : a = b := by
  cases a <;> cases b <;> simp_all [symbol]

theorem SuffixOp.symbol_injective (a b : SuffixOp) (h : a.symbol = b.symbol) : a = b := by
  cases a <;> cases b <;> simp_all [symbol]

theorem Polarity.symbol_injective (a b : Polarity) (h : a.symbol = b.symbol) : a = b := by
  cases a <;> cases b <;> simp_all [symbol]

namespace Reader

open PegGrammar.Expr

variable {inner : Reader Node} {s m F : Text} {c : Char} {e b : Expr Unit} {n : String}

theorem finds_predicate (p : Polarity) {code : String} (h : Balanced code.toList) :
    Finds predicate (p.symbol :: (Printer.block code ++ F)) (.predicate p code () ()) F := by
  have hop : Takes (operator Polarity.symbol Polarity.all)
      (p.symbol :: (Printer.block code ++ F)) (· = p) (Printer.block code ++ F) :=
    takes_operator Polarity.symbol_injective (by cases p <;> decide)
  have hskip : skipTrivia (Printer.block code ++ F) = Printer.block code ++ F :=
    skipTrivia_solid (by decide) _
  refine .located (hop.bind ?_)
  rintro _ rfl
  refine takes_trivia.bind fun _ _ => ?_
  rw [hskip]
  exact (takes_codeBlock h).bind fun token htoken => takes_pure fun range => by rw [htoken]; rfl

theorem refuses_predicate (h : Next (fun c => c ≠ '&' ∧ c ≠ '!') s) : Refuses predicate s := by
  refine .located (Refuses.bind (refuses_operator ?_))
  intro p _ d hd
  cases p with
  | positive => exact (h d hd).1
  | negative => exact (h d hd).2

theorem refuses_predicate_of_mark (p : Polarity) (h : Next (· ≠ '{') (skipTrivia s)) :
    Refuses predicate (p.symbol :: s) := by
  have hop : Takes (operator Polarity.symbol Polarity.all) (p.symbol :: s) (· = p) s :=
    takes_operator Polarity.symbol_injective (by cases p <;> decide)
  refine .located (hop.bind_refuses fun _ _ => takes_trivia.bind_refuses fun _ _ => ?_)
  exact (refuses_codeBlock h).bind

theorem finds_group (h : Finds (afterTrivia inner) s b m) (hclose : skipTrivia m = ')' :: F) :
    Finds (group inner) ('(' :: s) b.regroup F := by
  refine .located (takes_symbol.bind fun _ _ => h.bind fun body hbody => ?_)
  refine takes_trivia.bind fun _ _ => ?_
  rw [hclose]
  refine takes_symbol.bind fun _ _ => takes_pure fun range => ?_
  have hlabels : b.hasLabels = body.hasLabels := by rw [← hbody, bare, hasLabels_map]
  rw [regroup, hlabels]
  split
  · rw [← hbody]
    rfl
  · exact hbody

theorem refuses_group (h : Next (· ≠ '(') s) : Refuses (group inner) s :=
  .located (Refuses.bind (refuses_symbol h))

theorem refuses_group_of_unclosed {V : Node → Prop} (h : Takes (afterTrivia inner) s V m)
    (hclose : Next (· ≠ ')') (skipTrivia m)) : Refuses (group inner) ('(' :: s) := by
  refine .located (takes_symbol.bind_refuses fun _ _ => h.bind_refuses fun _ _ => ?_)
  exact takes_trivia.bind_refuses fun _ _ => (refuses_symbol hclose).bind

def IsNameHead (c : Char) : Prop := isNameStart c = true ∨ c = '\\'

theorem next_of_name {l : Lexeme String} (h : Name.name s = some l) : Next IsNameHead s := by
  rintro c hc
  cases s with
  | nil => cases hc
  | cons d s =>
      cases hc
      by_contra hhead
      rw [IsNameHead, not_or, Bool.not_eq_true] at hhead
      rw [Name.name_eq_none hhead.1 hhead.2] at h
      cases h

theorem IsNameHead.ne (h : IsNameHead c) {d : Char} (hd : isNameStart d = false) (hd' : d ≠ '\\') :
    c ≠ d := by
  rintro rfl
  rcases h with h | h
  · rw [hd] at h
    cases h
  · exact hd' h

theorem Next.imp {P Q : Char → Prop} (h : Next P s) (hPQ : ∀ c, P c → Q c) : Next Q s :=
  fun c hc => hPQ c (h c hc)

theorem refuses_beforeRuleRef (h : Next IsNameHead s) :
    Refuses literal s ∧ Refuses charClass s ∧ Refuses any s := by
  refine ⟨refuses_literal (h.imp fun c hc => ?_), refuses_charClass (h.imp fun c hc => ?_),
    refuses_any (h.imp fun c hc => ?_)⟩
  · have hdouble := hc.ne (d := '"') (by decide) (by decide)
    have hsingle := hc.ne (d := '\x27') (by decide) (by decide)
    simp [StringLiteral.isQuote, hdouble, hsingle]
  · exact hc.ne (by decide) (by decide)
  · exact hc.ne (by decide) (by decide)

theorem finds_primary_ruleRef {k : Nat} (h : Name.name s = some ⟨n, k⟩)
    (hrule : startsRule (s.drop k) = false) :
    Finds (primary inner) s (.ruleRef n ()) (s.drop k) := by
  obtain ⟨hliteral, hclass, hany⟩ := refuses_beforeRuleRef (next_of_name h)
  exact .orElse_right hliteral (.orElse_right hclass (.orElse_right hany
    (.orElse (finds_ruleRef h hrule))))

/-- A name that is being defined is no reference. -/
theorem refuses_primary_header {k : Nat} (h : Name.name s = some ⟨n, k⟩)
    (hrule : startsRule (s.drop k) = true) : Refuses (primary inner) s := by
  have hhead := next_of_name h
  obtain ⟨hliteral, hclass, hany⟩ := refuses_beforeRuleRef hhead
  refine .orElse hliteral (.orElse hclass (.orElse hany
    (.orElse (refuses_ruleRef_of_startsRule h hrule) (.orElse ?_ ?_))))
  · exact refuses_predicate (hhead.imp fun c hc =>
      ⟨hc.ne (by decide) (by decide), hc.ne (by decide) (by decide)⟩)
  · exact refuses_group (hhead.imp fun c hc => hc.ne (by decide) (by decide))

theorem finds_primary_literal (v : String) (i : Bool) (hF : i = false → Next (· ≠ 'i') F) :
    Finds (primary inner) (Printer.quote v.toList ++ (Printer.caseFlag i ++ F))
      (.literal v i ()) F :=
  .orElse (finds_literal v i hF)

theorem finds_primary_charClass {ps : List ClassPart} (hps : ∀ p ∈ ps, p.isOrdered = true)
    (inverted i : Bool) (hF : i = false → Next (· ≠ 'i') F) :
    Finds (primary inner) (Printer.classBody ps inverted ++ (Printer.caseFlag i ++ F))
      (.charClass ps inverted i ()) F := by
  refine .orElse_right (refuses_literal ?_) (.orElse (finds_charClass hps inverted i hF))
  simp [Next, Printer.classBody, StringLiteral.isQuote]

theorem finds_primary_any : Finds (primary inner) ('.' :: F) (.any ()) F := by
  refine .orElse_right (refuses_literal ?_) (.orElse_right (refuses_charClass ?_)
    (.orElse finds_any))
  all_goals simp [Next, StringLiteral.isQuote]

theorem refuses_beforePredicate (hc : c = '&' ∨ c = '!' ∨ c = '(') :
    Refuses literal (c :: s) ∧ Refuses charClass (c :: s) ∧ Refuses any (c :: s) ∧
      Refuses ruleRef (c :: s) := by
  refine ⟨refuses_literal ?_, refuses_charClass ?_, refuses_any ?_,
    refuses_ruleRef (Name.name_eq_none ?_ ?_)⟩
  all_goals rcases hc with rfl | rfl | rfl
  all_goals first | decide | simp [Next, StringLiteral.isQuote]

theorem finds_primary_predicate (p : Polarity) {code : String} (h : Balanced code.toList) :
    Finds (primary inner) (p.symbol :: (Printer.block code ++ F)) (.predicate p code () ()) F := by
  obtain ⟨hliteral, hclass, hany, href⟩ :=
    refuses_beforePredicate (c := p.symbol) (s := Printer.block code ++ F)
      (by cases p <;> decide)
  exact .orElse_right hliteral (.orElse_right hclass (.orElse_right hany (.orElse_right href
    (.orElse (finds_predicate p h)))))

theorem finds_primary_group (h : Finds (group inner) ('(' :: s) e F) :
    Finds (primary inner) ('(' :: s) e F := by
  obtain ⟨hliteral, hclass, hany, href⟩ := refuses_beforePredicate (c := '(') (s := s) (by decide)
  refine .orElse_right hliteral (.orElse_right hclass (.orElse_right hany (.orElse_right href
    (.orElse_right (refuses_predicate ?_) h))))
  simp [Next]

theorem refuses_primary_group (h : Refuses (group inner) ('(' :: s)) :
    Refuses (primary inner) ('(' :: s) := by
  obtain ⟨hliteral, hclass, hany, href⟩ := refuses_beforePredicate (c := '(') (s := s) (by decide)
  refine .orElse hliteral (.orElse hclass (.orElse hany (.orElse href
    (.orElse (refuses_predicate ?_) h))))
  simp [Next]

theorem refuses_primary_mark (p : Polarity) (h : Next (· ≠ '{') (skipTrivia s)) :
    Refuses (primary inner) (p.symbol :: s) := by
  obtain ⟨hliteral, hclass, hany, href⟩ :=
    refuses_beforePredicate (c := p.symbol) (s := s) (by cases p <;> decide)
  refine .orElse hliteral (.orElse hclass (.orElse hany (.orElse href
    (.orElse (refuses_predicate_of_mark p h) (refuses_group ?_)))))
  cases p <;> simp [Next, Polarity.symbol]

theorem ne_of_shut (h : opens c = false ∨ c = '@') {d : Char} (hd : opens d = true) (hat : d ≠ '@') :
    c ≠ d := by
  rintro rfl
  rcases h with h | h
  · rw [hd] at h
    cases h
  · exact hat h

theorem name_of_shut (h : Next (fun c => opens c = false ∨ c = '@') s) : Name.name s = none := by
  cases s with
  | nil => rfl
  | cons c s =>
      refine Name.name_eq_none ?_ (ne_of_shut (h c rfl) (by decide) (by decide))
      rcases h c rfl with h | rfl
      · rw [opens, Bool.or_eq_false_iff] at h
        exact h.1
      · decide

theorem refuses_primary (h : Next (fun c => opens c = false ∨ c = '@') s) :
    Refuses (primary inner) s := by
  refine .orElse (refuses_literal (h.imp fun c hc => ?_)) (.orElse (refuses_charClass
    (h.imp fun c hc => ?_)) (.orElse (refuses_any (h.imp fun c hc => ?_)) (.orElse
    (refuses_ruleRef (name_of_shut h)) (.orElse (refuses_predicate (h.imp fun c hc => ?_))
    (refuses_group (h.imp fun c hc => ?_))))))
  · have hdouble := ne_of_shut hc (d := '"') (by decide) (by decide)
    have hsingle := ne_of_shut hc (d := '\x27') (by decide) (by decide)
    simp [StringLiteral.isQuote, hdouble, hsingle]
  · exact ne_of_shut hc (by decide) (by decide)
  · exact ne_of_shut hc (by decide) (by decide)
  · exact ⟨ne_of_shut hc (by decide) (by decide), ne_of_shut hc (by decide) (by decide)⟩
  · exact ne_of_shut hc (by decide) (by decide)

end Reader

end PegGrammar
