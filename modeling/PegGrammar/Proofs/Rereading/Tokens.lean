import PegGrammar.Printer
import PegGrammar.Proofs.Locations
import PegGrammar.Proofs.Rereading.Front
import PegGrammar.Proofs.Rereading.Literals
import PegGrammar.Proofs.Rereading.Takes

namespace PegGrammar

namespace Reader

/-- With the text `s` ahead, the reader finds a tree of the structure `e` and leaves `r`. -/
abbrev Finds (p : Reader Node) (s : Text) (e : Expr Unit) (r : Text) : Prop :=
  Takes p s (·.bare = e) r

def Next (P : Char → Prop) (s : Text) : Prop := ∀ c ∈ s.head?, P c

variable {s F : Text} {n : String}

theorem takes_name {k : Nat} (h : Name.name s = some ⟨n, k⟩) :
    Takes name s (·.value = n) (s.drop k) := takes_lexeme h

theorem refuses_name (h : Name.name s = none) : Refuses name s := refuses_lexeme h

theorem finds_ruleRef {k : Nat} (h : Name.name s = some ⟨n, k⟩)
    (hrule : startsRule (s.drop k) = false) : Finds ruleRef s (.ruleRef n ()) (s.drop k) := by
  refine .located ((takes_name h).bind fun token htoken => takes_ahead.bind ?_)
  rintro _ rfl
  rw [hrule]
  exact takes_pure fun range => by rw [htoken]; rfl

theorem refuses_ruleRef_of_startsRule {k : Nat} (h : Name.name s = some ⟨n, k⟩)
    (hrule : startsRule (s.drop k) = true) : Refuses ruleRef s := by
  refine .located ((takes_name h).bind_refuses fun token _ => takes_ahead.bind_refuses ?_)
  rintro _ rfl
  rw [hrule]
  exact refuses_nothing

theorem refuses_ruleRef (h : Name.name s = none) : Refuses ruleRef s :=
  .located (refuses_name h).bind

theorem takes_caseFlag (i : Bool) (hF : i = false → Next (· ≠ 'i') F) :
    Takes (accepts 'i') (Printer.caseFlag i ++ F) (· = i) F := by
  cases i with
  | true => exact takes_accepts
  | false => exact accepts_not (hF rfl)

theorem finds_literal (v : String) (i : Bool) (hF : i = false → Next (· ≠ 'i') F) :
    Finds literal (Printer.quote v.toList ++ (Printer.caseFlag i ++ F)) (.literal v i ()) F := by
  have hstring : Takes (lexeme "literal" StringLiteral.stringLiteral)
      (Printer.quote v.toList ++ (Printer.caseFlag i ++ F)) (·.value = v)
      (Printer.caseFlag i ++ F) := by
    have h : Takes (lexeme "literal" StringLiteral.stringLiteral) _ _ _ :=
      takes_lexeme (StringLiteral.stringLiteral_quote v.toList (Printer.caseFlag i ++ F))
    rwa [String.ofList_toList, List.drop_left] at h
  refine .located (hstring.bind fun token htoken => (takes_caseFlag i hF).bind ?_)
  rintro _ rfl
  exact takes_pure fun range => by rw [htoken]; rfl

theorem refuses_literal (h : Next (StringLiteral.isQuote · = false) s) : Refuses literal s := by
  refine .located (Refuses.bind (refuses_lexeme ?_))
  cases s with
  | nil => rfl
  | cons c s => simp [StringLiteral.stringLiteral, h c rfl]

theorem takes_classBody {l : Lexeme ClassBody} (h : ClassBody.classBody s = .ok (some l)) :
    Takes classBody s (· = l.value) (s.drop l.length) := by
  rintro st rfl
  exact ⟨l.value, st.advance l.length, by rw [classBody, h], rfl, rfl⟩

theorem finds_charClass {ps : List ClassPart} (hps : ∀ p ∈ ps, p.isOrdered = true)
    (inverted i : Bool) (hF : i = false → Next (· ≠ 'i') F) :
    Finds charClass (Printer.classBody ps inverted ++ (Printer.caseFlag i ++ F))
      (.charClass ps inverted i ()) F := by
  have hbody : Takes classBody (Printer.classBody ps inverted ++ (Printer.caseFlag i ++ F))
      (· = ⟨ps, inverted⟩) (Printer.caseFlag i ++ F) := by
    have h := takes_classBody (ClassBody.classBody_classBody hps inverted (Printer.caseFlag i ++ F))
    rwa [List.drop_left] at h
  refine .located (hbody.bind ?_)
  rintro _ rfl
  refine (takes_caseFlag i hF).bind ?_
  rintro _ rfl
  exact takes_pure fun range => rfl

theorem refuses_charClass (h : Next (· ≠ '[') s) : Refuses charClass s := by
  have hnone : ClassBody.classBody s = .ok none := by
    rw [ClassBody.classBody.eq_def]
    split
    next => exact (h '[' rfl rfl).elim
    next => exact (h '[' rfl rfl).elim
    next => rfl
  refine .located (Refuses.bind ?_)
  rintro st rfl
  exact ⟨_, by rw [classBody, hnone]; rfl⟩

theorem finds_any : Finds any ('.' :: F) (.any ()) F :=
  .located (takes_symbol.bind fun _ _ => takes_pure fun _ => rfl)

theorem refuses_any (h : Next (· ≠ '.') s) : Refuses any s :=
  .located (Refuses.bind (refuses_symbol h))

theorem block_append (code : String) (F : Text) :
    Printer.block code ++ F = '{' :: (code.toList ++ '}' :: F) := by
  simp [Printer.block]

theorem takes_codeBlock {code : String} (h : Balanced code.toList) :
    Takes codeBlock (Printer.block code ++ F) (·.value = code) F := by
  rw [block_append]
  refine takes_ahead.bind ?_
  rintro _ rfl
  rw [CodeBlock.codeBlock_block h]
  refine (takes_advance 1).bind fun _ _ => ?_
  have hcode : Takes (located do
      advance code.toList.length
      return (⟨String.ofList code.toList, ·⟩ : ByteRange → Token String))
      (code.toList ++ '}' :: F) (·.value = code) ('}' :: F) := by
    refine .located ?_
    have h := takes_advance (s := code.toList ++ '}' :: F) code.toList.length
    rw [List.drop_left] at h
    exact h.bind fun _ _ => takes_pure fun _ => String.ofList_toList
  exact hcode.bind fun token htoken => (takes_advance 1).bind fun _ _ => takes_pure htoken

theorem refuses_codeBlock (h : Next (· ≠ '{') s) : Refuses codeBlock s := by
  have hnone : CodeBlock.codeBlock s = none := by
    cases s with
    | nil => rfl
    | cons c s => simp [CodeBlock.codeBlock, h c rfl]
  refine takes_ahead.bind_refuses ?_
  rintro _ rfl
  rw [hnone]
  exact refuses_fail _

end Reader

end PegGrammar
