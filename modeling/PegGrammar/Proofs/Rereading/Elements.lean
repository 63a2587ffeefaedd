import PegGrammar.Proofs.Rereading.Primaries

namespace PegGrammar

namespace Reader

open PegGrammar.Expr

variable {inner : Reader Node} {s m F : Text} {e b : Expr Unit} {n : String}

section Operators

def IsNoSuffix (c : Char) : Prop := c ≠ '?' ∧ c ≠ '*' ∧ c ≠ '+'

instance : DecidablePred IsNoSuffix := fun _ => inferInstanceAs (Decidable (_ ∧ _))

theorem refuses_suffixOp (hF : Next IsNoSuffix (skipTrivia F)) :
    Refuses (do trivia; operator SuffixOp.symbol SuffixOp.all) F := by
  refine takes_trivia.bind_refuses fun _ _ => refuses_operator fun op _ d hd => ?_
  obtain ⟨hoptional, hzero, hone⟩ := hF d hd
  cases op with
  | optional => exact hoptional
  | zeroOrMore => exact hzero
  | oneOrMore => exact hone

theorem finds_suffixed (h : Finds (primary inner) s b F) (hF : Next IsNoSuffix (skipTrivia F)) :
    Finds (suffixed inner) s b F := by
  refine .located (h.bind fun body hbody => (refuses_suffixOp hF).optional.bind ?_)
  rintro _ rfl
  exact takes_pure fun _ => hbody

theorem solid_suffix (op : SuffixOp) : Solid op.symbol := by
  cases op <;> decide

theorem finds_suffixed_op (op : SuffixOp) (h : Finds (primary inner) s b (op.symbol :: F)) :
    Finds (suffixed inner) s (.suffixed op b ()) F := by
  have hop : Takes (do trivia; operator SuffixOp.symbol SuffixOp.all) (op.symbol :: F) (· = op) F := by
    refine takes_trivia.bind fun _ _ => ?_
    rw [skipTrivia_solid (solid_suffix op)]
    exact takes_operator SuffixOp.symbol_injective (by cases op <;> decide)
  refine .located (h.bind fun body hbody => hop.optional.bind ?_)
  rintro _ ⟨_, rfl, rfl⟩
  exact takes_pure fun _ => by rw [← hbody]; rfl

theorem refuses_suffixed (h : Refuses (primary inner) s) : Refuses (suffixed inner) s :=
  .located h.bind

theorem takes_prefixOp (op : PrefixOp) :
    Takes (operator PrefixOp.symbol PrefixOp.all) (op.symbol :: s) (· = op) s :=
  takes_operator PrefixOp.symbol_injective (by cases op <;> decide)

theorem finds_prefixed_op (op : PrefixOp) (h : Finds (suffixed inner) (skipTrivia s) b F) :
    Finds (prefixed inner) (op.symbol :: s) (.prefixed op b ()) F := by
  refine .orElse (.located ((takes_prefixOp op).bind ?_))
  rintro _ rfl
  refine takes_trivia.bind fun _ _ => h.bind fun body hbody => takes_pure fun _ => ?_
  rw [← hbody]
  rfl

theorem refuses_operated (op : PrefixOp) (h : Refuses (suffixed inner) (skipTrivia s)) :
    Refuses (operated inner) (op.symbol :: s) := by
  refine .located ((takes_prefixOp op).bind_refuses ?_)
  rintro _ rfl
  exact takes_trivia.bind_refuses fun _ _ => h.bind

theorem finds_prefixed_of_suffixed (op : PrefixOp) (h : Refuses (suffixed inner) (skipTrivia s))
    (hs : Finds (suffixed inner) (op.symbol :: s) e F) :
    Finds (prefixed inner) (op.symbol :: s) e F :=
  .orElse_right (refuses_operated op h) hs

theorem refuses_prefixed_op (op : PrefixOp) (h : Refuses (suffixed inner) (skipTrivia s))
    (hs : Refuses (suffixed inner) (op.symbol :: s)) :
    Refuses (prefixed inner) (op.symbol :: s) :=
  .orElse (refuses_operated op h) hs

def IsNoPrefix (c : Char) : Prop := c ≠ '$' ∧ c ≠ '&' ∧ c ≠ '!'

instance : DecidablePred IsNoPrefix := fun _ => inferInstanceAs (Decidable (_ ∧ _))

theorem refuses_prefixOp (h : Next IsNoPrefix s) :
    Refuses (operator PrefixOp.symbol PrefixOp.all) s := by
  refine refuses_operator fun op _ d hd => ?_
  obtain ⟨htext, hand, hnot⟩ := h d hd
  cases op with
  | text => exact htext
  | and => exact hand
  | not => exact hnot

theorem finds_prefixed (h : Next IsNoPrefix s) (hs : Finds (suffixed inner) s e F) :
    Finds (prefixed inner) s e F :=
  .orElse_right (.located (refuses_prefixOp h).bind) hs

theorem refuses_prefixed (h : Next IsNoPrefix s) (hs : Refuses (suffixed inner) s) :
    Refuses (prefixed inner) s :=
  .orElse (.located (refuses_prefixOp h).bind) hs

end Operators

section Labels

theorem takes_label {k : Nat} (h : Name.name s = some ⟨n, k⟩) (hcolon : s.drop k = ':' :: F) :
    Takes label s (·.value = n) F := by
  refine (takes_name h).bind fun token htoken => takes_trivia.bind fun _ _ => ?_
  rw [hcolon, skipTrivia_solid (by decide)]
  exact takes_symbol.bind fun _ _ => takes_pure htoken

theorem refuses_label {k : Nat} (h : Name.name s = some ⟨n, k⟩)
    (hcolon : Next (· ≠ ':') (skipTrivia (s.drop k))) : Refuses label s := by
  refine (takes_name h).bind_refuses fun token _ => takes_trivia.bind_refuses fun _ _ => ?_
  exact (refuses_symbol hcolon).bind

theorem refuses_label_of_name (h : Name.name s = none) : Refuses label s := (refuses_name h).bind

theorem refuses_pick (h : Next (· ≠ '@') s) : Refuses (pick inner) s :=
  .located (Refuses.bind (.located (Refuses.bind (refuses_symbol h))))

theorem takes_mark : Takes (located do
    symbol '@'
    return id) ('@' :: s) (fun _ => True) s :=
  .located (takes_symbol.bind fun _ _ => takes_pure fun _ => trivial)

theorem finds_pick (hskip : skipTrivia s = s) (hlabel : Refuses label s)
    (h : Finds (prefixed inner) s b F) :
    Finds (labeled inner) ('@' :: s) (.labeled none () true b ()) F := by
  refine .orElse (.located (takes_mark.bind fun _ _ => takes_trivia.bind fun _ _ => ?_))
  rw [hskip]
  apply hlabel.optional.bind
  rintro _ rfl
  refine takes_trivia.bind fun _ _ => ?_
  rw [hskip]
  exact h.bind fun body hbody => takes_pure fun _ => by rw [← hbody]; rfl

theorem finds_pick_labeled (hskip : skipTrivia s = s) (hlabel : Takes label s (·.value = n) m)
    (hskip' : skipTrivia m = m) (h : Finds (prefixed inner) m b F) :
    Finds (labeled inner) ('@' :: s) (.labeled (some n) () true b ()) F := by
  refine .orElse (.located (takes_mark.bind fun _ _ => takes_trivia.bind fun _ _ => ?_))
  rw [hskip]
  apply hlabel.optional.bind
  rintro _ ⟨token, rfl, htoken⟩
  refine takes_trivia.bind fun _ _ => ?_
  rw [hskip']
  exact h.bind fun body hbody => takes_pure fun _ => by rw [← hbody, ← htoken]; rfl

theorem finds_labeled (hat : Next (· ≠ '@') s) (hlabel : Takes label s (·.value = n) m)
    (hskip : skipTrivia m = m) (h : Finds (prefixed inner) m b F) :
    Finds (labeled inner) s (.labeled (some n) () false b ()) F := by
  refine .orElse_right (refuses_pick hat) (.orElse (.located ?_))
  refine hlabel.bind fun token htoken => takes_trivia.bind fun _ _ => ?_
  rw [hskip]
  exact h.bind fun body hbody => takes_pure fun _ => by rw [← hbody, ← htoken]; rfl

theorem finds_unlabeled (hat : Next (· ≠ '@') s) (hlabel : Refuses label s)
    (h : Finds (prefixed inner) s e F) : Finds (labeled inner) s e F :=
  .orElse_right (refuses_pick hat) (.orElse_right (.located hlabel.bind) h)

theorem refuses_labeled (hat : Next (· ≠ '@') s) (hlabel : Refuses label s)
    (h : Refuses (prefixed inner) s) : Refuses (labeled inner) s :=
  .orElse (refuses_pick hat) (.orElse (.located hlabel.bind) h)

end Labels

end Reader

end PegGrammar
