import PegGrammar.Proofs.Rereading.Elements
import PegGrammar.Proofs.Shape

namespace PegGrammar

/-- What becomes of the elements found in a row: one alone is no sequence, unless it is a pick. -/
def Expr.collapse : List (Expr Unit) → Expr Unit
  | [e] => if e.isPick then .sequence [e] () else e
  | es => .sequence es ()

namespace Reader

open PegGrammar.Expr

variable {s m r F : Text} {e first : Expr Unit} {es others : List (Expr Unit)}

theorem length_skipTrivia_le (s : Text) : (skipTrivia s).length ≤ s.length := by
  rw [skipTrivia, List.length_drop]
  exact Nat.sub_le _ _

/-- From `s` on, the elements `es` are found, and none at `r`. -/
inductive Elements : Text → List (Expr Unit) → Text → Prop
  | stop {s : Text} (h : Refuses (labeled expression) (skipTrivia s)) : Elements s [] s
  | next {s m r : Text} {e : Expr Unit} {es : List (Expr Unit)}
      (h : Finds (labeled expression) (skipTrivia s) e m)
      (hlt : m.length < (skipTrivia s).length) (hs : Elements m es r) : Elements s (e :: es) r

theorem Elements.many (h : Elements s es r) :
    Takes (many (trivia >>= fun _ => labeled expression)) s (fun as => as.map bare = es) r := by
  induction h with
  | stop h =>
      refine (Refuses.many (takes_trivia.bind_refuses fun _ _ => h)).imp ?_
      rintro _ rfl
      rfl
  | next h hlt _ ih =>
      refine ((takes_trivia.bind fun _ _ => h).many
        (hlt.trans_le (length_skipTrivia_le _)) ih).imp ?_
      rintro _ ⟨a, as, rfl, rfl, rfl⟩
      rfl

theorem Elements.elements (h : Elements s es r) (hs : skipTrivia s = s) :
    Takes (elements expression) s (fun as => as.map bare = es) r := by
  cases h with
  | stop h =>
      rw [hs] at h
      apply h.optional.bind
      rintro _ rfl
      exact takes_pure rfl
  | next h hlt hrest =>
      rw [hs] at h
      apply h.optional.bind
      rintro _ ⟨a, rfl, rfl⟩
      refine hrest.many.bind ?_
      rintro as rfl
      exact takes_pure rfl

theorem bare_collapse (as : List Node) (range : ByteRange) :
    (match as with
      | [e] => if e.isPick then .sequence [e] range else e
      | es => .sequence es range : Node).bare = collapse (as.map bare) := by
  match as with
  | [] => rfl
  | [e] =>
      have hpick : e.bare.isPick = e.isPick := isPick_map _ e
      simp only [List.map_cons, List.map_nil, collapse, hpick]
      split <;> rfl
  | e :: e' :: es => exact congrArg (Expr.sequence · ()) (mapList_eq_map _ _)

theorem Elements.sequence (h : Elements s es r) (hs : skipTrivia s = s) :
    Finds (sequence expression) s (collapse es) r := by
  refine .located ((h.elements hs).bind ?_)
  rintro as rfl
  have hbare := bare_collapse as
  split
  next e => exact takes_pure fun range => hbare range
  next hne =>
    refine takes_pure fun range => ?_
    rw [← hbare range]
    split
    next e => exact (hne e rfl).elim
    next => rfl

theorem finds_action_plain (h : Finds (sequence expression) s e m)
    (hm : Next (· ≠ '{') (skipTrivia m)) : Finds (action expression) s e m := by
  have hnone : Refuses (do trivia; codeBlock) m :=
    takes_trivia.bind_refuses fun _ _ => refuses_codeBlock hm
  refine .located (h.bind fun body hbody => hnone.optional.bind ?_)
  rintro _ rfl
  exact takes_pure fun _ => hbody

theorem finds_action_code {code : String} (hcode : Balanced code.toList)
    (h : Finds (sequence expression) s e m)
    (hm : skipTrivia m = Printer.block code ++ F) :
    Finds (action expression) s (.action e code () ()) F := by
  have hblock : Takes (do trivia; codeBlock) m (·.value = code) F := by
    refine takes_trivia.bind fun _ _ => ?_
    rw [hm]
    exact takes_codeBlock hcode
  refine .located (h.bind fun body hbody => hblock.optional.bind ?_)
  rintro _ ⟨token, rfl, htoken⟩
  exact takes_pure fun _ => by rw [← hbody, ← htoken]; rfl

theorem finds_afterTrivia {p : Reader Node} (h : Finds p (skipTrivia s) e r)
    (he : e ≠ .sequence [] ()) : Finds (afterTrivia p) s e r := by
  intro st hst
  obtain ⟨a, st', hmatch, ha, hr⟩ := takes_trivia.bind (fun _ _ => h) st hst
  refine ⟨a, st', ?_, ha, hr⟩
  rw [afterTrivia, hmatch]
  split
  next heq =>
    cases heq
    exact (he ha.symm).elim
  next => rfl

theorem finds_afterTrivia_nil {p : Reader Node} (h : Finds p (skipTrivia s) (.sequence [] ()) r) :
    Finds (afterTrivia p) s (.sequence [] ()) s := by
  intro st hst
  obtain ⟨a, st', hmatch, ha, hr⟩ := takes_trivia.bind (fun _ _ => h) st hst
  obtain ⟨k, rfl⟩ : ∃ k, a = .sequence [] k := by
    cases a with
    | sequence es k =>
        cases es with
        | nil => exact ⟨k, rfl⟩
        | cons => cases ha
    | _ => cases ha
  refine ⟨.sequence [] ⟨st.offset, st.offset⟩, { st with failures := st'.failures }, ?_, rfl, hst⟩
  rw [afterTrivia, hmatch]

inductive Alternatives : Text → List (Expr Unit) → Text → Prop
  | stop {s : Text} (h : Next (· ≠ '/') (skipTrivia s)) : Alternatives s [] s
  | next {s t m r : Text} {e : Expr Unit} {es : List (Expr Unit)} (hslash : skipTrivia s = '/' :: t)
      (h : Finds (afterTrivia (action expression)) t e m) (hs : Alternatives m es r) : Alternatives s (e :: es) r

theorem Alternatives.many (h : Alternatives s es r) :
    Takes (many (alternative expression)) s (fun as => as.map bare = es) r := by
  induction h with
  | stop h =>
      refine (Refuses.many (takes_trivia.bind_refuses fun _ _ => (refuses_symbol h).bind)).imp ?_
      rintro _ rfl
      rfl
  | @next s t m r e es hslash h _ ih =>
      have hfinds : Finds (alternative expression) s e m := by
        refine takes_trivia.bind fun _ _ => ?_
        rw [hslash]
        exact takes_symbol.bind fun _ _ => h
      have hlength : m.length < s.length := by
        have hlt := h.length_le (agree_afterTrivia onward_everywhere
          (agree_action encloses_everywhere agree_expression))
        have hle := length_skipTrivia_le s
        rw [hslash, List.length_cons] at hle
        omega
      refine (hfinds.many hlength ih).imp ?_
      rintro _ ⟨a, as, rfl, rfl, rfl⟩
      rfl

theorem finds_choice (hfirst : Finds (action expression) s first m)
    (h : Alternatives m (e :: es) r) :
    Finds (choice expression) s (.choice (first :: e :: es) ()) r := by
  refine .located (hfirst.bind ?_)
  rintro a rfl
  refine h.many.bind ?_
  rintro as hs
  split
  next => cases hs
  next =>
    refine takes_pure fun range => ?_
    rw [← hs]
    exact congrArg (Expr.choice · ()) (mapList_eq_map _ _)

theorem finds_choice_single (hfirst : Finds (action expression) s first m)
    (h : Next (· ≠ '/') (skipTrivia m)) : Finds (choice expression) s first m := by
  refine .located (hfirst.bind fun a ha => (Alternatives.stop h).many.bind ?_)
  rintro as hs
  rw [List.map_eq_nil_iff] at hs
  subst hs
  exact takes_pure fun _ => ha

end Reader

end PegGrammar
