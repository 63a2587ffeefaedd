import PegGrammar.Proofs.Locations
import PegGrammar.Proofs.Spelling
import PegGrammar.Reader.Expression

namespace PegGrammar

variable {σ τ : Type}

/-- A slash between two alternatives, in front of `rest`. No comment begins at it. -/
inductive SlashText (rest : Text) : Text → Prop
  | mk {l r : Text} (hl : TriviaText ('/' :: (r ++ rest)) l) (hslash : NoTrivia ('/' :: (r ++ rest)))
      (hr : TriviaText rest r) : SlashText rest (l ++ '/' :: r)

/-- A label and its colon, in front of `rest`. -/
inductive LabelText (rest : Text) : String → Text → Prop
  | mk {n : String} {t l : Text} (h : NameSpelling t n) (hl : TriviaText (':' :: rest) l) :
      LabelText rest n (t ++ (l ++ [':']))

inductive BlockSpelling : Text → String → Prop
  | mk {code : String} (h : Balanced code.toList) :
      BlockSpelling ('{' :: (code.toList ++ ['}'])) code

def flagText (ignoreCase : Bool) : Text := if ignoreCase then ['i'] else []

namespace Expr

mutual

/-- `Written rest e t` says that `t` is one way to write the expression `e` in front of `rest`. Locations
play no part in it. -/
inductive Written : Text → Expr σ → Text → Prop
  | choice {rest : Text} {es : List (Expr σ)} {k : σ} {t : Text} (h : Row SlashText rest es t) :
      Written rest (.choice es k) t
  | action {rest : Text} {e : Expr σ} {c : String} {j k : σ} {t l b : Text}
      (h : Wrapped (l ++ (b ++ rest)) e t) (hl : TriviaText (b ++ rest) l) (hb : BlockSpelling b c) :
      Written rest (.action e c j k) (t ++ (l ++ b))
  | sequence {rest : Text} {es : List (Expr σ)} {k : σ} {t : Text} (h : Row TriviaText rest es t) :
      Written rest (.sequence es k) t
  | labeled {rest : Text} {n : String} {j k : σ} {e : Expr σ} {t m l : Text}
      (hm : LabelText (l ++ (t ++ rest)) n m) (hl : TriviaText (t ++ rest) l)
      (h : Wrapped rest e t) : Written rest (.labeled (some n) j false e k) (m ++ (l ++ t))
  | pick {rest : Text} {j k : σ} {e : Expr σ} {t l : Text} (hl : TriviaText (t ++ rest) l)
      (h : Wrapped rest e t) : Written rest (.labeled none j true e k) ('@' :: (l ++ t))
  | pickLabeled {rest : Text} {n : String} {j k : σ} {e : Expr σ} {t l m r : Text}
      (hl : TriviaText (m ++ (r ++ (t ++ rest))) l) (hm : LabelText (r ++ (t ++ rest)) n m)
      (hr : TriviaText (t ++ rest) r) (h : Wrapped rest e t) :
      Written rest (.labeled (some n) j true e k) ('@' :: (l ++ (m ++ (r ++ t))))
  | prefixed {rest : Text} {op : PrefixOp} {e : Expr σ} {k : σ} {t l : Text}
      (hl : TriviaText (t ++ rest) l) (h : Wrapped rest e t) :
      Written rest (.prefixed op e k) (op.symbol :: (l ++ t))
  | suffixed {rest : Text} {op : SuffixOp} {e : Expr σ} {k : σ} {t l : Text}
      (h : Wrapped (l ++ op.symbol :: rest) e t) (hl : TriviaText (op.symbol :: rest) l) :
      Written rest (.suffixed op e k) (t ++ (l ++ [op.symbol]))
  | group {rest : Text} {e : Expr σ} {k : σ} {t l r : Text}
      (hl : TriviaText (t ++ (r ++ ')' :: rest)) l) (h : Written (r ++ ')' :: rest) e t)
      (hr : TriviaText (')' :: rest) r) :
      Written rest (.group e k) ('(' :: (l ++ (t ++ (r ++ [')']))))
  | predicate {rest : Text} {p : Polarity} {c : String} {j k : σ} {l b : Text}
      (hl : TriviaText (b ++ rest) l) (hb : BlockSpelling b c) :
      Written rest (.predicate p c j k) (p.symbol :: (l ++ b))
  | ruleRef {rest : Text} {n : String} {k : σ} {t : Text} (h : NameSpelling t n) :
      Written rest (.ruleRef n k) t
  | literal {rest : Text} {v : String} {i : Bool} {k : σ} {t : Text} (h : StringSpelling t v) :
      Written rest (.literal v i k) (t ++ flagText i)
  | charClass {rest : Text} {ps : List ClassPart} {v i : Bool} {k : σ} {t : Text}
      (h : ClassSpelling t ⟨ps, v⟩) : Written rest (.charClass ps v i k) (t ++ flagText i)
  | any {rest : Text} {k : σ} : Written rest (.any k) ['.']

/-- One way to write the expression with further parentheses around it. There are none of these around
labels and sequences, since parentheses there are a node of their own. -/
inductive Wrapped : Text → Expr σ → Text → Prop
  | plain {rest : Text} {e : Expr σ} {t : Text} (h : Written rest e t) : Wrapped rest e t
  | parens {rest : Text} {e : Expr σ} {t l r : Text} (he : e.hasLabels = false)
      (hl : TriviaText (t ++ (r ++ ')' :: rest)) l) (h : Wrapped (r ++ ')' :: rest) e t)
      (hr : TriviaText (')' :: rest) r) : Wrapped rest e ('(' :: (l ++ (t ++ (r ++ [')']))))

/-- Expressions in a row with separators between them. -/
inductive Row : (Text → Text → Prop) → Text → List (Expr σ) → Text → Prop
  | nil {S : Text → Text → Prop} {rest : Text} : Row S rest [] []
  | single {S : Text → Text → Prop} {rest : Text} {e : Expr σ} {t : Text} (h : Wrapped rest e t) :
      Row S rest [e] t
  | cons {S : Text → Text → Prop} {rest : Text} {e e' : Expr σ} {es : List (Expr σ)} {t s u : Text}
      (h : Wrapped (s ++ (u ++ rest)) e t) (hs : S (u ++ rest) s) (hes : Row S rest (e' :: es) u) :
      Row S rest (e :: e' :: es) (t ++ (s ++ u))

end

end Expr

/-- The text is one way to write the rule in front of `rest`. -/
inductive Rule.Written (rest : Text) : Rule σ → Text → Prop
  | plain {n : String} {e : Expr σ} {j k : σ} {t u l w s : Text} (hname : NameSpelling t n)
      (hhead : HeaderText ('=' :: (l ++ (w ++ (s ++ rest)))) u none)
      (hl : TriviaText (w ++ (s ++ rest)) l) (he : e.Wrapped (s ++ rest) w)
      (hend : StatementEndText rest s) :
      Written rest ⟨n, j, e, k⟩ (t ++ (u ++ '=' :: (l ++ (w ++ s))))
  | named {n d : String} {v : Bool} {e : Expr σ} {i j k : σ} {t u l w s : Text}
      (hname : NameSpelling t n)
      (hhead : HeaderText ('=' :: (l ++ (w ++ (s ++ rest)))) u (some (d, v)))
      (hl : TriviaText (w ++ (s ++ rest)) l) (he : e.Wrapped (s ++ rest) w)
      (hend : StatementEndText rest s) :
      Written rest ⟨n, j, .named d v e i, k⟩ (t ++ (u ++ '=' :: (l ++ (w ++ s))))

/-- Rules up to the end of the document, each with the trivia after it. -/
inductive Rule.AllWritten : List (Rule σ) → Text → Prop
  | nil : AllWritten [] []
  | cons {r : Rule σ} {rs : List (Rule σ)} {t l u : Text} (h : r.Written (l ++ u) t)
      (hl : TriviaText u l) (hs : AllWritten rs u) : AllWritten (r :: rs) (t ++ (l ++ u))

namespace Initializer

inductive Written (rest : Text) : Initializer σ → Text → Prop
  | mk {i : Initializer σ} {b s : Text} (hb : BlockSpelling b i.code)
      (hend : StatementEndText rest s) : Written rest i (b ++ s)

inductive TopLevelWritten (rest : Text) : Initializer σ → Text → Prop
  | mk {i : Initializer σ} {b s : Text} (hb : BlockSpelling b i.code)
      (hend : StatementEndText rest s) : TopLevelWritten rest i ('{' :: (b ++ '}' :: s))

/-- An initializer with the trivia after it, if there is one. -/
inductive Leading (W : Text → Initializer σ → Text → Prop) (rest : Text) :
    Option (Initializer σ) → Text → Prop
  | none : Leading W rest none []
  | some {i : Initializer σ} {t l : Text} (h : W (l ++ rest) i t) (hl : TriviaText rest l) :
      Leading W rest (some i) (t ++ l)

end Initializer

/-- The text is one way to write the document. -/
inductive Grammar.Written : Grammar σ → Text → Prop
  | mk {g : Grammar σ} {l t i r : Text} (hl : TriviaText (t ++ (i ++ r)) l)
      (htop : Initializer.Leading Initializer.TopLevelWritten (i ++ r) g.topLevel t)
      (hinit : Initializer.Leading Initializer.Written r g.perParse i) (hne : g.rules ≠ [])
      (hrules : Rule.AllWritten g.rules r) : Written g (l ++ (t ++ (i ++ r)))

namespace Expr

theorem hasLabels_map (f : σ → τ) (e : Expr σ) : (e.map f).hasLabels = e.hasLabels := by
  cases e <;> rfl

mutual

theorem Written.map (f : σ → τ) : ∀ {rest : Text} {e : Expr σ} {t : Text}, Written rest e t →
    Written rest (e.map f) t
  | _, _, _, .choice h => .choice (h.map f)
  | _, _, _, .action h hl hb => .action (h.map f) hl hb
  | _, _, _, .sequence h => .sequence (h.map f)
  | _, _, _, .labeled hm hl h => .labeled hm hl (h.map f)
  | _, _, _, .pick hl h => .pick hl (h.map f)
  | _, _, _, .pickLabeled hl hm hr h => .pickLabeled hl hm hr (h.map f)
  | _, _, _, .prefixed hl h => .prefixed hl (h.map f)
  | _, _, _, .suffixed h hl => .suffixed (h.map f) hl
  | _, _, _, .group hl h hr => .group hl (h.map f) hr
  | _, _, _, .predicate hl hb => .predicate hl hb
  | _, _, _, .ruleRef h => .ruleRef h
  | _, _, _, .literal h => .literal h
  | _, _, _, .charClass h => .charClass h
  | _, _, _, .any => .any

theorem Wrapped.map (f : σ → τ) : ∀ {rest : Text} {e : Expr σ} {t : Text}, Wrapped rest e t →
    Wrapped rest (e.map f) t
  | _, _, _, .plain h => .plain (h.map f)
  | _, _, _, .parens he hl h hr => .parens ((hasLabels_map f _).trans he) hl (h.map f) hr

theorem Row.map (f : σ → τ) : ∀ {S : Text → Text → Prop} {rest : Text} {es : List (Expr σ)}
    {t : Text}, Row S rest es t → Row S rest (mapList f es) t
  | _, _, _, _, .nil => .nil
  | _, _, _, _, .single h => .single (h.map f)
  | _, _, _, _, .cons h hs hes => .cons (h.map f) hs (hes.map f)

end

theorem Wrapped.of_written : ∀ {rest : Text} {e : Expr τ} {e' : Expr σ} {t : Text},
    Wrapped rest e t → (∀ {rest u}, Written rest e u → Written rest e' u) →
    e.hasLabels = e'.hasLabels → Wrapped rest e' t
  | _, _, _, _, .plain h, hw, _ => .plain (hw h)
  | _, _, _, _, .parens he hl h hr, hw, heq => .parens (heq.symm.trans he) hl (h.of_written hw heq) hr

mutual

theorem written_of_map {f : σ → τ} : ∀ (e : Expr σ) {rest t : Text}, Written rest (e.map f) t →
    Written rest e t
  | .choice es _, _, _, .choice h => .choice (row_of_map es h)
  | .action e _ _ _, _, _, .action h hl hb =>
    .action (h.of_written (written_of_map e) (hasLabels_map f e)) hl hb
  | .sequence es _, _, _, .sequence h => .sequence (row_of_map es h)
  | .labeled _ _ _ e _, _, _, .labeled hm hl h =>
    .labeled hm hl (h.of_written (written_of_map e) (hasLabels_map f e))
  | .labeled _ _ _ e _, _, _, .pick hl h =>
    .pick hl (h.of_written (written_of_map e) (hasLabels_map f e))
  | .labeled _ _ _ e _, _, _, .pickLabeled hl hm hr h =>
    .pickLabeled hl hm hr (h.of_written (written_of_map e) (hasLabels_map f e))
  | .prefixed _ e _, _, _, .prefixed hl h =>
    .prefixed hl (h.of_written (written_of_map e) (hasLabels_map f e))
  | .suffixed _ e _, _, _, .suffixed h hl =>
    .suffixed (h.of_written (written_of_map e) (hasLabels_map f e)) hl
  | .group e _, _, _, .group hl h hr => .group hl (written_of_map e h) hr
  | .predicate .., _, _, .predicate hl hb => .predicate hl hb
  | .ruleRef .., _, _, .ruleRef h => .ruleRef h
  | .literal .., _, _, .literal h => .literal h
  | .charClass .., _, _, .charClass h => .charClass h
  | .any _, _, _, .any => .any

theorem row_of_map {f : σ → τ} {S : Text → Text → Prop} : ∀ (es : List (Expr σ)) {rest t : Text},
    Row S rest (mapList f es) t → Row S rest es t
  | [], _, _, .nil => .nil
  | [e], _, _, .single h => .single (h.of_written (written_of_map e) (hasLabels_map f e))
  | e :: e' :: es, _, _, .cons h hs hes =>
    .cons (h.of_written (written_of_map e) (hasLabels_map f e)) hs (row_of_map (e' :: es) hes)

end

theorem Wrapped.of_bare_eq {rest : Text} {e : Expr σ} {e' : Expr τ} {t : Text} (h : Wrapped rest e t)
    (heq : e'.bare = e.bare) : Wrapped rest e' t := by
  have hbare : Wrapped rest e'.bare t := heq ▸ h.map _
  exact hbare.of_written (written_of_map e') (hasLabels_map _ e')

theorem bare_eq_named {e : Expr σ} {d : String} {v : Bool} {b : Expr Unit}
    (h : e.bare = .named d v b ()) : ∃ e' i, e = .named d v e' i ∧ e'.bare = b := by
  cases e <;> cases h
  exact ⟨_, _, rfl, rfl⟩

end Expr

theorem Rule.Written.of_bare_eq {rest t : Text} {r : Rule σ} {r' : Rule τ}
    (h : r.Written rest t) (heq : r'.bare = r.bare) : r'.Written rest t := by
  obtain ⟨n', j', e', k'⟩ := r'
  cases h with
  | plain hname hhead hl he hend =>
      obtain ⟨rfl, hexpr⟩ := Rule.bare_eq_iff.1 heq
      exact .plain hname hhead hl (he.of_bare_eq hexpr) hend
  | named hname hhead hl he hend =>
      obtain ⟨rfl, hexpr⟩ := Rule.bare_eq_iff.1 heq
      obtain ⟨e'', i, rfl, hbody⟩ := Expr.bare_eq_named hexpr
      exact .named hname hhead hl (he.of_bare_eq hbody) hend

theorem Rule.AllWritten.of_bare_eq {rs : List (Rule σ)} {rs' : List (Rule τ)} {t : Text}
    (h : AllWritten rs t) (heq : rs'.map Rule.bare = rs.map Rule.bare) : AllWritten rs' t := by
  induction h generalizing rs' with
  | nil =>
      rw [List.map_nil, List.map_eq_nil_iff] at heq
      subst heq
      exact .nil
  | cons h hl _ ih =>
      obtain ⟨r', rs'', rfl, hr, hrs⟩ := List.map_eq_cons_iff.1 heq
      exact .cons (h.of_bare_eq hr) hl (ih hrs)

theorem Initializer.Leading.of_bare_eq {W : Text → Initializer σ → Text → Prop}
    {W' : Text → Initializer τ → Text → Prop}
    (hW : ∀ {u i i' t}, W u i t → i'.bare = i.bare → W' u i' t) {rest t : Text}
    {o : Option (Initializer σ)} {o' : Option (Initializer τ)} (h : Leading W rest o t)
    (heq : o'.map bare = o.map bare) : Leading W' rest o' t := by
  cases h with
  | none =>
      rw [Option.map_none, Option.map_eq_none_iff] at heq
      subst heq
      exact .none
  | some h hl =>
      obtain ⟨i', rfl, hi⟩ := Option.map_eq_some_iff.1 heq
      exact .some (hW h hi) hl

/-- How a document is written does not depend on the locations in it. -/
theorem Grammar.Written.of_bare_eq {g : Grammar σ} {g' : Grammar τ} {t : Text} (h : g.Written t)
    (heq : g'.bare = g.bare) : g'.Written t := by
  cases h with
  | mk hl htop hinit hne hrules =>
      obtain ⟨htopeq, hiniteq, hruleseq⟩ := Grammar.bare_eq_iff.1 heq
      refine .mk hl (htop.of_bare_eq ?_ htopeq) (hinit.of_bare_eq ?_ hiniteq) ?_
        (hrules.of_bare_eq hruleseq)
      · rintro _ i i' _ ⟨hb, hend⟩ hi
        exact .mk (Initializer.bare_eq_iff.1 hi ▸ hb) hend
      · rintro _ i i' _ ⟨hb, hend⟩ hi
        exact .mk (Initializer.bare_eq_iff.1 hi ▸ hb) hend
      · intro hnil
        rw [hnil] at hruleseq
        exact hne (List.map_eq_nil_iff.1 hruleseq.symm)

end PegGrammar
