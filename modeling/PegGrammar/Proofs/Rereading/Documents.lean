import PegGrammar.Proofs.Outcome
import PegGrammar.Proofs.Rereading.Places

namespace PegGrammar

open Reader PegGrammar.Expr

variable {s m : Text} {ts : List Text} {rs : List (Rule Unit)}

section Initializers

/-- The code in single braces is nothing but another pair of braces and what is between them. -/
def Initializer.Doubled {σ : Type} (i : Initializer σ) : Prop :=
  ∃ code, Balanced code ∧ i.code.toList = '{' :: (code ++ ['}'])

variable {i : Initializer Unit}

theorem takes_topLevel (hi : Balanced i.code.toList) (hts : Next (· ≠ ';') (place ts)) :
    Takes (thenTrivia topLevelInitializer) (place (i.topLevelText :: ts)) (·.bare = i) (place ts) := by
  have hplace : place (i.topLevelText :: ts) =
      '{' :: (Printer.block i.code ++ '}' :: '\n' :: following ts) := by
    refine (place_cons (c := '{') (by decide) rfl ts).trans ?_
    simp
  rw [hplace]
  refine takes_thenTrivia (.located ?_)
  refine takes_symbol.bind fun _ _ => (takes_codeBlock hi).bind fun code hcode => ?_
  refine takes_symbol.bind fun _ _ => (takes_statementEnd hts .refl).bind fun _ _ => ?_
  exact takes_pure fun range => by rw [Initializer.bare, Initializer.map, hcode]

theorem takes_initializer (hi : Balanced i.code.toList) (hts : Next (· ≠ ';') (place ts)) :
    Takes (thenTrivia initializer) (place (i.text :: ts)) (·.bare = i) (place ts) := by
  have hplace : place (i.text :: ts) = Printer.block i.code ++ '\n' :: following ts :=
    place_cons (by decide) rfl ts
  rw [hplace]
  refine takes_thenTrivia (.located ?_)
  refine (takes_codeBlock hi).bind fun code hcode => (takes_statementEnd hts .refl).bind fun _ _ => ?_
  exact takes_pure fun range => by rw [Initializer.bare, Initializer.map, hcode]

theorem refuses_initializer (h : Next (· ≠ '{') s) : Refuses initializer s :=
  .located (refuses_codeBlock h).bind

theorem refuses_topLevel (h : Next (· ≠ '{') s) : Refuses topLevelInitializer s :=
  .located (refuses_symbol h).bind

/-- What begins balanced code with a brace ends where that brace is closed. -/
theorem refuses_topLevel_of_not_doubled {σ : Type} {i : Initializer σ}
    (hi : Balanced i.code.toList) (h : ¬ i.Doubled) (F : Text) :
    Refuses topLevelInitializer (Printer.block i.code ++ F) := by
  rw [block_append]
  refine .located (takes_symbol.bind_refuses fun _ _ => ?_)
  cases hcode : i.code.toList with
  | nil => exact (refuses_codeBlock (next_cons (by decide))).bind
  | cons c u =>
      by_cases hc : c = '{'
      · rw [hcode, hc, ← balancedAt_zero_iff] at hi
        have hopen : BalancedAt 1 u := (CodeBlock.balancedAt_cons rfl).1 hi
        obtain ⟨t, w, rfl, ht, hw⟩ := CodeBlock.exists_close_of_balancedAt hopen
        have hblock : c :: (t ++ '}' :: w) ++ '}' :: F =
            Printer.block (String.ofList t) ++ (w ++ '}' :: F) := by
          simp [block_append, hc]
        rw [hblock]
        have hbalanced : Balanced (String.ofList t).toList := by
          rwa [String.toList_ofList, ← balancedAt_zero_iff]
        refine (takes_codeBlock hbalanced).bind_refuses fun _ _ => (refuses_symbol ?_).bind
        cases w with
        | nil => exact (h ⟨t, balancedAt_zero_iff.1 ht, by rw [hcode, hc]⟩).elim
        | cons d w =>
            apply next_cons
            rintro rfl
            exact CodeBlock.not_balancedAt_close hw
      · exact (refuses_codeBlock (next_cons hc)).bind

theorem not_doubled_of_document {st st' : State} {g : Grammar ByteRange}
    (h : document st = .matched g st') (htop : g.topLevel = none) : ∀ i ∈ g.perParse, ¬ i.Doubled := by
  rintro i hi ⟨code, hcode, hbraces⟩
  obtain ⟨-, st₁, st₂, st₃, -, -, hnone, hsome, -⟩ := document_eq_matched h
  rw [htop] at hnone
  rw [hi] at hsome
  obtain ⟨f, hunmatched⟩ := optional_eq_none hnone
  have hrest : st₂.rest = st₁.rest := by
    rcases optional_eq_matched hnone with ⟨_, ⟨⟩, -⟩ | ⟨-, hp⟩
    exact hp.eq_rest
  obtain ⟨_, ⟨⟩, hinit⟩ | ⟨⟨⟩, -⟩ := optional_eq_matched hsome
  obtain ⟨st₄, -, hinit, -⟩ := thenTrivia_eq_matched hinit
  obtain ⟨st₅, hblock, hend, -⟩ := initializer_eq_matched hinit
  have htext : st₁.rest = '{' :: (Printer.block (String.ofList code) ++ '}' :: st₅.rest) := by
    rw [← hrest, hblock.passes.1, hbraces]
    simp [Printer.block]
  have hbalanced : Balanced (String.ofList code).toList := by rwa [String.toList_ofList]
  have htakes : Takes topLevelInitializer st₁.rest (fun _ => True) st₄.rest := by
    rw [htext]
    refine .located (takes_symbol.bind fun _ _ => (takes_codeBlock hbalanced).bind fun _ _ => ?_)
    exact takes_symbol.bind fun _ _ =>
      (takes_of_statementEnd hend).bind fun _ _ => takes_pure fun _ => trivial
  obtain ⟨_, st₆, hmatch, -⟩ := takes_thenTrivia htakes st₁ rfl
  rw [hmatch] at hunmatched
  cases hunmatched

end Initializers

section Documents

def Leaves {α : Type} (p : Reader α) (s r : Text) : Prop :=
  ∀ ⦃st a st'⦄, st.rest = s → p st = .matched a st' → st'.rest = r

theorem leaves_bind {α β : Type} {p : Reader α} {f : α → Reader β} {V : α → Prop} {r : Text}
    (hp : Takes p s V m) (hf : ∀ a, Leaves (f a) m r) : Leaves (p >>= f) s r := by
  intro st b st' hst h
  obtain ⟨a, st₁, hmatch, h⟩ := bind_eq_matched.1 h
  obtain ⟨a', st₂, hmatch', -, hrest⟩ := hp st hst
  rw [hmatch] at hmatch'
  cases hmatch'
  exact hf a hrest h

theorem leaves_pure {α : Type} (a : α) : Leaves (pure a : Reader α) s s := by
  rintro st _ _ hst ⟨⟩
  exact hst

theorem leaves_located {α : Type} {p : Reader (ByteRange → α)} {r : Text} (h : Leaves p s r) :
    Leaves (located p) s r := by
  intro st a st' hst hmatch
  obtain ⟨f, hmatch, -⟩ := located_eq_matched hmatch
  exact h hst hmatch

variable {g g' : Grammar Unit}

/-- The shape of a document that is read back from its own text. -/
structure Grammar.Printable (g : Grammar Unit) : Prop extends g.Shaped Name.Readable where
  doubled : g.topLevel = none → ∀ i ∈ g.perParse, ¬ i.Doubled

theorem Grammar.text_eq (g : Grammar Unit) (h : g.rules ≠ []) :
    '\n' :: g.text = following g.statements := by
  obtain ⟨t, ts, hts⟩ : ∃ t ts, g.statements = t :: ts := by
    cases hs : g.statements with
    | nil => simp [statements, h] at hs
    | cons t ts => exact ⟨t, ts, rfl⟩
  rw [text, hts]
  exact intercalate_eq_following ts

theorem next_statements (hg : g.Printable) : Next (fun c => c = '{' ∨ IsNameHead c)
    (place (g.perParse.toList.map (·.text) ++ g.rules.map Rule.text)) := by
  cases hi : g.perParse with
  | none => exact (next_following hg.rules).imp fun c hc => .inr hc
  | some i =>
      refine Next.imp (P := (· = '{')) ?_ fun c hc => .inl hc
      have hplace := place_cons (c := '{') (t := i.text) (by decide) rfl
        (g.rules.map Rule.text)
      rw [Option.toList_some, List.map_singleton, List.singleton_append, hplace]
      exact next_cons rfl

theorem takes_optional_topLevel (hg : g.Printable) :
    Takes (optional (thenTrivia topLevelInitializer)) (place g.statements)
      (fun o => o.map Initializer.bare = g.topLevel)
      (place (g.perParse.toList.map (·.text) ++ g.rules.map Rule.text)) := by
  have hnext := next_statements hg
  cases htop : g.topLevel with
  | some i =>
      have hi := hg.topLevel i htop
      have h := takes_topLevel hi (hnext.imp fun c hc => by
        rcases hc with rfl | hc
        · decide
        · exact hc.ne (by decide) (by decide))
      rw [Grammar.statements, htop]
      apply h.optional.imp
      rintro _ ⟨i', rfl, hi'⟩
      rw [Option.map_some, hi']
  | none =>
      rw [Grammar.statements, htop, Option.toList_none, List.map_nil, List.nil_append]
      have h : Refuses (thenTrivia topLevelInitializer)
          (place (g.perParse.toList.map (·.text) ++ g.rules.map Rule.text)) := by
        apply Refuses.bind
        cases hi : g.perParse with
        | none =>
            refine refuses_topLevel ((next_following hg.rules).imp fun c hc => ?_)
            exact hc.ne (by decide) (by decide)
        | some i =>
            have hplace := place_cons (c := '{') (t := i.text) (by decide) rfl
              (g.rules.map Rule.text)
            rw [Option.toList_some, List.map_singleton, List.singleton_append, hplace]
            exact refuses_topLevel_of_not_doubled (hg.perParse i hi) (hg.doubled htop i hi) _
      apply h.optional.imp
      rintro _ rfl
      rfl

theorem takes_optional_initializer (hg : g.Printable) :
    Takes (optional (thenTrivia initializer))
      (place (g.perParse.toList.map (·.text) ++ g.rules.map Rule.text))
      (fun o => o.map Initializer.bare = g.perParse) (place (g.rules.map Rule.text)) := by
  have hnext := next_following hg.rules
  cases hi : g.perParse with
  | some i =>
      have h := takes_initializer (hg.perParse i hi) (hnext.imp fun c hc =>
        hc.ne (by decide) (by decide))
      apply h.optional.imp
      rintro _ ⟨i', rfl, hi'⟩
      rw [Option.map_some, hi']
  | none =>
      have h : Refuses (thenTrivia initializer) (place (g.rules.map Rule.text)) :=
        (refuses_initializer (hnext.imp fun c hc => hc.ne (by decide) (by decide))).bind
      apply h.optional.imp
      rintro _ rfl
      rfl

theorem rereadRules_ne_nil {rs' : List (Rule Unit)} (hne : rs ≠ []) (h : rereadRules rs = some rs') :
    rs' ≠ [] := by
  cases rs with
  | nil => exact (hne rfl).elim
  | cons r rs =>
      obtain ⟨r', -, h⟩ := Option.bind_eq_some_iff.1 h
      obtain ⟨rs', -, rfl⟩ := Option.map_eq_some_iff.1 h
      simp

theorem takes_document (hg : g.Printable) (h : g.reread = some g') :
    Takes document g.text (·.bare = g') [] := by
  obtain ⟨rs, hrs, rfl⟩ := Option.map_eq_some_iff.1 h
  have hrules := rulesOutcome hg.rules
  rw [hrs] at hrules
  have htrivia := takes_trivia (s := g.text)
  rw [← skipTrivia_newline, Grammar.text_eq g hg.rules_ne_nil] at htrivia
  refine .located (htrivia.bind fun _ _ => (takes_optional_topLevel hg).bind fun top htop => ?_)
  refine (takes_optional_initializer hg).bind fun init hinit => hrules.bind fun as has => ?_
  split
  next => exact (rereadRules_ne_nil hg.rules_ne_nil hrs has.symm).elim
  next =>
    refine takes_pure fun range => ?_
    rw [← htop, ← hinit, ← has]
    rfl

theorem leaves_document (hg : g.Printable) (h : g.reread = none) :
    ∃ m, m ≠ [] ∧ Leaves document g.text m := by
  have hrules := rulesOutcome hg.rules
  rw [Option.map_eq_none_iff.1 h] at hrules
  obtain ⟨m, hm, hrules⟩ := hrules
  have htrivia := takes_trivia (s := g.text)
  rw [← skipTrivia_newline, Grammar.text_eq g hg.rules_ne_nil] at htrivia
  refine ⟨m, hm, leaves_located (leaves_bind htrivia fun _ => ?_)⟩
  refine leaves_bind (takes_optional_topLevel hg) fun top => ?_
  refine leaves_bind (takes_optional_initializer hg) fun init => leaves_bind hrules fun as => ?_
  split
  next =>
    rintro _ _ _ _ ⟨⟩
  next => exact leaves_pure _

theorem readsAs_text_iff (hg : g.Printable) : ReadsAs g.text g' ↔ g.reread = some g' := by
  constructor
  · rintro ⟨g₀, st', hread, hrest, rfl⟩
    cases h : g.reread with
    | some g' =>
        obtain ⟨g₁, st₁, hread', hbare, -⟩ := takes_document hg h { rest := g.text } rfl
        rw [hread] at hread'
        cases hread'
        rw [hbare]
    | none =>
        obtain ⟨m, hm, hleaves⟩ := leaves_document hg h
        rw [hleaves rfl hread] at hrest
        exact (hm hrest).elim
  · intro h
    obtain ⟨g₀, st', hread, hbare, hrest⟩ := takes_document hg h { rest := g.text } rfl
    exact ⟨g₀, st', hread, hrest, hbare⟩

end Documents

end PegGrammar
