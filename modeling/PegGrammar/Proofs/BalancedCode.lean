import PegGrammar.Proofs.Offsets.Names
import PegGrammar.Proofs.ShapeReading
import PegGrammar.Proofs.SingleRule
import PegGrammar.Proofs.TriviaModes

namespace PegGrammar

open Reader

namespace CodeBlock

theorem balanced_braces {code : Text} (h : Balanced code) : Balanced ('{' :: (code ++ ['}'])) := by
  obtain ⟨hcount, hle⟩ := h
  have hopen : BalancedAt 1 (code ++ ['}']) := by
    refine ⟨by simp [hcount, Nat.add_comm], fun t ht => ?_⟩
    rcases List.prefix_concat_iff.1 ht with rfl | ht
    · simp [hcount, Nat.add_comm]
    · exact (hle t ht).trans (Nat.le_add_left _ _)
  exact balancedAt_zero_iff.1 ((balancedAt_cons rfl).2 hopen)

end CodeBlock

namespace Text

variable {source code code' : Text} {pos : Nat}

/-- Balanced code stands between braces, the opening one at `pos`. -/
def BlockAt (source code : Text) (pos : Nat) : Prop :=
  Balanced code ∧ ∃ rest, source.dropBytes? pos = some ('{' :: (code ++ '}' :: rest))

theorem blockAt_iff : source.BlockAt code pos ↔
    (source.dropBytes? pos).bind CodeBlock.codeBlock = some code := by
  simp only [BlockAt, Option.bind_eq_some_iff, CodeBlock.codeBlock_eq_some_iff]
  constructor
  · rintro ⟨hbalanced, rest, hs⟩
    exact ⟨_, hs, hbalanced, rest, rfl⟩
  · rintro ⟨_, hs, hbalanced, rest, rfl⟩
    exact ⟨hbalanced, rest, hs⟩

theorem blockAt_iff_of_stands {s : Text} (h : StandsAt source s pos) :
    source.BlockAt code pos ↔ CodeBlock.codeBlock s = some code := by
  rw [blockAt_iff, h.dropBytes?, Option.bind_some]

theorem forall_not_blockAt_iff : (∀ code, ¬ source.BlockAt code pos) ↔
    (source.dropBytes? pos).bind CodeBlock.codeBlock = none := by
  simp only [blockAt_iff, Option.eq_none_iff_forall_ne_some, ne_eq]

theorem BlockAt.unique (h : source.BlockAt code pos) (h' : source.BlockAt code' pos) :
    code = code' :=
  Option.some.inj ((blockAt_iff.1 h).symm.trans (blockAt_iff.1 h'))

theorem recognizeAt_codeBlock : (source.recognizeAt CodeBlock.codeBlock pos).map Prod.fst =
    (source.dropBytes? pos).bind CodeBlock.codeBlock := by
  rw [recognizeAt]
  cases source.dropBytes? pos with
  | none => rfl
  | some s => simp [Function.comp_def]

theorem run_codeBlock : (Offsets.codeBlock source pos).run =
    .ok (((source.dropBytes? pos).bind CodeBlock.codeBlock).map fun code =>
      (code, ⟨pos + 1, pos + 1 + byteSize code⟩)) := by
  rw [Offsets.codeBlock_agrees.run_eq, Option.map_bind]
  rfl

end Text

section Initializers

variable {st st₁ st₂ : State} {code : Text}

def EndsStatement (s : Text) : Prop := ∃ r, Takes statementEnd s (fun _ => True) r

theorem takes_balanced {F : Text} (h : Balanced code) :
    Takes codeBlock ('{' :: (code ++ '}' :: F)) (·.value.toList = code) F := by
  have hcode : (String.ofList code).toList = code := String.toList_ofList
  have htakes : Takes codeBlock (Printer.block (String.ofList code) ++ F)
      (·.value = String.ofList code) F :=
    takes_codeBlock (by rwa [hcode])
  rw [block_append, hcode] at htakes
  exact htakes.imp fun token htoken => by rw [htoken, hcode]

theorem codeBlock_iff :
    (∃ token st', codeBlock st = .matched token st' ∧ token.value.toList = code ∧
      token.range = ⟨st.offset + 1, st.offset + 1 + Text.byteSize code⟩) ↔
      Balanced code ∧ ∃ r, st.rest = '{' :: (code ++ '}' :: r) := by
  constructor
  · rintro ⟨token, st', h, rfl, -⟩
    have hblock := codeBlock_eq_matched h
    exact ⟨hblock.balanced, st'.rest, by rw [hblock.passes.1]; simp⟩
  · rintro ⟨hbalanced, r, hrest⟩
    obtain ⟨token, st', h, hcode, -⟩ := takes_balanced hbalanced st hrest
    exact ⟨token, st', h, hcode, hcode ▸ (codeBlock_eq_matched h).range_eq⟩

theorem initializer_iff : (∃ i st', initializer st = .matched i st' ∧ i.code.toList = code) ↔
    Balanced code ∧ ∃ r, st.rest = '{' :: (code ++ '}' :: r) ∧ EndsStatement r := by
  constructor
  · rintro ⟨i, st', h, rfl⟩
    obtain ⟨st₁, hblock, hend, -⟩ := initializer_eq_matched h
    exact ⟨hblock.balanced, st₁.rest, by rw [hblock.passes.1]; simp, _, takes_of_statementEnd hend⟩
  · rintro ⟨hbalanced, r, hrest, r', hend⟩
    have htakes : Takes initializer st.rest (·.code.toList = code) r' := by
      rw [hrest]
      refine .located ((takes_balanced hbalanced).bind fun token htoken => ?_)
      exact hend.bind fun _ _ => takes_pure fun _ => htoken
    obtain ⟨i, st', h, hcode, -⟩ := htakes st rfl
    exact ⟨i, st', h, hcode⟩

theorem topLevelInitializer_iff :
    (∃ i st', topLevelInitializer st = .matched i st' ∧ i.code.toList = code) ↔
      Balanced code ∧ ∃ r, st.rest = '{' :: '{' :: (code ++ '}' :: '}' :: r) ∧ EndsStatement r := by
  constructor
  · rintro ⟨i, st', h, rfl⟩
    obtain ⟨st₁, st₂, st₃, hopen, hblock, hclose, hend, -⟩ := topLevelInitializer_eq_matched h
    refine ⟨hblock.balanced, st₃.rest, ?_, _, takes_of_statementEnd hend⟩
    rw [hopen.1, hblock.passes.1, hclose.1]
    simp
  · rintro ⟨hbalanced, r, hrest, r', hend⟩
    have htakes : Takes topLevelInitializer st.rest (·.code.toList = code) r' := by
      rw [hrest]
      refine .located (takes_symbol.bind fun _ _ => ?_)
      refine (takes_balanced hbalanced).bind fun token htoken => ?_
      refine takes_symbol.bind fun _ _ => ?_
      exact hend.bind fun _ _ => takes_pure fun _ => htoken
    obtain ⟨i, st', h, hcode, -⟩ := htakes st rfl
    exact ⟨i, st', h, hcode⟩

/-- Double braces can be read where single braces could be, around code in braces. -/
theorem topLevelInitializer_iff_initializer :
    (∃ i st', topLevelInitializer st = .matched i st' ∧ i.code.toList = code) ↔
      Balanced code ∧
        ∃ i st', initializer st = .matched i st' ∧ i.code.toList = '{' :: (code ++ ['}']) := by
  rw [topLevelInitializer_iff, initializer_iff]
  constructor
  · rintro ⟨hbalanced, r, hrest, hend⟩
    exact ⟨hbalanced, CodeBlock.balanced_braces hbalanced, r, by rw [hrest]; simp, hend⟩
  · rintro ⟨hbalanced, -, r, hrest, hend⟩
    exact ⟨hbalanced, r, by rw [hrest]; simp, hend⟩

theorem codeBlock_of_initializer {i : Initializer ByteRange}
    (h : initializer st = .matched i st₁) : CodeBlock.codeBlock st.rest = some i.code.toList := by
  obtain ⟨hbalanced, r, hrest, -⟩ := initializer_iff.1 ⟨i, st₁, h, rfl⟩
  exact CodeBlock.codeBlock_eq_some_iff.2 ⟨hbalanced, r, hrest⟩

theorem codeBlock_of_topLevelInitializer {i : Initializer ByteRange}
    (h : topLevelInitializer st = .matched i st₁) :
    CodeBlock.codeBlock st.rest = some ('{' :: (i.code.toList ++ ['}'])) := by
  obtain ⟨-, j, st₂, hj, hcode⟩ := topLevelInitializer_iff_initializer.1 ⟨i, st₁, h, rfl⟩
  rw [codeBlock_of_initializer hj, hcode]

theorem offset_eq_of_rest_eq {t u : Text} (h : st.Passes t st₁) (h' : st.Passes u st₂)
    (hrest : st₁.rest = st₂.rest) : st₁.offset = st₂.offset := by
  have htext := h.1.symm.trans h'.1
  rw [hrest] at htext
  rw [h.2, h'.2, List.append_cancel_right htext]

theorem initializers_same {i j : Initializer ByteRange}
    (hi : topLevelInitializer st = .matched i st₁) (hj : initializer st = .matched j st₂) :
    i.location = j.location ∧ st₁.rest = st₂.rest := by
  have hcode : j.code.toList = '{' :: (i.code.toList ++ ['}']) :=
    Option.some.inj ((codeBlock_of_initializer hj).symm.trans (codeBlock_of_topLevelInitializer hi))
  obtain ⟨a, b, c, hopen, hblock, hclose, hend, hlocation⟩ := topLevelInitializer_eq_matched hi
  obtain ⟨d, hblock', hend', hlocation'⟩ := initializer_eq_matched hj
  have hp := hopen.trans (hblock.passes.trans hclose)
  have hp' := hblock'.passes
  have hrest : d.rest = c.rest := by
    have htext := hp.1.symm.trans hp'.1
    simpa [hcode] using htext.symm
  have hends : st₁.rest = st₂.rest := by
    obtain ⟨_, _, hmatch, -, hr⟩ := takes_of_statementEnd hend d hrest
    rw [hend'] at hmatch
    cases hmatch
    exact hr.symm
  obtain ⟨e, -, he⟩ := statementEnd_eq_matched hend
  obtain ⟨e', -, he'⟩ := statementEnd_eq_matched hend'
  refine ⟨?_, hends⟩
  rw [hlocation, hlocation', offset_eq_of_rest_eq (hp.trans he) (hp'.trans he') hends]

end Initializers

section Documents

variable {st st' : State} {g : Grammar ByteRange}

theorem codeBlock_of_document (h : document st = .matched g st') (hrest : st'.rest = []) :
    CodeBlock.codeBlock (skipTrivia st.rest) =
      match g.topLevel, g.perParse with
      | some i, _ => some ('{' :: (i.code.toList ++ ['}']))
      | none, some i => some i.code.toList
      | none, none => none := by
  obtain ⟨l, st₁, st₂, st₃, hl, hp, htop, hper, hrules, -⟩ := document_eq_matched h
  rw [hp.1, hl.skip]
  rcases optional_eq_matched htop with ⟨i, htop, hi⟩ | ⟨htop, hp₁⟩
  · obtain ⟨_, -, hi, -⟩ := thenTrivia_eq_matched hi
    rw [htop, codeBlock_of_topLevelInitializer hi]
  · rw [htop, ← hp₁.eq_rest]
    rcases optional_eq_matched hper with ⟨i, hper, hi⟩ | ⟨hper, hp₂⟩
    · obtain ⟨_, -, hi, -⟩ := thenTrivia_eq_matched hi
      rw [hper, codeBlock_of_initializer hi]
    · rw [hper, ← hp₂.eq_rest]
      -- the rules begin here, and no rule begins with a brace
      have hnext := next_of_rules hrules hrest
      cases hs : st₃.rest with
      | nil => rfl
      | cons c s =>
          rw [hs] at hnext
          have hbrace : c ≠ '{' := (hnext c rfl).ne (by decide +kernel) (by decide)
          rw [CodeBlock.codeBlock, if_neg hbrace]

end Documents

/-- Which initializer the block is that a document begins with. -/
structure BlockTaken {σ : Type} (source : Text) (g : Grammar σ) : Prop where
  doubled : ∀ code, Balanced code →
    source.BlockAt ('{' :: (code ++ ['}'])) (source.after Trivia.skip 0) →
    ∃ i, g.topLevel = some i ∧ i.code.toList = code
  single : ∀ code, source.BlockAt code (source.after Trivia.skip 0) →
    (∀ inner, Balanced inner → code ≠ '{' :: (inner ++ ['}'])) →
    g.topLevel = none ∧ ∃ i, g.perParse = some i ∧ i.code.toList = code
  absent : (∀ code, ¬ source.BlockAt code (source.after Trivia.skip 0)) →
    g.topLevel = none ∧ g.perParse = none

theorem blockTaken_of_document {source : Text} {st' : State} {g : Grammar ByteRange}
    (h : document { rest := source } = .matched g st') (hrest : st'.rest = []) :
    BlockTaken source g := by
  have hstands := (StandsAt.start source).stopAt (Trivia.skip source)
  rw [← Text.after_eq (.start _)] at hstands
  have hat {code : Text} : source.BlockAt code (source.after Trivia.skip 0) ↔
      CodeBlock.codeBlock (skipTrivia source) = some code := Text.blockAt_iff_of_stands hstands
  have hblock := codeBlock_of_document h hrest
  constructor
  · intro code hcode hstart
    rw [hat, hblock] at hstart
    split at hstart
    next _ i htop => exact ⟨i, htop, by simpa using hstart⟩
    next i htop hper =>
      exact (not_doubled_of_document h htop i hper ⟨code, hcode, Option.some.inj hstart⟩).elim
    next => cases hstart
  · intro code hstart hsingle
    rw [hat, hblock] at hstart
    split at hstart
    next _ i htop =>
      have hbalanced := (shaped_document (N := fun _ => True) (fun _ => trivial) h).topLevel i htop
      exact (hsingle _ hbalanced (Option.some.inj hstart).symm).elim
    next i htop hper => exact ⟨htop, i, hper, Option.some.inj hstart⟩
    next => cases hstart
  · intro hnone
    simp only [hat, hblock] at hnone
    split at hnone
    next => exact (hnone _ rfl).elim
    next => exact (hnone _ rfl).elim
    next htop hper => exact ⟨htop, hper⟩

theorem BlockTaken.of_map {σ τ : Type} {source : Text} {f : σ → τ} {g : Grammar σ}
    (h : BlockTaken source (g.map f)) : BlockTaken source g where
  doubled code hcode hstart := by
    obtain ⟨i, hi, hvalue⟩ := h.doubled code hcode hstart
    obtain ⟨j, hj, rfl⟩ := Option.map_eq_some_iff.1 hi
    exact ⟨j, hj, hvalue⟩
  single code hstart hsingle := by
    obtain ⟨htop, i, hi, hvalue⟩ := h.single code hstart hsingle
    obtain ⟨j, hj, rfl⟩ := Option.map_eq_some_iff.1 hi
    exact ⟨Option.map_eq_none_iff.1 htop, j, hj, hvalue⟩
  absent hnone := by
    obtain ⟨htop, hper⟩ := h.absent hnone
    exact ⟨Option.map_eq_none_iff.1 htop, Option.map_eq_none_iff.1 hper⟩

/-- Blocks are balanced code in braces, and the code decides which initializer a block is. -/
structure BlocksBalanced (source : String) : Prop where
  read : ∀ code pos, (Text.recognizeAt source.toList CodeBlock.codeBlock pos).map Prod.fst = some code ↔
    Text.BlockAt source.toList code pos
  /-- The same, going through the document by offsets. -/
  readAt : ∀ code range pos, (Offsets.codeBlock source.toList pos).run = .ok (some (code, range)) ↔
    Text.BlockAt source.toList code pos ∧ range = ⟨pos + 1, pos + 1 + code.byteSize⟩
  unique : ∀ code code' pos, Text.BlockAt source.toList code pos →
    Text.BlockAt source.toList code' pos → code = code'
  absent : ∀ pos, Text.recognizeAt source.toList CodeBlock.codeBlock pos = none ↔
    ∀ code, ¬ Text.BlockAt source.toList code pos
  absentAt : ∀ pos, (Offsets.codeBlock source.toList pos).run = .ok none ↔
    ∀ code, ¬ Text.BlockAt source.toList code pos
  block : ∀ (st : State) code,
    (∃ token st', codeBlock st = .matched token st' ∧ token.value.toList = code ∧
      token.range = ⟨st.offset + 1, st.offset + 1 + Text.byteSize code⟩) ↔
      Balanced code ∧ ∃ r, st.rest = '{' :: (code ++ '}' :: r)
  perParse : ∀ (st : State) code,
    (∃ i st', initializer st = .matched i st' ∧ i.code.toList = code) ↔
      Balanced code ∧ ∃ r, st.rest = '{' :: (code ++ '}' :: r) ∧ EndsStatement r
  topLevel : ∀ (st : State) code,
    (∃ i st', topLevelInitializer st = .matched i st' ∧ i.code.toList = code) ↔
      Balanced code ∧ ∃ r, st.rest = '{' :: '{' :: (code ++ '}' :: '}' :: r) ∧ EndsStatement r
  /-- Double braces are read exactly where single braces would be, around code in braces. -/
  doubled : ∀ (st : State) code,
    (∃ i st', topLevelInitializer st = .matched i st' ∧ i.code.toList = code) ↔
      Balanced code ∧
        ∃ i st', initializer st = .matched i st' ∧ i.code.toList = '{' :: (code ++ ['}'])
  same : ∀ {st st₁ st₂ i j}, topLevelInitializer st = .matched i st₁ →
    initializer st = .matched j st₂ → i.location = j.location ∧ st₁.rest = st₂.rest
  parsed : ∀ options g, parseWith options source = .ok g → BlockTaken source.toList g

theorem blocksBalanced (source : String) : BlocksBalanced source where
  read code pos := by rw [Text.recognizeAt_codeBlock, Text.blockAt_iff]
  readAt code range pos := by
    rw [Text.run_codeBlock, Text.blockAt_iff, Except.ok.injEq, Option.map_eq_some_iff]
    constructor
    · rintro ⟨code, hcode, ⟨⟩⟩
      exact ⟨hcode, rfl⟩
    · rintro ⟨hcode, rfl⟩
      exact ⟨code, hcode, rfl⟩
  unique _ _ _ h h' := h.unique h'
  absent pos := by
    rw [Text.forall_not_blockAt_iff, ← Text.recognizeAt_codeBlock, Option.map_eq_none_iff]
  absentAt pos := by
    rw [Text.forall_not_blockAt_iff, Text.run_codeBlock, Except.ok.injEq, Option.map_eq_none_iff]
  block _ _ := codeBlock_iff
  perParse _ _ := initializer_iff
  topLevel _ _ := topLevelInitializer_iff
  doubled _ _ := topLevelInitializer_iff_initializer
  same := initializers_same
  parsed options g h := by
    obtain ⟨st', hread, hrest⟩ := document_of_parseWith h
    exact (blockTaken_of_document hread hrest).of_map

end PegGrammar
