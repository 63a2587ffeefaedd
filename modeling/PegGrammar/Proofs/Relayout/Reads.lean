import PegGrammar.Proofs.Relayout.Layout
import PegGrammar.Proofs.Relayout.Tokens
import PegGrammar.Proofs.Rereading.Operands

namespace PegGrammar

open Reader

namespace Relayout

variable {α β : Type} {C : Relayout}

/-- With the text `s` ahead, which stood at `n`, the reader finds a value in `V` and leaves `r`,
which stood at `m`. -/
def Reads (C : Relayout) (p : Reader α) (n : Nat) (s : Text) (V : α → Prop) (m : Nat) (r : Text) :
    Prop :=
  ∀ st : State, st.rest = s → C.Meets n st.offset →
    ∃ a st', p st = .matched a st' ∧ V a ∧ st'.rest = r ∧ C.Meets m st'.offset

section

variable {p q : Reader α} {f : α → Reader β} {s t r : Text} {V : α → Prop} {W : β → Prop}
  {k m n : Nat}

theorem Reads.imp {V' : α → Prop} (h : C.Reads p n s V m r) (hV : ∀ a, V a → V' a) :
    C.Reads p n s V' m r := by
  intro st hst hn
  obtain ⟨a, st', hp, ha, hr⟩ := h st hst hn
  exact ⟨a, st', hp, hV a ha, hr⟩

theorem reads_pure {a : α} (h : V a) : C.Reads (pure a) n s V n s :=
  fun st hst hn => ⟨a, st, rfl, h, hst, hn⟩

theorem reads_of_run {W : β → Prop} {q : Reader β} (hp : C.Reads p n s V m r)
    (hq : ∀ st a st', p st = .matched a st' → st.rest = s → st'.rest = r → C.Reads q n s W k t) :
    C.Reads q n s W k t := by
  intro st hst hn
  obtain ⟨a, st', hmatch, -, hr, -⟩ := hp st hst hn
  exact hq st a st' hmatch hst hr st hst hn

theorem Reads.exists_run (hp : C.Reads p n s V m r) (hn : ∃ k, C.Meets n k) :
    ∃ st a st', p st = .matched a st' ∧ V a ∧ st.rest = s ∧ st'.rest = r := by
  obtain ⟨k, hk⟩ := hn
  obtain ⟨a, st', hmatch, ha, hr, -⟩ := hp { rest := s, offset := k } rfl hk
  exact ⟨_, a, st', hmatch, ha, rfl, hr⟩

/-- The text a reader takes tells how far it goes. -/
theorem reads_of_passes (h : Takes p (t ++ r) V r)
    (hp : ∀ {st a st'}, p st = .matched a st' → ∃ u, st.Passes u st') :
    C.Reads p n (t ++ r) V (n + t.byteSize) r := by
  intro st hst hn
  obtain ⟨a, st', hmatch, ha, hr⟩ := h st hst
  obtain ⟨u, hu⟩ := hp hmatch
  obtain rfl : u = t := List.append_cancel_right (hr ▸ hu.1.symm.trans hst)
  exact ⟨a, st', hmatch, ha, hr, hu.2 ▸ hn.add _⟩

theorem reads_of_meets (h : (∃ k, C.Meets n k) → C.Reads p n s V m r) : C.Reads p n s V m r :=
  fun st hst hn => h ⟨st.offset, hn⟩ st hst hn

theorem Reads.bind (hp : C.Reads p n s V m t) (hf : ∀ a, V a → C.Reads (f a) m t W k r) :
    C.Reads (p >>= f) n s W k r := by
  intro st hst hn
  obtain ⟨a, st₁, hmatch, ha, ht, hm⟩ := hp st hst hn
  obtain ⟨b, st', hmatch', hb, hr⟩ := hf a ha st₁ ht hm
  exact ⟨b, st', bind_eq_matched.2 ⟨a, st₁, hmatch, hmatch'⟩, hb, hr⟩

theorem Reads.orElse (hp : C.Reads p n s V m r) : C.Reads (p <|> q) n s V m r := by
  intro st hst hn
  obtain ⟨a, st', hmatch, ha, hr⟩ := hp st hst hn
  exact ⟨a, st', orElse_eq_matched.2 (.inl hmatch), ha, hr⟩

theorem Reads.orElse_right (hp : Refuses p s) (hq : C.Reads q n s V m r) :
    C.Reads (p <|> q) n s V m r := by
  intro st hst hn
  obtain ⟨fs, hfail⟩ := hp st hst
  obtain ⟨a, st', hmatch, ha, hr⟩ := hq { st with failures := fs } hst hn
  exact ⟨a, st', orElse_eq_matched.2 (.inr ⟨fs, hfail, hmatch⟩), ha, hr⟩

theorem Reads.optional (hp : C.Reads p n s V m r) :
    C.Reads (optional p) n s (fun o => ∃ a, o = some a ∧ V a) m r :=
  .orElse (.bind hp fun a ha => reads_pure ⟨a, rfl, ha⟩)

theorem reads_optional_none (hp : Refuses p s) :
    C.Reads (Reader.optional p) n s (· = none) n s :=
  .orElse_right hp.bind (reads_pure rfl)

theorem reads_ahead : C.Reads ahead n s (· = s) n s :=
  fun st hst hn => ⟨st.rest, st, rfl, hst, hst, hn⟩

theorem Reads.located {p : Reader (ByteRange → α)}
    (hp : C.Reads p n s (fun f => ∀ range, C.new range = C.old ⟨n, m⟩ → V (f range)) m r) :
    C.Reads (located p) n s V m r := by
  intro st hst hn
  obtain ⟨f, st', hmatch, hf, hr, hm⟩ := hp st hst hn
  refine ⟨f ⟨st.offset, st'.offset⟩, st', ?_, hf _ (new_eq_old hn hm), hr, hm⟩
  exact bind_eq_matched.2 ⟨_, st, rfl, bind_eq_matched.2 ⟨f, st', hmatch, rfl⟩⟩

theorem reads_many_nil (hp : Refuses p s) : C.Reads (many p) n s (· = []) n s := by
  intro st hst hn
  obtain ⟨fs, hfail⟩ := hp st hst
  refine ⟨[], { st with failures := fs }, ?_, rfl, hst, hn⟩
  rw [many.eq_def, hfail]

theorem Reads.many {W : List α → Prop} (hp : C.Reads p n s V m t) (hlt : t.length < s.length)
    (hs : C.Reads (many p) m t W k r) :
    C.Reads (many p) n s (fun as => ∃ a as', as = a :: as' ∧ V a ∧ W as') k r := by
  intro st hst hn
  obtain ⟨a, st₁, hmatch, ha, ht, hm⟩ := hp st hst hn
  obtain ⟨as, st', hmany, has, hr⟩ := hs st₁ ht hm
  refine ⟨a :: as, st', ?_, ⟨a, as, rfl, ha, has⟩, hr⟩
  have hremaining : st₁.remaining < st.remaining := by
    rwa [st₁.remaining_eq, st.remaining_eq, hst, ht]
  rw [many.eq_def, hmatch]
  simp only [if_pos hremaining, hmany]

end

section Tokens

variable {n m : Nat} {c : Char} {s t l x F : Text}

theorem reads_advance (n : Nat) (t F : Text) :
    C.Reads (advance t.length) n (t ++ F) (fun _ => True) (n + t.byteSize) F := by
  intro st hst hn
  refine ⟨(), st.advance t.length, rfl, trivial, ?_, ?_⟩
  · change st.rest.drop t.length = F
    rw [hst, List.drop_left]
  · change C.Meets _ (st.offset + Text.byteSize (st.rest.take t.length))
    rw [hst, List.take_left]
    exact hn.add _

theorem reads_symbol (n : Nat) (c : Char) (s : Text) :
    C.Reads (symbol c) n (c :: s) (fun _ => True) (n + c.utf8Size) s := by
  refine reads_ahead.bind ?_
  rintro _ rfl
  rw [if_pos List.head?_cons]
  exact reads_advance n [c] s

theorem reads_accepts (n : Nat) (c : Char) (i : Bool) (h : i = false → Next (· ≠ c) s) :
    C.Reads (accepts c) n ((if i then [c] else []) ++ s) (· = i)
      (n + Text.byteSize (if i then [c] else [])) s := by
  cases i with
  | true =>
      change C.Reads (accepts c) n (c :: s) (· = true) (n + Text.byteSize [c]) s
      refine reads_ahead.bind ?_
      rintro _ rfl
      rw [if_pos List.head?_cons]
      exact (reads_advance n [c] s).bind fun _ _ => reads_pure rfl
  | false =>
      refine reads_ahead.bind ?_
      rintro _ rfl
      have hne : ¬ (List.head? _ = some c) := fun hc => h rfl c hc rfl
      rw [if_neg hne]
      exact reads_pure rfl

theorem reads_operator {symbolOf : α → Char} (hinj : ∀ a b, symbolOf a = symbolOf b → a = b)
    {as : List α} {a : α} (ha : a ∈ as) (n : Nat) (s : Text) :
    C.Reads (operator symbolOf as) n (symbolOf a :: s) (· = a) (n + (symbolOf a).utf8Size) s := by
  induction as with
  | nil => cases ha
  | cons b as ih =>
      by_cases hab : b = a
      · subst hab
        exact .orElse ((reads_symbol n _ s).bind fun _ _ => reads_pure rfl)
      · refine .orElse_right (Refuses.bind (refuses_symbol ?_)) (ih ?_)
        · simpa using fun h => hab (hinj a b h).symm
        · exact (List.mem_cons.1 ha).resolve_left (Ne.symm hab)

theorem reads_lexeme {description : String} {recognize : Text → Option (Lexeme α)} {v : α}
    (h : recognize (t ++ F) = some ⟨v, t.length⟩) (n : Nat) :
    C.Reads (lexeme description recognize) n (t ++ F)
      (fun token => token.value = v ∧ C.new token.range = C.old ⟨n, n + t.byteSize⟩)
      (n + t.byteSize) F := by
  refine reads_ahead.bind ?_
  rintro _ rfl
  rw [h]
  exact .located ((reads_advance n t F).bind fun _ _ => reads_pure fun _ hrange => ⟨rfl, hrange⟩)

theorem reads_classBody {body : ClassBody}
    (h : ClassBody.classBody (t ++ F) = .ok (some ⟨body, t.length⟩)) (n : Nat) :
    C.Reads classBody n (t ++ F) (· = body) (n + t.byteSize) F := by
  intro st hst hn
  obtain ⟨_, st', ⟨⟩, -, hrest, hm⟩ := reads_advance n t F st hst hn
  exact ⟨body, _, by rw [classBody, hst, h], rfl, hrest, hm⟩

theorem reads_codeBlock {code : String} (h : Balanced code.toList) (n : Nat) (F : Text) :
    C.Reads codeBlock n ('{' :: (code.toList ++ ['}']) ++ F)
      (fun token => token.value = code ∧
        C.new token.range = C.old ⟨n + 1, n + 1 + Text.byteSize code.toList⟩)
      (n + Text.byteSize ('{' :: (code.toList ++ ['}']))) F := by
  have htext : '{' :: (code.toList ++ ['}']) ++ F = ['{'] ++ (code.toList ++ (['}'] ++ F)) := by simp
  have hsize : n + Text.byteSize ('{' :: (code.toList ++ ['}'])) =
      n + Text.byteSize ['{'] + Text.byteSize code.toList + Text.byteSize ['}'] := by
    simp [Nat.add_assoc]
  rw [htext, hsize]
  refine reads_ahead.bind ?_
  rintro _ rfl
  have hfound : CodeBlock.codeBlock (['{'] ++ (code.toList ++ (['}'] ++ F))) = some code.toList :=
    CodeBlock.codeBlock_eq_some_iff.2 ⟨h, F, rfl⟩
  rw [hfound]
  refine (reads_advance n ['{'] _).bind fun _ _ => ?_
  have hblock : C.Reads (located do
      advance code.toList.length
      return (⟨String.ofList code.toList, ·⟩ : ByteRange → Token String))
      (n + Text.byteSize ['{']) (code.toList ++ (['}'] ++ F))
      (fun token => token.value = code ∧
        C.new token.range = C.old ⟨n + 1, n + 1 + Text.byteSize code.toList⟩)
      (n + Text.byteSize ['{'] + Text.byteSize code.toList) (['}'] ++ F) := by
    refine .located ((reads_advance _ code.toList _).bind fun _ _ => reads_pure fun range h => ?_)
    exact ⟨String.ofList_toList, h⟩
  exact hblock.bind fun token htoken => (reads_advance _ ['}'] F).bind fun _ _ => reads_pure htoken

theorem reads_trivia_of_blank (hl : Blank l) (hx : skipTrivia x = x)
    (hsize : C.blank = [] → n + l.byteSize = m) :
    C.Reads trivia n (l ++ x) (fun _ => True) m x := by
  intro st hst hn
  obtain ⟨_, st', hmatch, -, hrest⟩ := takes_trivia st hst
  rw [hl, hx] at hrest
  obtain ⟨u, -, hp⟩ := trivia_eq_matched hmatch
  have hu : u = l := List.append_cancel_right (hrest ▸ hp.1.symm.trans hst)
  refine ⟨(), st', hmatch, trivial, hrest, fun hblank => ?_⟩
  rw [hp.2, hu, ← hsize hblank, hn hblank]
  omega

/-- A gap between tokens, with what is put in at its ends. -/
theorem reads_trivia (hm : n + l.byteSize = m) (hl : Blank l) (hclear : C.Clear n m) (ht : t ≠ [])
    (hx : skipTrivia (C.tight m t ++ F) = C.tight m t ++ F) :
    C.Reads trivia n (C.laid n (l ++ t) ++ F) (fun _ => True) m (C.tight m t ++ F) := by
  rw [laid_gap hm ht]
  refine reads_trivia_of_blank (blank_gap hm hl hclear) hx fun hblank => ?_
  rw [pad_of_blank hblank, List.append_nil, byteSize_laid hblank, hm]

end Tokens

end Relayout

end PegGrammar
