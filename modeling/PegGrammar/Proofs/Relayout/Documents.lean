import PegGrammar.Proofs.Relayout.Rules
import PegGrammar.Proofs.Rereading.Documents

namespace PegGrammar

open Reader

theorem skipTrivia_of_next {s : Text} (h : Next IsNameHead s) : skipTrivia s = s := by
  cases s with
  | nil => exact skipTrivia_nil
  | cons c s => exact skipTrivia_solid (solid_of_opens (opens_of_isNameHead (h c rfl))) s

namespace Relayout

variable {C : Relayout} {st st' st₀ st₁ st₂ st₃ : State} {s t u l e p x y : Text} {n m k : Nat}
  {r : Rule ByteRange} {rs : List (Rule ByteRange)}

/-- What is ahead in the new document after trivia, the old one being `N` long. -/
def beyond (C : Relayout) (N : Nat) (st : State) : Text :=
  skipTrivia (C.laid st.offset st.rest ++ C.pad N)

theorem pad_of_clear (h : C.Clear n m) (hn : n < k) (hm : k < m) : C.pad k = [] := by
  rcases h with h | h | h
  · exact pad_of_blank h k
  · exact pad_of_ne (by omega)
  · exact pad_of_ne (by omega)

section Statements

variable {N : Nat}

theorem beyond_nil (h : st.rest = []) : C.beyond N st = [] := by
  rw [beyond, h, laid, List.nil_append, ← List.append_nil (C.pad N), blank_pad N, skipTrivia_nil]

theorem beyond_passes (hp : st.Passes t st₁) (ht : t ≠ [])
    (hskip : skipTrivia (C.tight st.offset t ++ (C.laid st₁.offset st₁.rest ++ C.pad N)) =
      C.tight st.offset t ++ (C.laid st₁.offset st₁.rest ++ C.pad N)) :
    C.beyond N st = C.tight st.offset t ++ (C.laid st₁.offset st₁.rest ++ C.pad N) := by
  rw [beyond, hp.1, laid_passes hp, laid_eq ht, List.append_assoc, List.append_assoc, blank_pad, hskip]

theorem exists_laid (h : C.Clear n (n + t.byteSize)) :
    ∃ p, (∀ c ∈ p, isSpace c = true ∨ isLineTerminator c = true) ∧ C.laid n t = p ++ t := by
  by_cases ht : t = []
  · exact ⟨[], nofun, by rw [ht]; rfl⟩
  · exact ⟨C.pad n, fun _ => isSpace_or_isLineTerminator_of_mem_pad,
      by rw [laid_eq ht, tight_of_clear h]⟩

variable (hend : statementEnd st = .matched () st₁) (he : st.Passes e st₁) (hl : Gap l st₂.rest)
  (hpl : st₁.Passes l st₂)

include hl hpl in
theorem skipTrivia_laid_gap (hclear : C.Clear st₁.offset st₂.offset)
    (hlast : st₂.rest = [] → l = [] ∨ C.pad N = []) :
    skipTrivia (C.laid st₁.offset st₁.rest ++ C.pad N) = C.beyond N st₂ := by
  have hclear : C.Clear st₁.offset (st₁.offset + l.byteSize) := hpl.2 ▸ hclear
  by_cases hw : st₂.rest = []
  · rw [beyond_nil hw]
    rcases hlast hw with rfl | hpad
    · exact beyond_nil (hpl.eq_rest ▸ hw)
    · obtain ⟨p, hp, hlaid⟩ := exists_laid hclear
      have hskip := hl.skip
      rw [hw, List.append_nil] at hskip
      rw [hpad, hpl.1, hw, List.append_nil, List.append_nil, hlaid, blank_of_forall hp, hskip]
  · rw [beyond, hpl.1, laid_append, ← hpl.2, List.append_assoc]
    exact blank_laid hclear (hl.blank hw) _

include he in
theorem laid_statement (hclear : C.Clear st.offset st₁.offset) (y : Text) :
    ∃ p, (∀ c ∈ p, isSpace c = true ∨ isLineTerminator c = true) ∧
      C.laid st.offset st.rest ++ y = p ++ (e ++ (C.laid st₁.offset st₁.rest ++ y)) := by
  obtain ⟨p, hp, hlaid⟩ := exists_laid (he.2 ▸ hclear)
  refine ⟨p, hp, ?_⟩
  rw [he.1, laid_append, ← he.2, hlaid]
  simp only [List.append_assoc]

variable (hclear : C.Clear st.offset st₂.offset)
  (hlast : st₂.rest = [] → (e = [] ∧ l = []) ∨ C.pad N = [])

include hend he hl hpl hclear hlast

omit hend he hl hclear in
/-- At the end of the document nothing else is put in behind an unfinished comment. -/
theorem skipTrivia_laid_last (hrest : st₁.rest = []) (ht : Gap e []) :
    skipTrivia (C.laid st₁.offset st₁.rest ++ C.pad N) = [] ∧
      skipTrivia (e ++ (C.laid st₁.offset st₁.rest ++ C.pad N)) = [] := by
  have hnil : skipTrivia (C.laid st₁.offset st₁.rest ++ C.pad N) = [] := beyond_nil hrest
  refine ⟨hnil, ?_⟩
  rw [hpl.1, List.append_eq_nil_iff] at hrest
  rcases hlast hrest.2 with ⟨rfl, -⟩ | hpad
  · exact hnil
  · rw [hpl.1, hrest.1, hrest.2, hpad]
    exact ht.skip

theorem takes_statementEnd_laid (hnext : Next (· ≠ ';') (C.beyond N st₂)) :
    ∃ r, Takes statementEnd (C.laid st.offset st.rest ++ C.pad N) (fun _ => True) r ∧
      skipTrivia r = C.beyond N st₂ := by
  obtain ⟨p, hp, htext⟩ := laid_statement he (hclear.mono (Nat.le_refl _) hpl.offset_le) (C.pad N)
  have hskip := skipTrivia_laid_gap hl hpl (hclear.mono he.offset_le (Nat.le_refl _))
    fun hw => (hlast hw).imp_left And.right
  rw [htext, ← hskip]
  exact takes_statementEnd_again hend he hp (by rwa [hskip])
    (skipTrivia_laid_last hpl hlast)

theorem expressionEnd_laid (hnext : st₂.rest = [] ∨ SameHeader st₂.rest (C.beyond N st₂)) :
    ExpressionEnd st.rest (C.laid st.offset st.rest ++ C.pad N) := by
  obtain ⟨p, hp, htext⟩ := laid_statement he (hclear.mono (Nat.le_refl _) hpl.offset_le) (C.pad N)
  have hskip := skipTrivia_laid_gap hl hpl (hclear.mono he.offset_le (Nat.le_refl _))
    fun hw => (hlast hw).imp_left And.right
  have hrest : skipTrivia st₁.rest = st₂.rest := by rw [hpl.1, hl.skip]
  rw [htext]
  refine expressionEnd_statement hend he hp (fun hnil => ?_) ?_ ?_
  · rw [rest_of_statementEnd hend he hnil, laid, List.nil_append]
    exact fun _ => isSpace_or_isLineTerminator_of_mem_pad
  · rw [hrest]
    rcases hnext with hw | h
    · rw [hw]
      rintro c ⟨⟩
    · exact h.next.1
  · rcases statementEnd_cases hend he with ⟨k, rfl, hk⟩ | ht | ⟨hlast', ht⟩
    · left
      rw [List.append_assoc, hk.blank (List.cons_ne_nil _ _)]
      exact next_skipTrivia (by decide) rfl
    · rw [blank_lineText ht, hskip, he.1, blank_lineText ht, hrest]
      refine hnext.imp_left fun hw => ?_
      rw [beyond_nil hw]
      rintro c ⟨⟩
    · left
      rw [(skipTrivia_laid_last hpl hlast hlast' ht).2]
      rintro c ⟨⟩

end Statements

section Rules

variable (hblank : C.blank ≠ [])

include hblank

theorem reads_of_takes {α : Type} {q : Reader α} {V : α → Prop} (h : Takes q s V t) :
    C.Reads q n s V m t := by
  intro st hst _
  obtain ⟨a, st', hmatch, ha, hrest⟩ := h st hst
  exact ⟨a, st', hmatch, ha, hrest, fun hnil => (hblank hnil).elim⟩

theorem Reads.thenTrivia {α : Type} {q : Reader α} {V : α → Prop} (h : C.Reads q n s V m t) :
    C.Reads (thenTrivia q) n s V k (skipTrivia t) :=
  h.bind fun _ ha => (reads_of_takes hblank takes_trivia).bind fun _ _ => reads_pure ha

theorem reads_rule_laid {N : Nat} (h : thenTrivia rule st = .matched r st')
    (hallow : C.Allows r.anchors st.offset st'.offset)
    (hlast : st'.rest = [] → st'.offset = N ∧ C.Allows r.anchors st.offset (N + 1))
    (hnext : st'.rest = [] ∨ SameHeader st'.rest (C.beyond N st')) :
    C.Reads (thenTrivia rule) st.offset (C.beyond N st) (C.SameRule r) st'.offset
        (C.beyond N st') ∧ SameHeader st.rest (C.beyond N st) := by
  obtain ⟨st₁, l, hrule, hl, hpl⟩ := thenTrivia_eq_matched h
  obtain ⟨d, st₀, hd, hend, rfl⟩ := rule_eq_defined hrule
  obtain ⟨e, -, he⟩ := statementEnd_eq_matched hend
  obtain ⟨t, ht, hp, hwithin⟩ := definition_passes hd
  have hstart : ∀ x ∈ (d.rule ⟨st.offset, st₁.offset⟩).anchors, x.start ≤ st₀.offset := by
    intro x hx
    rcases Definition.mem_anchors hx with rfl | hx
    · exact hp.offset_le
    · exact (hwithin x hx).2
  have hclear : C.Clear st₀.offset st'.offset :=
    hallow.clear hp.offset_le (Nat.le_refl _) fun x hx => .inl (hstart x hx)
  have hlast' : st'.rest = [] → (e = [] ∧ l = []) ∨ C.pad N = [] := by
    intro hrest
    obtain ⟨rfl, hallow⟩ := hlast hrest
    have hpass := (he.trans hpl).2
    by_cases hend : st₀.offset = st'.offset
    · have hsize : Text.byteSize (e ++ l) = 0 := by omega
      exact .inl (List.append_eq_nil_iff.1 (StandsAt.eq_nil_of_byteSize_eq_zero hsize))
    · refine .inr (pad_of_clear (hallow.clear hp.offset_le (Nat.le_refl _) fun x hx =>
        .inl (hstart x hx)) ?_ (Nat.lt_succ_self _))
      omega
  have hend' := expressionEnd_laid hend he hl hpl hclear hlast' hnext
  obtain ⟨hreads, hheader⟩ := keeps_definition hd hp hend'
    (hallow.part (Nat.le_refl _) (he.trans hpl).offset_le fun x hx => by
      rcases Definition.mem_anchors hx with rfl | hx
      · exact .inr (.inl (Nat.le_refl _))
      · exact .inl hx)
  obtain ⟨y, htakes, hy⟩ := takes_statementEnd_laid hend he hl hpl hclear hlast' (by
    rcases hnext with hrest | hnext
    · rw [beyond_nil hrest]
      exact nofun
    · exact hnext.next.2.imp fun c hc => hc.ne (by decide) (by decide))
  have htext := beyond_passes hp ht (skipTrivia_of_next hheader.next.2)
  rw [htext]
  refine ⟨?_, hheader⟩
  rw [← hy]
  exact (reads_rule hreads (reads_of_takes hblank htakes)).thenTrivia hblank

theorem reads_rules (h : Runs (thenTrivia rule) st rs st') (hrest : st'.rest = [])
    (hallow : C.Allows (rs.flatMap Rule.anchors) st.offset (st'.offset + 1)) :
    C.Reads (many (thenTrivia rule)) st.offset (C.beyond st'.offset st)
        (fun rs' => rs'.map (Rule.map C.new) = rs.map (Rule.map C.old)) st'.offset [] ∧
      (st.rest = [] ∨ SameHeader st.rest (C.beyond st'.offset st)) := by
  induction h with
  | @nil st st' hp =>
      have hnil : st.rest = [] := hp.eq_rest ▸ hrest
      rw [beyond_nil hnil, hp.eq_offset]
      refine ⟨(reads_many_nil (refuses_rule_of_name rfl).bind).imp ?_, .inl hnil⟩
      rintro _ rfl
      rfl
  | @cons st st₁ st' r rs h hs ih =>
      obtain ⟨st₀, l, hrule, -, hl⟩ := thenTrivia_eq_matched h
      obtain ⟨t, ht⟩ := (places_rule hrule).1
      have hwithin := startWithin_rule hrule
      have hothers := startWithin_rules hs
      obtain ⟨⟨v, hv⟩, -⟩ := places_rules hs
      have hp := ht.trans hl
      obtain ⟨hmany, hnext⟩ := ih hrest (hallow.part hp.offset_le (Nat.le_refl _) <|
        List.forall_mem_append.2 ⟨fun x hx => .inr (.inl ((hwithin x hx).2.trans hl.offset_le)),
          fun x hx => .inl hx⟩)
      have hlast : st₁.rest = [] →
          st₁.offset = st'.offset ∧ C.Allows r.anchors st.offset (st'.offset + 1) := by
        intro hnil
        cases hs with
        | nil hend => exact ⟨hend.eq_offset.symm, by simpa using hallow⟩
        | cons h => exact (rest_ne_nil_of_rule h hnil).elim
      obtain ⟨hreads, hheader⟩ := reads_rule_laid hblank h
        (hallow.part (Nat.le_refl _) (hv.offset_le.trans (Nat.le_succ _)) <|
          List.forall_mem_append.2 ⟨fun x hx => .inl hx, fun x hx => .inr (.inr (hothers x hx).1)⟩)
        hlast hnext
      refine ⟨(hreads.many ?_ hmany).imp ?_, .inr hheader⟩
      · obtain ⟨st₂, r', st₃, hmatch, -, hrest₂, hrest₃⟩ :=
          hreads.exists_run ⟨0, fun hnil => (hblank hnil).elim⟩
        have hlt := remaining_lt_of_rule hmatch
        rwa [st₂.remaining_eq, st₃.remaining_eq, hrest₂, hrest₃] at hlt
      · rintro _ ⟨r', rs', rfl, hsame, hrs⟩
        exact congrArg₂ List.cons hsame hrs

end Rules

section Initializers

variable {N : Nat} {i : Initializer ByteRange} {o : Option (Initializer ByteRange)}

theorem beyond_solid {c : Char} (hp : st.Passes (c :: t) st₁) (hc : Solid c)
    (hclear : C.Clear st.offset st₁.offset) :
    C.beyond N st = c :: t ++ (C.laid st₁.offset st₁.rest ++ C.pad N) := by
  have htight : C.tight st.offset (c :: t) = c :: t := tight_of_clear (hp.2 ▸ hclear)
  rw [beyond_passes hp (List.cons_ne_nil c t), htight]
  rw [htight]
  exact skipTrivia_solid hc _

variable (hblank : C.blank ≠ []) (hclear : C.Clear st.offset st'.offset) (hne : st'.rest ≠ [])
  (hnext : Next (· ≠ ';') (C.beyond N st'))

include hblank hclear hne hnext

theorem reads_initializer_laid (h : thenTrivia initializer st = .matched i st') :
    (∃ F, Balanced i.code.toList ∧ C.beyond N st = Printer.block i.code ++ F) ∧
      C.Reads (thenTrivia initializer) st.offset (C.beyond N st)
        (fun i' => i'.map C.new = i.map C.old) st'.offset (C.beyond N st') := by
  obtain ⟨st₁, l, hinit, hl, hpl⟩ := thenTrivia_eq_matched h
  obtain ⟨st₀, hblock, hend, hloc⟩ := initializer_eq_matched hinit
  obtain ⟨e, -, he⟩ := statementEnd_eq_matched hend
  have hpass := he.trans hpl
  obtain ⟨y, htakes, hy⟩ := takes_statementEnd_laid hend he hl hpl
    (hclear.mono hblock.passes.offset_le (Nat.le_refl _)) (fun hnil => (hne hnil).elim) hnext
  have htext : C.beyond N st = Printer.block i.code ++ _ := beyond_solid hblock.passes (by decide)
    (hclear.mono (Nat.le_refl _) hpass.offset_le)
  refine ⟨⟨_, hblock.balanced, htext⟩, ?_⟩
  rw [htext, ← hy]
  refine Reads.thenTrivia (m := st₁.offset) hblank (.located ?_)
  refine (reads_block hblock _).bind fun token htoken => ?_
  refine (reads_of_takes hblank htakes).bind fun _ _ => reads_pure fun range hrange => ?_
  rw [Initializer.map, Initializer.map, htoken.1, htoken.2, hrange, hloc]

theorem reads_topLevel_laid (h : thenTrivia topLevelInitializer st = .matched i st') :
    C.Reads (thenTrivia topLevelInitializer) st.offset (C.beyond N st)
      (fun i' => i'.map C.new = i.map C.old) st'.offset (C.beyond N st') := by
  obtain ⟨st₁, l, hinit, hl, hpl⟩ := thenTrivia_eq_matched h
  obtain ⟨st₂, st₃, st₀, hopen, hblock, hclose, hend, hloc⟩ := topLevelInitializer_eq_matched hinit
  obtain ⟨e, -, he⟩ := statementEnd_eq_matched hend
  have hpass := he.trans hpl
  have hbraces := hopen.trans_cons (hblock.passes.trans hclose)
  obtain ⟨y, htakes, hy⟩ := takes_statementEnd_laid hend he hl hpl
    (hclear.mono hbraces.offset_le (Nat.le_refl _)) (fun hnil => (hne hnil).elim) hnext
  have htext := beyond_solid (N := N) hbraces (by decide) (hclear.mono (Nat.le_refl _) hpass.offset_le)
  have hsymbol : st.offset + '{'.utf8Size = st₂.offset := hopen.2.symm
  have hbody : C.beyond N st =
      '{' :: (Printer.block i.code ++ '}' :: (C.laid st₀.offset st₀.rest ++ C.pad N)) := by
    rw [htext]
    simp [Printer.block]
  rw [hbody, ← hy]
  refine Reads.thenTrivia (m := st₁.offset) hblank (.located ?_)
  refine (reads_symbol st.offset '{' _).bind fun _ _ => ?_
  rw [hsymbol]
  refine (reads_block hblock _).bind fun token htoken => (reads_symbol _ '}' _).bind fun _ _ => ?_
  refine (reads_of_takes hblank htakes).bind fun _ _ => reads_pure fun range hrange => ?_
  rw [Initializer.map, Initializer.map, htoken.1, htoken.2, hrange, hloc]

end Initializers

section Documents

variable {N : Nat} {g : Grammar ByteRange}

theorem beyond_none {α : Type} {q : Reader α} (h : optional q st = .matched none st') :
    C.beyond N st' = C.beyond N st := by
  rcases optional_eq_matched h with ⟨_, ⟨⟩, -⟩ | ⟨-, hp⟩
  rw [beyond, beyond, hp.eq_rest, hp.eq_offset]

theorem reads_optional {q : Reader (Initializer ByteRange)} {o : Option (Initializer ByteRange)}
    (h : optional (thenTrivia q) st = .matched o st')
    (hsome : ∀ i, thenTrivia q st = .matched i st' →
      C.Reads (thenTrivia q) st.offset (C.beyond N st) (fun i' => i'.map C.new = i.map C.old)
        st'.offset (C.beyond N st'))
    (hnone : o = none → Refuses q (C.beyond N st)) :
    C.Reads (optional (thenTrivia q)) st.offset (C.beyond N st)
      (fun o' => o'.map (Initializer.map C.new) = o.map (Initializer.map C.old)) st'.offset
      (C.beyond N st') := by
  rcases optional_eq_matched h with ⟨i, rfl, hi⟩ | ⟨rfl, hp⟩
  · apply (hsome i hi).optional.imp
    rintro _ ⟨i', rfl, hsame⟩
    exact congrArg some hsame
  · rw [beyond_none h, hp.eq_offset]
    apply (reads_optional_none (hnone rfl).bind).imp
    rintro _ rfl
    rfl

theorem reads_perParse {o : Option (Initializer ByteRange)} (hblank : C.blank ≠ [])
    (h : optional (thenTrivia initializer) st = .matched o st')
    (hclear : C.Clear st.offset st'.offset) (hne : st'.rest ≠ [])
    (hhead : Next IsNameHead (C.beyond N st')) :
    C.Reads (optional (thenTrivia initializer)) st.offset (C.beyond N st)
        (fun o' => o'.map (Initializer.map C.new) = o.map (Initializer.map C.old)) st'.offset
        (C.beyond N st') ∧
      Next (· ≠ ';') (C.beyond N st) ∧
      ((∀ i ∈ o, ¬ i.Doubled) → Refuses topLevelInitializer (C.beyond N st)) := by
  have hbrace : Next (· ≠ '{') (C.beyond N st') :=
    hhead.imp fun c hc => hc.ne (by decide) (by decide)
  have hnext : Next (· ≠ ';') (C.beyond N st') :=
    hhead.imp fun c hc => hc.ne (by decide) (by decide)
  have hreads := reads_optional h
    (fun i hi => (reads_initializer_laid hblank hclear hne hnext hi).2) (by
      rintro rfl
      rw [← beyond_none h]
      exact refuses_initializer hbrace)
  refine ⟨hreads, ?_⟩
  cases o with
  | none =>
      rw [← beyond_none h]
      exact ⟨hnext, fun _ => refuses_topLevel hbrace⟩
  | some i =>
      obtain ⟨_, ⟨⟩, hi⟩ | ⟨⟨⟩, -⟩ := optional_eq_matched h
      obtain ⟨⟨F, hbalanced, htext⟩, -⟩ := reads_initializer_laid hblank hclear hne hnext hi
      rw [htext]
      exact ⟨next_cons (by decide), fun hdoubled =>
        refuses_topLevel_of_not_doubled hbalanced (hdoubled i rfl) F⟩

theorem start_optional {q : Reader (Initializer ByteRange)} {o : Option (Initializer ByteRange)}
    (hq : ∀ {st i st'}, q st = .matched i st' → i.location.start = st.offset)
    (h : optional (thenTrivia q) st = .matched o st') : ∀ i ∈ o, i.location.start = st.offset := by
  rcases optional_eq_matched h with ⟨i, rfl, hi⟩ | ⟨rfl, -⟩
  · obtain ⟨st₁, -, hi, -⟩ := thenTrivia_eq_matched hi
    simpa using hq hi
  · simp

theorem start_anchors (htop : optional (thenTrivia topLevelInitializer) st₁ = .matched g.topLevel st₂)
    (hinit : optional (thenTrivia initializer) st₂ = .matched g.perParse st₃)
    (hloc : g.location = ⟨n, m⟩) :
    ∀ x ∈ g.anchors, x ∈ g.rules.flatMap Rule.anchors ∨ x.start = n ∨ x.start = st₁.offset ∨
      x.start = st₂.offset := by
  have htop := start_optional (fun h => by
    obtain ⟨_, _, _, -, -, -, -, hloc⟩ := topLevelInitializer_eq_matched h
    rw [hloc]) htop
  have hinit := start_optional (fun h => by
    obtain ⟨_, -, -, hloc⟩ := initializer_eq_matched h
    rw [hloc]) hinit
  refine List.forall_mem_cons.2 ⟨.inr (.inl (by rw [hloc])), List.forall_mem_append.2
    ⟨fun x hx => ?_, fun x hx => .inl hx⟩⟩
  obtain ⟨i, hi, rfl⟩ := List.mem_map.1 hx
  rcases List.mem_append.1 hi with hi | hi
  · exact .inr (.inr (.inl (htop i (Option.mem_toList.1 hi))))
  · exact .inr (.inr (.inr (hinit i (Option.mem_toList.1 hi))))

/-- A document is read in which something blank has been put in at one of its anchors. -/
theorem reads_document (hblank : C.blank ≠ []) (h : document st = .matched g st')
    (hrest : st'.rest = []) (hallow : C.Allows g.anchors st.offset (st'.offset + 1)) :
    C.Reads document st.offset (C.laid st.offset st.rest ++ C.pad st'.offset)
      (fun g' => g'.map C.new = g.map C.old) st'.offset [] := by
  have hdoubled := not_doubled_of_document h
  obtain ⟨l, st₁, st₂, st₃, hl, hpl, htop, hinit, hrules, hne, hloc⟩ := document_eq_matched h
  obtain ⟨⟨t, ht⟩, -⟩ := places_optional places_topLevelInitializer htop
  obtain ⟨⟨u, hu⟩, -⟩ := places_optional places_initializer hinit
  obtain ⟨⟨v, hv⟩, -⟩ := places_rules hrules
  have hstart := start_anchors htop hinit hloc
  have hwithin := startWithin_rules hrules
  have hle₁ := hpl.offset_le
  have hle₂ := ht.offset_le
  have hle₃ := hu.offset_le
  have hle₄ := hv.offset_le
  have hclear {a b : Nat} (ha : st.offset ≤ a) (hb : b ≤ st₃.offset)
      (h₁ : st₁.offset ≤ a ∨ b ≤ st₁.offset) (h₂ : st₂.offset ≤ a ∨ b ≤ st₂.offset) :
      C.Clear a b := by
    refine hallow.clear ha (by omega) fun x hx => ?_
    rcases hstart x hx with hx | hx
    · exact .inr (hb.trans (hwithin x hx).1)
    · omega
  obtain ⟨hrulesReads, hheader⟩ := reads_rules hblank hrules hrest
    (hallow.part (by omega) (Nat.le_refl _) fun x hx => (hstart x hx).imp_right fun hx => .inl (by omega))
  have hfilled : st₃.rest ≠ [] := by
    generalize g.rules = rs at hrules hne
    cases hrules with
    | nil => exact (hne rfl).elim
    | cons h => exact rest_ne_nil_of_rule h
  obtain ⟨hinitReads, hnext, hrefuses⟩ := reads_perParse hblank hinit
    (hclear (by omega) (Nat.le_refl _) (by omega) (by omega)) hfilled
    (hheader.resolve_left hfilled).next.2
  have hfilled₂ : st₂.rest ≠ [] := by
    rw [hu.1]
    exact List.append_ne_nil_of_right_ne_nil _ hfilled
  have htopReads := reads_optional (N := st'.offset) htop (fun i hi =>
    reads_topLevel_laid hblank (hclear (by omega) (by omega) (by omega) (by omega)) hfilled₂ hnext hi)
    (fun hnone => by
      rw [hnone] at htop
      rw [← beyond_none htop]
      exact hrefuses (hdoubled hnone))
  have hskip : skipTrivia (C.laid st.offset st.rest ++ C.pad st'.offset) = C.beyond st'.offset st₁ := by
    refine skipTrivia_laid_gap hl hpl (hclear (Nat.le_refl _) (by omega) (by omega) (by omega)) ?_
    intro hnil
    rw [ht.1, List.append_eq_nil_iff] at hnil
    exact (hfilled₂ hnil.2).elim
  have htrivia : Takes trivia (C.laid st.offset st.rest ++ C.pad st'.offset) (fun _ => True)
      (C.beyond st'.offset st₁) := hskip ▸ takes_trivia
  refine .located ((reads_of_takes (m := st₁.offset) hblank htrivia).bind fun _ _ => ?_)
  refine htopReads.bind fun top hsameTop => hinitReads.bind fun init hsameInit => ?_
  refine hrulesReads.bind fun rules hsameRules => ?_
  split
  next => exact (hne (List.map_eq_nil_iff.1 hsameRules.symm)).elim
  next =>
    refine reads_pure fun range hrange => ?_
    rw [Grammar.map, Grammar.map, hsameTop, hsameInit, hsameRules, hrange, hloc]

end Documents

end Relayout

end PegGrammar
