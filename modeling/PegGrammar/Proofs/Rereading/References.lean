import PegGrammar.Proofs.Rereading.Operands

namespace PegGrammar

open Reader PegGrammar.Expr

variable {F T : Text} {n : String} {e : Expr Unit} {wrap : Expr Unit → Expr Unit}

namespace Reader

/-- A reference and its suffix operator, `T` being what stands after the name. -/
structure Wraps (wrap : Expr Unit → Expr Unit) (T F : Text) : Prop where
  ends : Ends T
  finds : ∀ {s x}, Finds (primary expression) s x T → Finds (suffixed expression) s (wrap x) F

theorem wraps_id (hF : Ends F) (hnext : Next IsNoSuffix (skipTrivia F)) : Wraps id F F :=
  ⟨hF, fun h => finds_suffixed h hnext⟩

theorem wraps_suffixed (op : SuffixOp) (F : Text) :
    Wraps (.suffixed op · ()) (op.symbol :: F) F :=
  ⟨ends_suffix op F, fun h => finds_suffixed_op op h⟩

theorem Wraps.reference (hw : Wraps wrap T F) (hn : Name.Readable n) :
    Finds (suffixed expression) (Printer.nameText n.toList ++ T) (wrap (.ruleRef n ())) F := by
  have hname := Name.name_nameText hn hw.ends.name
  have hdrop : (Printer.nameText n.toList ++ T).drop (Printer.nameText n.toList).length = T :=
    List.drop_left
  have h : Finds (primary expression) _ _ _ :=
    finds_primary_ruleRef hname (by rw [hdrop]; exact hw.ends.rule)
  rw [hdrop] at h
  exact hw.finds h

theorem Wraps.reference_mask (hw : Wraps wrap T F) (hn : Name.Readable n) :
    Finds (suffixed expression) ('$' :: (Printer.nameText n.toList ++ T))
      (wrap (.ruleRef (mask n) ())) F := by
  have hname := Name.name_dollar_nameText hn hw.ends.name
  have hdrop : ('$' :: (Printer.nameText n.toList ++ T)).drop
      ((Printer.nameText n.toList).length + 1) = T := by
    rw [List.drop_succ_cons, List.drop_left]
  have h : Finds (primary expression) _ _ _ :=
    finds_primary_ruleRef hname (by rw [hdrop]; exact hw.ends.rule)
  rw [hdrop] at h
  exact hw.finds h

theorem opens_eq_false_of_isNamePart {c : Char} (hpart : isNamePart c = true)
    (hstart : isNameStart c = false) : opens c = false := by
  rw [opens, hstart, Bool.false_or, Bool.eq_false_iff, ne_eq, List.contains_iff_mem]
  have hnone : ∀ d ∈ ['\\', '@', '&', '!', '(', '"', '\x27', '[', '.'], isNamePart d = false :=
    forall_mem_of_all (by decide +kernel)
  intro hc
  rw [hnone c hc] at hpart
  cases hpart

theorem skipTrivia_nameChar {c : Char} (t : Text) (hw : Name.Writable isNamePart c) :
    skipTrivia (Printer.nameChar isNamePart c ++ t) = Printer.nameChar isNamePart c ++ t := by
  rw [Printer.nameChar]
  split
  next hplain =>
    have hpart : isNamePart c = true := by
      rcases hplain with hpart | hbig
      · exact hpart
      · rcases hw with hpart | hle
        · exact hpart
        · omega
    exact skipTrivia_solid (solid_of_isNamePart hpart) _
  next => exact skipTrivia_solid (by decide) _

theorem next_nameText {c : Char} {t : Text} (hn : n.toList = c :: t) (hc : c ≠ '$')
    (h : Name.Readable n) : Next IsNoPrefix (Printer.nameText n.toList ++ T) := by
  obtain ⟨d, u, hu, hd⟩ := exists_nameText h
  rw [hu]
  refine next_cons ⟨?_, hd.ne (by decide) (by decide), hd.ne (by decide) (by decide)⟩
  rintro rfl
  rw [hn, Printer.nameText, Printer.nameChar] at hu
  split at hu
  · cases hu
    exact hc rfl
  · cases hu

/-- The front of a printed name, as far as the operator at a dollar sign is concerned. -/
inductive NameFront (n : String) (T : Text) : Prop
  | plain (hmasked : isMasked n = false) (h : Next IsNoPrefix (Printer.nameText n.toList ++ T))
  | dollar (h : n = "$")
  | masked {u : Text} (hmasked : isMasked n = true)
      (htext : Printer.nameText n.toList ++ T = '$' :: (u ++ T)) (hskip : skipTrivia (u ++ T) = u ++ T)
      (hname : Name.name (u ++ T) = some ⟨unmask n, u.length⟩)
  | shut {u : Text} (hmasked : isMasked n = false)
      (htext : Printer.nameText n.toList ++ T = '$' :: u) (h : Next (opens · = false) (skipTrivia u))

theorem isMasked_of_ne {c : Char} {t : Text} (hn : n.toList = c :: t) (hc : c ≠ '$') :
    isMasked n = false := by
  rw [isMasked, hn]
  split
  next heq =>
    cases heq
    exact (hc rfl).elim
  next => rfl

theorem nameFront (hn : Name.Readable n) (hT : Name.Ends T) : NameFront n T := by
  obtain ⟨c, t, hchars, -, ht⟩ := hn.chars
  by_cases hc : c = '$'
  · subst hc
    cases t with
    | nil => exact .dollar (String.toList_inj.1 hchars)
    | cons d t =>
        have htext : Printer.nameText n.toList ++ T =
            '$' :: ((d :: t).flatMap (Printer.nameChar isNamePart) ++ T) := by
          rw [hchars]
          rfl
        have hskip := skipTrivia_nameChar
          (t.flatMap (Printer.nameChar isNamePart) ++ T) (ht d List.mem_cons_self)
        rw [← List.append_assoc, ← List.flatMap_cons] at hskip
        by_cases hstart : isNameStart d = true ∨ isNamePart d = false
        · have hmasked : isMasked n = true := by
            rw [isMasked, hchars]
            simpa using hstart
          refine .masked hmasked htext hskip ?_
          rw [unmask, hchars]
          exact Name.name_flatMap hstart ht hT
        · rw [not_or, Bool.not_eq_true, Bool.not_eq_false] at hstart
          have hmasked : isMasked n = false := by
            rw [isMasked, hchars]
            simp [hstart.1, hstart.2]
          refine .shut hmasked htext ?_
          have hprint : Printer.nameChar isNamePart d = [d] := by
            simp [Printer.nameChar, hstart.2]
          rw [hskip, List.flatMap_cons, hprint]
          exact next_cons (opens_eq_false_of_isNamePart hstart.2 hstart.1)
  · exact .plain (isMasked_of_ne hchars hc) (next_nameText hchars hc hn)

/-- At the front of an element, a reference whose name begins with a dollar sign loses it to the
operator when the rest of the name can stand alone. -/
theorem Wraps.exposed (hw : Wraps wrap T F) (hn : Name.Readable n)
    (hdollar : n = "$" → Refuses (suffixed expression) (skipTrivia T)) :
    Finds (prefixed expression) (Printer.nameText n.toList ++ T) (Expr.exposed wrap n) F := by
  have hwhole := hw.reference hn
  cases nameFront hn hw.ends.name with
  | plain hmasked h =>
      rw [exposed_eq_wrap wrap hmasked]
      exact finds_prefixed h hwhole
  | dollar h =>
      subst h
      exact finds_prefixed_of_suffixed .text (hdollar rfl) hwhole
  | @masked u hmasked htext hskip hname =>
      have h : Finds (primary expression) _ _ _ :=
        finds_primary_ruleRef hname (by rw [List.drop_left]; exact hw.ends.rule)
      rw [List.drop_left] at h
      rw [Expr.exposed, if_pos hmasked, htext]
      apply finds_prefixed_op .text
      rw [hskip]
      exact hw.finds h
  | shut hmasked htext h =>
      rw [htext] at hwhole ⊢
      rw [exposed_eq_wrap wrap hmasked]
      exact finds_prefixed_of_suffixed .text
        (refuses_suffixed_shut (h.imp fun _ hc => .inl hc)) hwhole

theorem refuses_prefixed_header (hn : Name.Readable n) (hT : Name.Ends T)
    (hrule : startsRule T = true)
    (hdollar : n = "$" → Refuses (suffixed expression) (skipTrivia T)) :
    Refuses (suffixed expression) (Printer.nameText n.toList ++ T) ∧
      Refuses (prefixed expression) (Printer.nameText n.toList ++ T) := by
  have hwhole : Refuses (suffixed expression) (Printer.nameText n.toList ++ T) :=
    refuses_suffixed (refuses_primary_header (Name.name_nameText hn hT)
      (by rwa [List.drop_left]))
  refine ⟨hwhole, ?_⟩
  cases nameFront hn hT with
  | plain hmasked h => exact refuses_prefixed h hwhole
  | dollar h =>
      subst h
      exact refuses_prefixed_op .text (hdollar rfl) hwhole
  | masked hmasked htext hskip hname =>
      rw [htext] at hwhole ⊢
      refine refuses_prefixed_op .text ?_ hwhole
      rw [hskip]
      exact refuses_suffixed (refuses_primary_header hname (by rwa [List.drop_left]))
  | shut hmasked htext h =>
      rw [htext] at hwhole ⊢
      exact refuses_prefixed_op .text (refuses_suffixed_shut (h.imp fun _ hc => .inl hc)) hwhole

end Reader

/-- A printed reference in front of `F`: its name, and what stands after the name. -/
structure ReferenceTo (n : String) (wrap : Expr Unit → Expr Unit) (T : Text) (e : Expr Unit)
    (F : Text) : Prop extends Wraps wrap T F where
  eq : e = wrap (.ruleRef n ())
  name : e.Shaped Name.Readable → Name.Readable n
  text : e.textAt .suffixed ++ F = Printer.nameText n.toList ++ T
  textAt : e.textAt .labeled = e.textAt .suffixed
  reread : e.reread = some (exposed wrap n)
  masked : e.masked = wrap (.ruleRef (mask n) ())
  next : Next (· ≠ ':') (skipTrivia F) → Next (· ≠ ':') (skipTrivia T)
  dollar : n = "$" → e.dangles = true ∧ T = F ∨ Refuses (suffixed expression) (skipTrivia T)

theorem refuses_suffixed_suffix (op : SuffixOp) (F : Text) :
    Refuses (suffixed expression) (skipTrivia (op.symbol :: F)) := by
  refine refuses_suffixed_shut (next_skipTrivia (solid_suffix op) (.inl ?_))
  cases op <;> decide

theorem exists_referenceTo (h : e.isReference = true) (hF : Ends F)
    (hnext : Next IsNoSuffix (skipTrivia F)) : ∃ n wrap T, ReferenceTo n wrap T e F := by
  cases e with
  | ruleRef n k =>
      refine ⟨n, id, F, wraps_id hF hnext, rfl, id, rfl, rfl, rfl, rfl, id, ?_⟩
      rintro rfl
      exact .inl ⟨rfl, rfl⟩
  | suffixed op b k =>
      cases b with
      | ruleRef n j =>
          refine ⟨n, (.suffixed op · ()), op.symbol :: F, wraps_suffixed op F, rfl, And.right, ?_,
            rfl, rfl, rfl, fun _ => ?_, fun _ => .inr (refuses_suffixed_suffix op F)⟩
          · rw [← List.singleton_append, ← List.append_assoc]
            rfl
          · refine next_skipTrivia (solid_suffix op) ?_
            cases op <;> decide
      | _ => cases h
  | _ => cases h

theorem prefixedOutcome_reference (h : e.Shaped Name.Readable) (href : e.isReference = true)
    (hF : Follow F) (hdangles : e.dangles = true → Refuses (suffixed expression) (skipTrivia F)) :
    PrefixedOutcome (e.textAt .labeled ++ F) F e.reread := by
  obtain ⟨n, wrap, T, hr⟩ := exists_referenceTo href hF.toEnds hF.noSuffix
  rw [hr.textAt, hr.text, hr.reread]
  refine hr.exposed (hr.name h) fun hn => ?_
  rcases hr.dollar hn with ⟨hdollar, rfl⟩ | hrefuses
  · exact hdangles hdollar
  · exact hrefuses

theorem suffixed_cases (h : e.Shaped Name.Readable) (hlabels : e.hasLabels = false)
    (hF : Follow F) :
    (∃ n wrap T, ReferenceTo n wrap T e F) ∨ Plain (e.textAt .suffixed ++ F) := by
  by_cases href : e.isReference = true
  · exact .inl (exists_referenceTo href hF.toEnds hF.noSuffix)
  · rw [Bool.not_eq_true] at href
    exact .inr ((plain_suffixed h hlabels href).append F)

end PegGrammar
