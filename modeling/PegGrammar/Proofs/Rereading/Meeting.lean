import PegGrammar.Proofs.Rereading.Sequences

namespace PegGrammar

open Reader PegGrammar.Expr

variable {F G : Text} {e b x : Expr Unit} {xs : List (Expr Unit)}
  {rest after : Option (List (Expr Unit))}

theorem meets_pick {l : Option String} (he : ElementReads e)
    (hx : ElementReads (.labeled l () true b ())) (hdangles : e.dangles = true) (hG : Follow G)
    (hrest : ElementsOutcome (' ' :: (textAt (.labeled l () true b ()) .labeled ++ G)) F rest) :
    ElementsOutcome (facing e (.labeled l () true b ()) G) F (rest.map (e :: ·)) :=
  elementsOutcome_apart he hx hdangles hG
    (refuses_suffixed_shut (next_cons (c := '@') (.inr rfl))) hrest

theorem meets_label {n : String} (he : ElementReads e)
    (hx : ElementReads (.labeled (some n) () false b ())) (hdangles : e.dangles = true)
    (hG : Follow G) :
    ElementsOutcome (facing e (.labeled (some n) () false b ()) G) F none := by
  have hn : Name.Readable n := hx.shaped.2.1 n rfl
  have htext : textAt (.labeled (some n) () false b ()) .labeled ++ G =
      Printer.nameText n.toList ++ ':' :: (b.textAt .prefixed ++ G) := by
    rw [textAt_label, List.append_assoc]
    rfl
  have hwraps := wraps_id (ends_colon (b.textAt .prefixed ++ G))
    (next_skipTrivia (by decide) (by decide))
  have hname := hwraps.reference hn
  rw [← htext] at hname
  refine elementsOutcome_onto (o := none) he hx hdangles hG hname ?_ ?_
  · obtain ⟨c, t, ht, -⟩ := exists_nameText hn
    rw [htext]
    exact length_lt_append ht _
  · have hcolon : Refuses (labeled expression) (':' :: (b.textAt .prefixed ++ G)) :=
      refuses_labeled_shut (next_cons (by decide))
    exact stuck_elements (by decide) hcolon

/-- A second dollar sign becomes part of a name. -/
theorem meets_text_reference (he : ElementReads e) (hx : ElementReads (.prefixed .text b ()))
    (hdangles : e.dangles = true) (hG : Follow G) (hb : b.isReference = true)
    (hafter : ElementsOutcome G F after) :
    ElementsOutcome (facing e (.prefixed .text b ()) G) F
      (after.map (onto (.prefixed .text b.masked ()) e :: ·)) := by
  obtain ⟨n, wrap, T, href⟩ := exists_referenceTo hb hG.toEnds hG.noSuffix
  have hfinds := href.reference_mask (href.name hx.shaped.2)
  rw [← href.masked, ← href.text] at hfinds
  exact elementsOutcome_onto he hx hdangles hG hfinds (hx.length_lt G) hafter

/-- A second dollar sign is a name, and what it stood before is an element of its own. -/
theorem meets_text (he : ElementReads e) (hx : ElementReads (.prefixed .text b ()))
    (hdangles : e.dangles = true) (hG : Follow G) (hb : b.isReference = false)
    (hafter : ElementsOutcome G F after) :
    ElementsOutcome (facing e (.prefixed .text b ()) G) F
      (b.reread.bind fun b' => after.map fun es =>
        onto (.prefixed .text (.ruleRef "$" ()) ()) e :: b' :: es) := by
  obtain ⟨hlabels, hshape⟩ := hx.shaped
  have hplain := (plain_suffixed hshape hlabels hb).append G
  have hends : Ends (b.textAt .suffixed ++ G) :=
    ⟨hplain.nameEnds, startsRule_suffixed id hshape hlabels
      (hG.next.imp fun c hc => ⟨hc.ne (by decide), hc.ne (by decide)⟩)⟩
  have hdollar := finds_suffixed_dollar hends (hplain.next (by decide))
  have hbody := hx.body _ _ _ rfl hG.toEnds hG.noSuffix
  rw [operand_eq hb] at hbody
  have helement := elementOutcome_of_plain hplain (prefixedOutcome_of_operand hplain hbody)
  have hlength : G.length < (b.textAt .suffixed ++ G).length := by
    obtain ⟨c, t, ht, -⟩ := (plain_suffixed hshape hlabels hb).exists_cons
    exact length_lt_append ht G
  have hm : ElementsOutcome (b.textAt .suffixed ++ G) F
      (b.reread.bind fun b' => after.map (b' :: ·)) :=
    elementsOutcome_bind helement hplain.skipTrivia hlength hafter
  have h := elementsOutcome_onto he hx hdangles hG hdollar (Nat.lt_succ_self _) hm
  cases hr : b.reread with
  | none =>
      rw [hr] at h
      exact h
  | some b' =>
      rw [hr] at h
      cases after with
      | none => exact h
      | some es => exact h

theorem refuses_mark (p : Polarity) (hlabels : b.hasLabels = false) (hshape : b.Shaped Name.Readable)
    (hG : Follow G) : Refuses (suffixed expression) (p.symbol :: (b.textAt .suffixed ++ G)) := by
  refine refuses_suffixed (refuses_primary_mark p ?_)
  rcases suffixed_cases hshape hlabels hG with ⟨n, wrap, T, hr⟩ | hplain
  · have hn := hr.name hshape
    rw [hr.text, skipTrivia_nameText hn]
    obtain ⟨c, t, ht, hc⟩ := exists_nameText hn
    rw [ht]
    exact next_cons (hc.ne (by decide) (by decide))
  · exact hplain.next (by decide)

theorem meets_mark {op : PrefixOp} (hop : op ≠ .text) (he : ElementReads e)
    (hx : ElementReads (.prefixed op b ())) (hdangles : e.dangles = true) (hG : Follow G)
    (hrest : ElementsOutcome (' ' :: (textAt (.prefixed op b ()) .labeled ++ G)) F rest) :
    ElementsOutcome (facing e (.prefixed op b ()) G) F (rest.map (e :: ·)) := by
  obtain ⟨hlabels, hshape⟩ := hx.shaped
  refine elementsOutcome_apart he hx hdangles hG ?_ hrest
  cases op with
  | text => exact (hop rfl).elim
  | and => exact refuses_mark .positive hlabels hshape hG
  | not => exact refuses_mark .negative hlabels hshape hG

theorem meets_operand (he : ElementReads e) (hx : ElementReads x) (hdangles : e.dangles = true)
    (hG : Follow G) (hlabels : x.hasLabels = false) (hop : ∀ op b k, x ≠ .prefixed op b k)
    (hafter : ElementsOutcome G F after) :
    ElementsOutcome (facing e x G) F
      ((operand x x.reread).bind fun x' => after.map (onto (.prefixed .text x' ()) e :: ·)) := by
  have houtcome := hx.operand hlabels hop hG.toEnds hG.noSuffix
  rw [← textAt_suffixed hlabels hx.shaped hop] at houtcome
  cases ho : operand x x.reread with
  | some x' =>
      rw [ho] at houtcome
      exact elementsOutcome_onto he hx hdangles hG houtcome (hx.length_lt G) hafter
  | none =>
      rw [ho] at houtcome
      obtain ⟨hrefuses, t, ht⟩ := houtcome
      refine elementsOutcome_apart (o := none) he hx hdangles hG hrefuses (elements_space ?_)
      rw [ht] at hrefuses ⊢
      exact stuck_elements (by decide) (refuses_labeled_paren hrefuses)

theorem elementsOutcome_meet (he : ElementReads e) (hx : ElementReads x) (hdangles : e.dangles = true)
    (hG : Follow G) (hrest : ElementsOutcome (' ' :: (x.textAt .labeled ++ G)) F rest)
    (hafter : ElementsOutcome G F after) :
    ElementsOutcome (facing e x G) F (meet e x x.reread (rereadBody x) rest after) := by
  cases x with
  | labeled l j p b k =>
      cases p with
      | true => exact meets_pick he hx hdangles hG hrest
      | false =>
          cases l with
          | none => cases hx.shaped.1 rfl
          | some n => exact meets_label he hx hdangles hG
  | prefixed op b k =>
      cases op with
      | text =>
          cases hb : b.isReference with
          | true =>
              rw [meet, if_pos hb]
              exact meets_text_reference he hx hdangles hG hb hafter
          | false =>
              rw [meet, if_neg (by rw [hb]; decide)]
              exact meets_text he hx hdangles hG hb hafter
      | and => exact meets_mark (by decide) he hx hdangles hG hrest
      | not => exact meets_mark (by decide) he hx hdangles hG hrest
  | named => exact hx.shaped.elim
  | sequence => cases hx.isSequence
  | _ => exact meets_operand he hx hdangles hG rfl (by rintro _ _ _ ⟨⟩) hafter

theorem elementsOutcome_step (he : ElementReads e) (hxs : ∀ y ∈ x :: xs, ElementReads y)
    (hF : Follow F) (hrest : ElementsOutcome (spaced (x :: xs) ++ F) F rest)
    (hafter : ElementsOutcome (spaced xs ++ F) F after) :
    ElementsOutcome (spaced (e :: x :: xs) ++ F) F
      (if e.dangles then meet e x x.reread (rereadBody x) rest after
        else e.reread.bind fun e' => rest.map (e' :: ·)) := by
  have hx := hxs x List.mem_cons_self
  have hG := follow_spaced (fun y hy => hxs y (List.mem_cons_of_mem x hy)) hF
  rw [spaced_cons] at hrest
  rw [spaced_cons, spaced_cons]
  split
  next hdangles => exact elementsOutcome_meet he hx hdangles hG hrest hafter
  next hdangles =>
    have helement := he.element (hx.follow hG) fun h => (hdangles h).elim
    exact elementsOutcome_bind_space helement (he.skipTrivia _) (he.length_lt _) hrest

theorem meet_none (e x : Expr Unit) (r body : Option (Expr Unit)) :
    meet e x r body none none = none := by
  unfold meet
  split
  · rfl
  · rfl
  · split
    · rfl
    · cases body <;> rfl
  · rfl
  · cases operand _ r <;> rfl

/-- A printed row is read element by element. What follows it may keep it from being read: where
reading is stuck behind the row, it is stuck from the row on. -/
theorem elementsOutcome_spaced {keep : Bool} (hF : Follow F)
    (hsuffixed : Refuses (suffixed expression) (skipTrivia F))
    (hend : ElementsOutcome F F (if keep then some [] else none)) :
    (es : List (Expr Unit)) → (∀ e ∈ es, ElementReads e) →
      ElementsOutcome (spaced es ++ F) F (if keep then rereadElements es else none)
  | [], _ => by cases keep <;> exact hend
  | [e], hes => by
      have he := hes e List.mem_cons_self
      have h := elementsOutcome_bind_space (he.element hF fun _ => hsuffixed) (he.skipTrivia F)
        (he.length_lt F) hend
      rw [spaced_cons, rereadElements]
      cases keep with
      | _ =>
          cases hr : e.reread with
          | _ => rwa [hr] at h
  | e :: x :: xs, hes => by
      have hxs : ∀ y ∈ x :: xs, ElementReads y := fun y hy => hes y (List.mem_cons_of_mem e hy)
      have hrest := elementsOutcome_spaced hF hsuffixed hend (x :: xs) hxs
      have hafter := elementsOutcome_spaced hF hsuffixed hend xs
        fun y hy => hxs y (List.mem_cons_of_mem x hy)
      have h := elementsOutcome_step (hes e List.mem_cons_self) hxs hF hrest hafter
      rw [rereadElements]
      cases keep with
      | true => exact h
      | false =>
          simp only [Bool.false_eq_true, if_false, meet_none] at h ⊢
          split at h
          · exact h
          · cases hr : e.reread with
            | _ => rwa [hr] at h

end PegGrammar
