import Mathlib.Data.List.Basic
import PegGrammar.Proofs.Locality
import PegGrammar.Proofs.Placement

namespace PegGrammar

def EndsApart (t : Text) : Prop := ∃ u c, t = u ++ [c] ∧ c ≠ ';'

variable {t u : Text}

namespace EndsApart

theorem single {c : Char} (h : c ≠ ';') : EndsApart [c] := ⟨[], c, rfl, h⟩

theorem append (h : EndsApart u) (t : Text) : EndsApart (t ++ u) := by
  obtain ⟨v, c, rfl, hc⟩ := h
  exact ⟨t ++ v, c, (List.append_assoc ..).symm, hc⟩

theorem cons (h : EndsApart t) (c : Char) : EndsApart (c :: t) := h.append [c]

theorem ne_nil (h : EndsApart t) : t ≠ [] := by
  obtain ⟨v, c, rfl, -⟩ := h
  simp

theorem of_forall (ht : t ≠ []) (h : ∀ c ∈ t, c ≠ ';') : EndsApart t :=
  ⟨_, _, (List.dropLast_concat_getLast ht).symm, h _ (List.getLast_mem ht)⟩

end EndsApart

section Tokens

theorem HexText.endsApart {n : Nat} {c : Char} (h : HexText (n + 1) t c) : EndsApart t := by
  obtain ⟨ds, hlength, hmap, -⟩ := h
  refine .of_forall ?_ fun d hd => ?_
  · rintro rfl
    rw [List.map_nil, eq_comm, List.map_eq_nil_iff] at hmap
    rw [hmap] at hlength
    cases hlength
  · rintro rfl
    have hmem : hexValue? ';' ∈ ds.map some := hmap ▸ List.mem_map_of_mem hd
    obtain ⟨x, -, hx⟩ := List.mem_map.1 hmem
    have hnone : hexValue? ';' = none := by decide
    rw [hnone] at hx
    cases hx

theorem NameCharText.endsApart {plain : Char → Bool} {c : Char} (hplain : plain ';' = false)
    (h : NameCharText plain t c) : EndsApart t := by
  cases h with
  | plain hc =>
      refine .single ?_
      rintro rfl
      rw [hplain] at hc
      cases hc
  | escape h => exact (h.endsApart.cons 'u').cons '\\'

theorem NamePartsText.endsApart {s : Text} (h : NamePartsText t s) : t = [] ∨ EndsApart t := by
  induction h with
  | nil => exact .inl rfl
  | @cons t u s c h hs ih =>
      rcases ih with rfl | hu
      · exact .inr (by simpa using h.endsApart (by decide +kernel))
      · exact .inr (hu.append t)

theorem NameSpelling.endsApart {n : String} (h : NameSpelling t n) : EndsApart t := by
  cases h with
  | @mk t u s c h hs =>
      rcases hs.endsApart with rfl | hu
      · simpa using h.endsApart (by decide +kernel)
      · exact hu.append t

theorem StringSpelling.endsApart {v : String} (h : StringSpelling t v) : EndsApart t := by
  cases h with
  | @mk quote t s hquote h =>
      refine ((EndsApart.single ?_).append t).cons quote
      rintro rfl
      cases hquote

theorem ClassSpelling.endsApart {body : ClassBody} (h : ClassSpelling t body) : EndsApart t := by
  have hclose : EndsApart [']'] := .single (by decide)
  cases h with
  | @plain t parts h => exact (hclose.append t).cons '['
  | @inverted t parts h => exact ((hclose.append t).cons '^').cons '['

theorem endsApart_flag (h : EndsApart t) (ignoreCase : Bool) :
    EndsApart (t ++ if ignoreCase then ['i'] else []) := by
  cases ignoreCase with
  | false => simpa using h
  | true => exact (EndsApart.single (by decide)).append t

/-- Trivia that ends in a semicolon has it in a comment on a line, behind another character of that
line. -/
theorem TriviaPiece.of_semicolon {rest x : Text} (h : TriviaPiece rest t) (ht : t = x ++ [';']) :
    ∃ y c, x = y ++ [c] ∧ isLineTerminator c = false := by
  cases h with
  | @space c hc =>
      obtain ⟨-, rfl⟩ := List.append_singleton_inj.1 ((List.nil_append [c]).trans ht)
      cases hc
  | lineEnd h =>
      cases h with
      | crlf =>
          have ht : ['\r'] ++ ['\n'] = x ++ [';'] := ht
          obtain ⟨-, hc⟩ := List.append_singleton_inj.1 ht
          cases hc
      | @single c hc =>
          obtain ⟨-, rfl⟩ := List.append_singleton_inj.1 ((List.nil_append [c]).trans ht)
          cases hc
  | block h =>
      cases h with
      | @mk body h =>
          have htext : '/' :: '*' :: (body ++ ['*', '/']) = ('/' :: '*' :: (body ++ ['*'])) ++ ['/'] := by
            simp
          obtain ⟨-, hc⟩ := List.append_singleton_inj.1 (htext.symm.trans ht)
          cases hc
  | line h =>
      cases h with
      | @mk body h hend =>
          rcases List.eq_nil_or_concat' body with rfl | ⟨b, c, rfl⟩
          · have ht : ['/'] ++ ['/'] = x ++ [';'] := ht
            obtain ⟨-, hc⟩ := List.append_singleton_inj.1 ht
            cases hc
          · have ht : ('/' :: '/' :: b) ++ [c] = x ++ [';'] := ht
            obtain ⟨rfl, -⟩ := List.append_singleton_inj.1 ht
            rcases List.eq_nil_or_concat' b with rfl | ⟨d, e, rfl⟩
            · exact ⟨['/'], '/', rfl, by decide⟩
            · exact ⟨'/' :: '/' :: d, e, rfl, h e (by simp)⟩

theorem triviaText_of_semicolon {rest x : Text} (h : TriviaText rest t) (ht : t = x ++ [';']) :
    ∃ y c, x = y ++ [c] ∧ isLineTerminator c = false := by
  induction h generalizing x with
  | nil => simp at ht
  | @cons t u h hs ih =>
      rcases List.eq_nil_or_concat' u with rfl | ⟨v, c, rfl⟩
      · rw [List.append_nil] at ht
        exact h.of_semicolon ht
      · rw [← List.append_assoc] at ht
        obtain ⟨rfl, rfl⟩ := List.append_singleton_inj.1 ht
        obtain ⟨y, d, rfl, hd⟩ := ih rfl
        exact ⟨t ++ y, d, (List.append_assoc ..).symm, hd⟩

theorem eq_nil_of_semicolon {rest s p : Text} (h : TriviaText rest t) (hs : p ++ t = s ++ ['\n', ';']) :
    t = [] := by
  rcases List.eq_nil_or_concat' t with rfl | ⟨x, c, rfl⟩
  · rfl
  · have hs : p ++ x ++ [c] = s ++ ['\n'] ++ [';'] := by simpa using hs
    obtain ⟨hx, rfl⟩ := List.append_singleton_inj.1 hs
    obtain ⟨y, d, rfl, hd⟩ := triviaText_of_semicolon h rfl
    rw [← List.append_assoc] at hx
    obtain ⟨-, rfl⟩ := List.append_singleton_inj.1 hx
    cases hd

end Tokens

namespace Reader

variable {st st' : State} {e : Node}

/-- What was passed ends in something other than a semicolon. -/
def PassesApart (st st' : State) : Prop := ∃ t, st.Passes t st' ∧ EndsApart t

theorem PassesApart.of_passes {st₁ : State} (hp : st.Passes t st₁) (h : PassesApart st₁ st') :
    PassesApart st st' := by
  obtain ⟨u, hu, hends⟩ := h
  exact ⟨t ++ u, hp.trans hu, hends.append t⟩

theorem PassesApart.passes {st₁ : State} (h : PassesApart st st₁) (hp : st₁.Passes u st')
    (hu : u = [] ∨ EndsApart u) : PassesApart st st' := by
  obtain ⟨t, ht, hends⟩ := h
  refine ⟨t ++ u, ht.trans hp, ?_⟩
  rcases hu with rfl | hu
  · rwa [List.append_nil]
  · exact hu.append t

theorem passesApart_block {code : String} {range : ByteRange} (h : st.PassesBlock code range st') :
    PassesApart st st' :=
  ⟨_, h.passes, ((EndsApart.single (by decide)).append _).cons '{'⟩

theorem passesApart_group (h : group expression st = .matched e st') : PassesApart st st' := by
  obtain ⟨body, st₁, st₂, r, hopen, hbody, -, hclose, -⟩ := group_eq_matched h
  obtain ⟨t, ht⟩ := (places_afterTrivia (fun _ _ _ => places_expression) hbody).passes
  have hends : EndsApart (r ++ [')']) := (EndsApart.single (by decide)).append r
  exact .of_passes (hopen.trans ht) ⟨_, hclose, hends⟩

theorem passesApart_primary (h : primary expression st = .matched e st') : PassesApart st st' := by
  obtain ⟨st₀, hp, h⟩ := primary_eq_matched h
  refine .of_passes hp ?_
  rcases h with h | h | h | h | h | h
  · obtain ⟨t, v, i, ht, -, hp, -⟩ := literal_eq_matched h
    exact ⟨_, hp, endsApart_flag ht.spelling.endsApart i⟩
  · obtain ⟨t, body, i, ht, -, hp, -⟩ := charClass_eq_matched h
    exact ⟨_, hp, endsApart_flag ht.spelling.endsApart i⟩
  · exact ⟨_, (any_eq_matched h).1, .single (by decide)⟩
  · obtain ⟨t, n, ht, hp, -⟩ := ruleRef_eq_matched h
    exact ⟨_, hp, ht.spelling.endsApart⟩
  · obtain ⟨p, l, st₁, code, range, -, hp, hcode, -⟩ := predicate_eq_matched h
    exact .of_passes hp (passesApart_block hcode)
  · exact passesApart_group h

theorem passesApart_suffixed (h : suffixed expression st = .matched e st') : PassesApart st st' := by
  obtain ⟨body, st₁, hbody, h⟩ := suffixed_eq_matched h
  rcases h with ⟨-, hp⟩ | ⟨op, l, -, hp, -⟩
  · exact (passesApart_primary hbody).passes hp (.inl rfl)
  · refine (passesApart_primary hbody).passes hp (.inr (.append (.single ?_) l))
    cases op <;> decide

theorem passesApart_prefixed (h : prefixed expression st = .matched e st') : PassesApart st st' := by
  rcases prefixed_eq_matched h with ⟨op, l, st₁, body, -, hp, hbody, -⟩ | ⟨st₀, hp, h, -⟩
  · exact .of_passes hp (passesApart_suffixed hbody)
  · exact .of_passes hp (passesApart_suffixed h)

theorem passesApart_labeled (h : labeled expression st = .matched e st') : PassesApart st st' := by
  obtain ⟨st₀, hp₀, h⟩ := labeled_eq_matched h
  refine .of_passes hp₀ ?_
  rcases h with h | ⟨st₁, st₂, r, label, range, body, hlabel, -, hp, hbody, -⟩ | h
  · obtain ⟨l, st₁, body, hbody, h⟩ := pick_eq_matched h
    rcases h with ⟨-, hp, -⟩ | ⟨st₂, st₃, r, label, range, -, hp, hlabel, -, hp', -⟩
    · exact .of_passes hp (passesApart_prefixed hbody)
    · obtain ⟨u, hu, -⟩ := hlabel.covers
      exact .of_passes (hp.trans (hu.trans hp')) (passesApart_prefixed hbody)
  · obtain ⟨u, hu, -⟩ := hlabel.covers
    exact .of_passes (hu.trans hp) (passesApart_prefixed hbody)
  · exact passesApart_prefixed h

theorem passesApart_runs {p : Reader Node} (hp : ∀ {st e st'}, p st = .matched e st' →
    PassesApart st st') {es : List Node} (h : Runs p st es st') :
    (es = [] ∧ st.Passes [] st') ∨ PassesApart st st' := by
  induction h with
  | nil h => exact .inl ⟨rfl, h⟩
  | cons h _ ih =>
      rcases ih with ⟨-, hpass⟩ | ⟨t, ht, hends⟩
      · exact .inr ((hp h).passes hpass (.inl rfl))
      · exact .inr ((hp h).passes ht (.inr hends))

theorem passesApart_sequence (h : sequence expression st = .matched e st') :
    (e = .sequence [] ⟨st.offset, st'.offset⟩ ∧ st.Passes [] st') ∨ PassesApart st st' := by
  obtain ⟨es, hes, h⟩ := sequence_eq_matched h
  rcases elements_eq_matched hes with ⟨rfl, hp⟩ | ⟨first, others, st₁, rfl, hfirst, hothers⟩
  · rcases h with ⟨⟨⟩, -⟩ | ⟨-, rfl⟩
    exact .inl ⟨rfl, hp⟩
  · right
    have hapart := passesApart_labeled hfirst
    rcases passesApart_runs (fun h => by
      obtain ⟨_, _, ht, h⟩ := bind_eq_matched.1 h
      obtain ⟨_, -, hp⟩ := trivia_eq_matched ht
      exact .of_passes hp (passesApart_labeled h)) hothers with ⟨-, hp⟩ | ⟨u, hu, hends⟩
    · exact hapart.passes hp (.inl rfl)
    · exact hapart.passes hu (.inr hends)

theorem passesApart_action (h : action expression st = .matched e st') :
    (∃ k, e = .sequence [] k ∧ st.Passes [] st') ∨ PassesApart st st' := by
  obtain ⟨body, st₁, hbody, h⟩ := action_eq_matched h
  rcases h with ⟨rfl, hp⟩ | ⟨l, st₂, code, range, -, hp, hcode, -⟩
  · rcases passesApart_sequence hbody with ⟨he, hp₁⟩ | hapart
    · exact .inl ⟨_, he, hp₁.trans hp⟩
    · exact .inr (hapart.passes hp (.inl rfl))
  · obtain ⟨t, ht⟩ := (places_sequence (fun _ _ _ => places_expression) hbody).passes
    exact .inr (.of_passes (ht.trans hp) (passesApart_block hcode))

/-- Trivia is given back before an expression that takes nothing. -/
theorem passesApart_afterTrivia {p : Reader Node} (hp : ∀ {st e st'}, p st = .matched e st' →
      (∃ k, e = .sequence [] k ∧ st.Passes [] st') ∨ PassesApart st st')
    (h : afterTrivia p st = .matched e st') : st.Passes [] st' ∨ PassesApart st st' := by
  rcases afterTrivia_eq_matched h with ⟨l, st₁, -, hl, h, hne⟩ | ⟨-, hpass, -⟩
  · rcases hp h with ⟨k, he, -⟩ | hapart
    · exact (hne k he).elim
    · exact .inr (.of_passes hl hapart)
  · exact .inl hpass

theorem passesApart_alternative (h : alternative expression st = .matched e st') :
    PassesApart st st' := by
  obtain ⟨l, st₁, -, hp, h⟩ := alternative_eq_matched h
  have hslash : PassesApart st st₁ := ⟨_, hp, .append (.single (by decide)) l⟩
  rcases passesApart_afterTrivia passesApart_action h with hp' | ⟨u, hu, hends⟩
  · exact hslash.passes hp' (.inl rfl)
  · exact hslash.passes hu (.inr hends)

theorem passesApart_expression (h : expression st = .matched e st') :
    (∃ k, e = .sequence [] k ∧ st.Passes [] st') ∨ PassesApart st st' := by
  rw [expression_eq_choice] at h
  obtain ⟨first, others, st₁, hfirst, hothers, h⟩ := choice_eq_matched h
  rcases passesApart_runs passesApart_alternative hothers with ⟨rfl, hp⟩ | ⟨u, hu, hends⟩
  · obtain ⟨-, rfl⟩ | ⟨hne, -⟩ := h
    · rcases passesApart_action hfirst with ⟨k, he, hp₁⟩ | hapart
      · exact .inl ⟨k, he, hp₁.trans hp⟩
      · exact .inr (hapart.passes hp (.inl rfl))
    · exact (hne rfl).elim
  · obtain ⟨t, ht⟩ := (places_action (fun _ _ _ => places_expression) hfirst).passes
    exact .inr (.of_passes ht ⟨u, hu, hends⟩)

end Reader

end PegGrammar
