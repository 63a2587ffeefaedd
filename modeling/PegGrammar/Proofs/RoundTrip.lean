import PegGrammar.Proofs.PrintedText
import PegGrammar.Proofs.Rereading.KeptTrees
import PegGrammar.Proofs.Rereading.Undollared

namespace PegGrammar

open PegGrammar.Expr

def IsName (n : String) : Prop := ∃ s k, Name.name s = some ⟨n, k⟩

theorem isName_iff {n : String} : IsName n ↔ Name.Readable n := by
  constructor
  · rintro ⟨s, k, h⟩
    exact Name.readable_of_nameSpelling (Name.nameSpelling_of_name h)
  · intro h
    have hends : Name.Ends [] := nofun
    exact ⟨_, _, Name.name_nameText h hends⟩

section Printable

variable {g : Grammar Span}

theorem bare_bare (g : Grammar Span) : g.bare.bare = g.bare := Grammar.map_map _ _ g

theorem printable_bare (hshape : g.Shaped Name.Readable)
    (hdoubled : g.topLevel = none → ∀ i ∈ g.perParse, ¬ i.Doubled) : g.bare.Printable := by
  refine ⟨hshape.of_bare_eq (bare_bare g), fun htop i hi => ?_⟩
  obtain ⟨i₀, hi₀, rfl⟩ := Option.map_eq_some_iff.1 hi
  exact hdoubled (Option.map_eq_none_iff.1 htop) i₀ hi₀

/-- What parsing makes of a printed document. -/
theorem parse_print_iff (hg : g.bare.Printable) {P : Grammar Unit → Prop} :
    (∃ g', parse g.print = .ok g' ∧ P g'.bare) ↔ ∃ g', g.bare.reread = some g' ∧ P g' := by
  have htext : g.print.toList = g.bare.text := by
    rw [Grammar.print, String.toList_ofList, Grammar.text_bare]
  constructor
  · rintro ⟨g', hparse, hP⟩
    have hreads := readsAs_of_parseWith hparse
    rw [htext] at hreads
    exact ⟨g'.bare, (readsAs_text_iff hg).1 hreads, hP⟩
  · rintro ⟨g', hreread, hP⟩
    have hreads := (readsAs_text_iff hg).2 hreread
    rw [← htext] at hreads
    have hparse : ∃ g₁, parseWith {} g.print = .ok g₁ ∧ g₁.bare = g' :=
      parseWith_of_readsAs rfl hreads
    obtain ⟨g₁, hparse, rfl⟩ := hparse
    exact ⟨g₁, hparse, hP⟩

theorem isMistakable_eq_false {r : Rule Span} (h : r.name = "$" → r.displayName = none) :
    r.isMistakable = false := by
  have hdisplay : r.displayName = r.display.map (·.1) := by
    obtain ⟨n, j, e, k⟩ := r
    cases e <;> rfl
  rw [hdisplay, Option.map_eq_none_iff] at h
  rw [Rule.isMistakable]
  by_cases hname : r.name = "$"
  · rw [h hname, Option.isSome_none, Bool.and_false]
  · rw [decide_eq_false hname, Bool.false_and]

/-- A document of canonical shape is parsed from its own text, if no reference begins with a dollar
sign and no header can be mistaken for an operator and a literal. -/
theorem parse_print (g : Grammar Span) (hspans : g.strip = g) (hshape : g.Shaped IsName)
    (hdoubled : g.topLevel = none → ∀ i ∈ g.perParse, ¬ i.Doubled) (hrefs : Undollared g.names)
    (hheaders : ∀ r ∈ g.rules.tail, r.name = "$" → r.displayName = none) :
    ∃ g', parse g.print = .ok g' ∧ g'.strip = g := by
  have hreadable : IsName = Name.Readable := funext fun n => propext isName_iff
  rw [hreadable] at hshape
  have hg := printable_bare hshape hdoubled
  have hmistakable : ∀ r ∈ g.bare.rules.tail, r.isMistakable = false := by
    intro r hr
    rw [Grammar.bare, Grammar.map, ← List.map_tail] at hr
    obtain ⟨r₀, hr₀, rfl⟩ := List.mem_map.1 hr
    rw [Rule.isMistakable_map]
    exact isMistakable_eq_false (hheaders r₀ hr₀)
  have hreread : g.bare.reread = some g.bare := by
    have hnames : Undollared (g.bare.rules.flatMap Rule.names) := by
      have := Grammar.names_map (fun _ => ()) g
      rw [← this] at hrefs
      exact hrefs
    rw [Grammar.reread, rereadRules_eq hg.rules hnames hmistakable]
    rfl
  obtain ⟨g', hparse, hbare⟩ := (parse_print_iff hg (P := (· = g.bare))).2 ⟨_, hreread, rfl⟩
  exact ⟨g', hparse, (Grammar.strip_of_bare_eq hbare).trans hspans⟩

theorem parse_print_two_rules :
    let g : Grammar Span := ⟨none, some ⟨" x ", {}, {}⟩,
      [⟨"a", {}, .named "A" true (.action (.sequence [
          .labeled (some "$") {} true (.suffixed .zeroOrMore (.ruleRef "b" {}) {}) {},
          .prefixed .text (.ruleRef "b" {}) {}] {}) " x " {} {}) {}, {}⟩,
        ⟨"b", {}, .charClass [.range 'a' 'z', .char '-'] true false {}, {}⟩], {}⟩
    ∃ g', parse g.print = .ok g' ∧ g'.strip = g := by
  have ha : IsName "a" := ⟨['a'], 1, by decide +kernel⟩
  have hb : IsName "b" := ⟨['b'], 1, by decide +kernel⟩
  have hlabel : IsName "$" := ⟨['$'], 1, by decide +kernel⟩
  have hcode : Balanced " x ".toList :=
    (CodeBlock.codeBlock_eq_some_iff (s := "{ x }".toList)).1 (by decide) |>.1
  refine parse_print _ rfl ⟨by simp, ?_, by simp, by simpa using hcode⟩ ?_ ?_ ?_
  · intro r hr
    rcases List.mem_cons.1 hr with rfl | hr
    · refine ⟨ha, ⟨rfl, ⟨by simp, ?_, ⟨by simp, by simpa using hlabel, rfl, rfl, hb⟩,
        ⟨rfl, hb⟩, trivial⟩, hcode⟩, rfl⟩
      simp [isSequence]
    · obtain rfl := List.mem_singleton.1 hr
      exact .plain hb (by simp [Shaped, ClassPart.isOrdered]) rfl
  · rintro - i ⟨⟩ ⟨code, -, hbraces⟩
    cases hbraces
  · intro n hn
    simp [Grammar.names, Rule.names, names, namesList] at hn
    subst hn
    decide
  · intro r hr hname
    obtain rfl := List.mem_singleton.1 hr
    exact absurd hname (by decide)

end Printable

section Parsed

variable {source : String} {g : Grammar Span}

theorem printable_of_parse (h : parse source = .ok g) : g.bare.Printable := by
  refine printable_bare (shaped_of_parseWith Name.readable_of_nameSpelling h) ?_
  obtain ⟨g₀, st', hread, -, hbare⟩ := readsAs_of_parseWith h
  obtain ⟨htop, hinit, -⟩ := Grammar.bare_eq_iff.1 hbare
  intro hnone i hi hdoubled
  rw [hnone, Option.map_none, Option.map_eq_none_iff] at htop
  rw [hi] at hinit
  obtain ⟨i₀, hi₀, heq⟩ := Option.map_eq_some_iff.1 hinit
  have hcode : i₀.code = i.code := Initializer.bare_eq_iff.1 heq
  refine not_doubled_of_document hread htop i₀ hi₀ ?_
  rwa [Initializer.Doubled, hcode]

/-- The names of a parsed document survive printing exactly if none of them is mistaken. -/
theorem parse_print_names_iff (h : parse source = .ok g) :
    (∃ g', parse g.print = .ok g' ∧ g'.names = g.names) ↔ g.keepsNames = true := by
  have hg := printable_of_parse h
  have hnames (g : Grammar Span) : g.bare.names = g.names := Grammar.names_map _ g
  have hkeeps : g.bare.keepsNames = g.keepsNames := Grammar.keepsNames_map _ g
  have hiff := parse_print_iff hg (P := fun g' => g'.names = g.bare.names)
  simp only [hnames] at hiff
  rw [hiff, ← hkeeps, ← reread_names_iff hg.toShaped, hnames]

theorem parse_print_dollar : ∃ g, parse "a = \\u0024b" = .ok g ∧
    ¬ ∃ g', parse g.print = .ok g' ∧ g'.names = g.names := by
  have hkeeps : (parse "a = \\u0024b").toOption.map (·.keepsNames) = some false := by
    decide +kernel
  cases h : parse "a = \\u0024b" with
  | error e =>
      rw [h] at hkeeps
      cases hkeeps
  | ok g =>
      rw [h] at hkeeps
      refine ⟨g, rfl, fun hnames => ?_⟩
      have hkept : g.keepsNames = false := Option.some.inj hkeeps
      rw [(parse_print_names_iff h).1 hnames] at hkept
      cases hkept

end Parsed

end PegGrammar
