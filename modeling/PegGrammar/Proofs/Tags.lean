import PegGrammar.Proofs.Offsets.Calls

namespace PegGrammar

variable {σ τ υ : Type}

section Walks

variable {m : Type → Type} [Monad m] [LawfulMonad m] {f : τ → υ} {h : σ → m τ}

namespace Expr

mutual

theorem mapM_map (f : τ → υ) (h : σ → m τ) :
    (e : Expr σ) → e.mapM (fun l => f <$> h l) = Expr.map f <$> e.mapM h
  | .named _ _ e _ | .action e _ _ _ | .labeled _ _ _ e _ | .prefixed _ e _ | .suffixed _ e _
  | .group e _ => by simp [mapM, map, mapM_map f h e]
  | .choice es _ | .sequence es _ => by simp [mapM, map, mapListM_map f h es]
  | .predicate .. | .ruleRef .. | .literal .. | .charClass .. | .any _ => by simp [mapM, map]

theorem mapListM_map (f : τ → υ) (h : σ → m τ) :
    (es : List (Expr σ)) → mapListM (fun l => f <$> h l) es = mapList f <$> mapListM h es
  | [] => by simp [mapListM, mapList]
  | e :: es => by simp [mapListM, mapList, mapM_map f h e, mapListM_map f h es]

end

end Expr

theorem Initializer.mapM_map (i : Initializer σ) :
    i.mapM (fun l => f <$> h l) = Initializer.map f <$> i.mapM h := by
  simp [mapM, map]

theorem Rule.mapM_map (r : Rule σ) :
    r.mapM (fun l => f <$> h l) = Rule.map f <$> r.mapM h := by
  simp [mapM, map, Expr.mapM_map f h]

namespace Grammar

theorem mapM_map_initializer (o : Option (Initializer σ)) :
    o.mapM (·.mapM fun l => f <$> h l) = Option.map (·.map f) <$> o.mapM (·.mapM h) := by
  cases o with
  | none => simp
  | some i => simp [Initializer.mapM_map]

theorem mapM_map_rules (rs : List (Rule σ)) :
    rs.mapM (·.mapM fun l => f <$> h l) = List.map (·.map f) <$> rs.mapM (·.mapM h) := by
  induction rs with
  | nil => simp
  | cons r rs ih =>
      rw [List.mapM_cons, List.mapM_cons, ih]
      simp [Rule.mapM_map]

theorem mapM_map (g : Grammar σ) :
    g.mapM (fun l => f <$> h l) = Grammar.map f <$> g.mapM h := by
  simp [mapM, map, mapM_map_initializer, mapM_map_rules]

end Grammar

end Walks

section Locations

variable {L : τ → Prop} {f : σ → τ}

namespace Expr

mutual

theorem located_map (hf : ∀ l, L (f l)) : (e : Expr σ) → (e.map f).Located L
  | .named _ _ e l | .prefixed _ e l | .suffixed _ e l | .group e l =>
      ⟨located_map hf e, hf l⟩
  | .action e _ k l => ⟨located_map hf e, hf k, hf l⟩
  | .labeled _ k _ e l => ⟨hf k, located_map hf e, hf l⟩
  | .choice es l | .sequence es l => ⟨locatedList_map hf es, hf l⟩
  | .predicate _ _ k l => ⟨hf k, hf l⟩
  | .ruleRef _ l | .literal _ _ l | .charClass _ _ _ l | .any l => hf l

theorem locatedList_map (hf : ∀ l, L (f l)) :
    (es : List (Expr σ)) → LocatedList L (mapList f es)
  | [] => trivial
  | e :: es => ⟨located_map hf e, locatedList_map hf es⟩

end

end Expr

theorem Grammar.located_map (hf : ∀ l, L (f l)) (g : Grammar σ) : (g.map f).Located L := by
  have initializer (o : Option (Initializer σ)) : ∀ i ∈ o.map (·.map f), i.Located L := by
    intro i hi
    obtain ⟨j, -, rfl⟩ := Option.map_eq_some_iff.1 hi
    exact ⟨hf j.codeLocation, hf j.location⟩
  constructor
  · exact initializer g.topLevel
  · exact initializer g.perParse
  · intro r hr
    obtain ⟨q, -, rfl⟩ := List.mem_map.1 hr
    exact ⟨hf q.nameLocation, q.expression.located_map hf, hf q.location⟩
  · exact hf g.location

end Locations

namespace ParseError

def map (f : σ → τ) : ParseError σ → ParseError τ
  | .unexpected expected found l => .unexpected expected found (f l)
  | .disorderedRange text l => .disorderedRange text (f l)
  | .unknownStartRule rule => .unknownStartRule rule
  | .misplaced => .misplaced

theorem mapM_map {m : Type → Type} [Monad m] [LawfulMonad m] {f : τ → υ} {h : σ → m τ}
    (e : ParseError σ) : e.mapM (fun l => f <$> h l) = ParseError.map f <$> e.mapM h := by
  cases e <;> simp [mapM, map]

theorem message_map (f : σ → τ) (e : ParseError σ) : (e.map f).message = e.message := by
  cases e <;> rfl

end ParseError

def Span.retag (tag : SourceTag) (s : Span) : Span := { s with source := tag }

namespace Parsed

def retag (tag : SourceTag) : Parsed → Parsed
  | .ok g => .ok (g.retag tag)
  | .error e => .error (e.map (Span.retag tag))

def Located (L : Span → Prop) : Parsed → Prop
  | .ok g => g.Located L
  | .error e => ∀ l ∈ e.location?, L l

def message? : Parsed → Option String
  | .ok _ => none
  | .error e => some e.message

variable {tag : SourceTag}

theorem located_retag (p : Parsed) : (p.retag tag).Located (·.source = tag) := by
  cases p with
  | ok g =>
      have hsource (l : Span) : (l.retag tag).source = tag := rfl
      exact g.located_map hsource
  | error e =>
      intro l hl
      cases e <;> cases hl <;> rfl

theorem message?_retag (p : Parsed) : (p.retag tag).message? = p.message? := by
  cases p with
  | ok g => rfl
  | error e => simp [retag, message?, ParseError.message_map]

end Parsed

theorem Locator.span?_retag (tag tag' : SourceTag) (r : ByteRange) :
    span? tag' r = Span.retag tag' <$> span? tag r := by
  simp [span?, Span.retag]

namespace Parser

theorem locate_retag (tag tag' : SourceTag)
    (r : Except (ParseError ByteRange) (Grammar ByteRange)) :
    locate tag' r = Parsed.retag tag' <$> locate tag r := by
  have hspan : Locator.span? tag' = fun l => Span.retag tag' <$> Locator.span? tag l := by
    funext l
    apply Locator.span?_retag
  cases r with
  | ok g =>
      simp only [locate, hspan, Grammar.mapM_map, bind_map_left, map_bind, map_pure, Parsed.retag]
      rfl
  | error e => simp [locate, hspan, ParseError.mapM_map, Parsed.retag]

theorem next_retag (p : Parser) (tag : SourceTag) :
    { p with tag }.next = (p.next.1.retag tag, { p.next.2 with tag }) := by
  have hlocate (r) : (locate tag r).run.run p.locator =
      (((locate p.tag r).run.run p.locator).1.map (Parsed.retag tag),
        ((locate p.tag r).run.run p.locator).2) := by
    rw [locate_retag p.tag tag, OptionT.run_map, StateT.run_map]
    rfl
  cases hread : p.state.readDocument p.source with
  | mk r state =>
      cases hrun : (locate p.tag r).run.run p.locator with
      | mk located locator =>
          have hrun' := hlocate r
          rw [hrun] at hrun'
          rw [next_eq hread hrun, next_eq (p := { p with tag }) hread hrun']
          cases located <;> rfl

end Parser

theorem parseWith_eq_retag (startRule : Option String) (tag tag' : SourceTag) (source : String) :
    parseWith ⟨tag', startRule⟩ source = (parseWith ⟨tag, startRule⟩ source).retag tag' := by
  have hnext := Parser.next_retag (.ofString source tag) tag'
  rw [parseWith, parseWith, ParseOptions.startRuleName, ParseOptions.startRuleName]
  split
  · exact congrArg Prod.fst hnext
  · rfl

/-- What a document is parsed to under one tag, and what under another one. -/
structure SameButTag (tag tag' : SourceTag) (parsed parsed' : Parsed) : Prop where
  tagged : parsed.Located (·.source = tag)
  tagged' : parsed'.Located (·.source = tag')
  /-- With the other tag at every location, one result is the other one. -/
  same : parsed' = parsed.retag tag'
  message : parsed'.message? = parsed.message?

/-- The tag gets into all locations of a result and changes nothing else, whether the positions are looked
up in the end or each of them as soon as it is needed. -/
theorem parseWith_sameButTag (startRule : Option String) (tag tag' : SourceTag) (source : String) :
    SameButTag tag tag' (parseWith ⟨tag, startRule⟩ source) (parseWith ⟨tag', startRule⟩ source) ∧
      ∃ parsed parsed', Offsets.parseWith ⟨tag, startRule⟩ source = .ok parsed ∧
        Offsets.parseWith ⟨tag', startRule⟩ source = .ok parsed' ∧
        SameButTag tag tag' parsed parsed' := by
  have hsame (t t' : SourceTag) := parseWith_eq_retag startRule t t' source
  have hblind : SameButTag tag tag' (parseWith ⟨tag, startRule⟩ source)
      (parseWith ⟨tag', startRule⟩ source) := by
    constructor
    · rw [hsame tag tag]
      exact Parsed.located_retag _
    · rw [hsame tag tag']
      exact Parsed.located_retag _
    · exact hsame tag tag'
    · rw [hsame tag tag']
      exact Parsed.message?_retag _
  refine ⟨hblind, _, _, ?_, ?_, hblind⟩
  · apply Offsets.parseWith_eq
  · apply Offsets.parseWith_eq

end PegGrammar
