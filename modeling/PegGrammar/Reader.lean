import PegGrammar.ClassBody
import PegGrammar.ParseError
import PegGrammar.Token

namespace PegGrammar

/-- Where reading stands: the text ahead, the number of its characters, its offset in the document,
and the failures so far. -/
structure State where
  rest : Text
  remaining : Nat := rest.length
  remaining_eq : remaining = rest.length := by rfl
  offset : Nat := 0
  failures : Failures := {}
  deriving DecidableEq, Repr

namespace State

@[inline]
def advance (st : State) (n : Nat) : State where
  rest := st.rest.drop n
  remaining := st.remaining - n
  remaining_eq := by rw [st.remaining_eq, List.length_drop]
  offset := st.offset + Text.byteSize (st.rest.take n)
  failures := st.failures

def recordAt (st : State) (offset : Nat) (e : Expectation) : State :=
  { st with failures := st.failures.record offset e }

def record (st : State) (e : Expectation) : State := st.recordAt st.offset e

end State

inductive Result (α : Type) where
  | matched (value : α) (state : State)
  | unmatched (failures : Failures)
  /-- A class range in the wrong order, as written; reading stands at the start of the class. -/
  | disordered (text : String) (range : ByteRange) (state : State)
  deriving Repr

/-- The state after a result: reading goes on from `st` when nothing matched. -/
def Result.state {α : Type} (st : State) : Result α → State
  | .matched _ st' => st'
  | .unmatched failures => { st with failures }
  | .disordered _ _ st' => st'

/-- A step of reading. One that does not match keeps nothing but the failures it has recorded, so
whatever is tried next starts from the same place; a class range in the wrong order ends the
reading of the document at once. -/
def Reader (α : Type) : Type := State → Result α

/-- What a reader read and where it stood. -/
structure Token (α : Type) where
  value : α
  range : ByteRange
  deriving DecidableEq, Repr

namespace Reader

variable {α β : Type}

@[inline]
protected def pure (a : α) : Reader α := fun st => .matched a st

/-- One reader after another; the second depends on what the first has read. -/
@[inline]
protected def bind (p : Reader α) (f : α → Reader β) : Reader β := fun st =>
  match p st with
  | .matched a st' => f a st'
  | .unmatched failures => .unmatched failures
  | .disordered text range st' => .disordered text range st'

instance : Monad Reader where
  pure := Reader.pure
  bind := Reader.bind

instance : LawfulMonad Reader := LawfulMonad.mk' Reader
  (fun p => by
    funext st
    change Reader.bind p (fun a => Reader.pure (id a)) st = p st
    unfold Reader.bind
    cases p st <;> rfl)
  (fun _ _ => rfl)
  (fun p f g => by
    funext st
    change Reader.bind (Reader.bind p f) g st = Reader.bind p (fun a => Reader.bind (f a) g) st
    simp only [Reader.bind]
    cases p st <;> rfl)

/-- Never matches. -/
def nothing : Reader α := fun st => .unmatched st.failures

/-- Does not match, because `e` is not here. -/
def fail (e : Expectation) : Reader α := fun st => .unmatched (st.record e).failures

@[inline]
def here : Reader Nat := fun st => .matched st.offset st

@[inline]
def ahead : Reader Text := fun st => .matched st.rest st

@[inline]
def advance (n : Nat) : Reader Unit := fun st => .matched () (st.advance n)

/-- Records that `e` could have stood here. -/
@[inline]
def expect (e : Expectation) : Reader Unit := fun st => .matched () (st.record e)

@[inline]
def expectAt (offset : Nat) (e : Expectation) : Reader Unit :=
  fun st => .matched () (st.recordAt offset e)

/-- Ordered choice. -/
@[inline]
def orElse (p : Reader α) (q : Unit → Reader α) : Reader α := fun st =>
  match p st with
  | .unmatched failures => q () { st with failures }
  | r => r

instance : OrElse (Reader α) := ⟨orElse⟩

@[inline]
def optional (p : Reader α) : Reader (Option α) :=
  (do return some (← p)) <|> return none

/-- Whether `p` matches here; if so, reading moves past it. -/
def succeeds (p : Reader Unit) : Reader Bool :=
  (do p; return true) <|> return false

/-- Repeats a reader as long as it matches and moves on. -/
def many (p : Reader α) (st : State) : Result (List α) :=
  match p st with
  | .matched a st' =>
    if st'.remaining < st.remaining then
      match many p st' with
      | .matched as st'' => .matched (a :: as) st''
      | r => r
    else .matched [a] st'
  | .unmatched failures => .matched [] { st with failures }
  | .disordered text range st' => .disordered text range st'
termination_by st.remaining

/-- Gives a reader's result the range it was read from. -/
@[inline]
def located (p : Reader (ByteRange → α)) : Reader α := do
  let start ← here
  let f ← p
  let stop ← here
  return f ⟨start, stop⟩

def symbol (c : Char) : Reader Unit := do
  if (← ahead).head? = some c then advance 1 else fail (.literal (String.singleton c))

/-- Moves past a character if it is here; it is not missed otherwise. -/
def accepts (c : Char) : Reader Bool := do
  if (← ahead).head? = some c then
    advance 1
    return true
  else return false

/-- The first of some choices whose symbol is here. -/
def operator (symbolOf : α → Char) : List α → Reader α
  | [] => nothing
  | a :: as => (do symbol (symbolOf a); return a) <|> operator symbolOf as

/-- A construct with a name of its own, found by a recogniser. -/
def lexeme (description : String) (recognize : Text → Option (Lexeme α)) : Reader (Token α) := do
  match recognize (← ahead) with
  | some l => located do
    advance l.length
    return (⟨l.value, ·⟩)
  | none => fail (.named description)

def name : Reader (Token String) := lexeme "identifier" Name.name

/-- A block of code; its range leaves out the braces. -/
def codeBlock : Reader (Token String) := do
  match CodeBlock.codeBlock (← ahead) with
  | some code =>
    advance 1
    let block ← located do
      advance code.length
      return (⟨String.ofList code, ·⟩)
    advance 1
    return block
  | none => fail (.named "code block")

def classBody : Reader ClassBody := fun st =>
  match ClassBody.classBody st.rest with
  | .ok (some l) => .matched l.value (st.advance l.length)
  | .ok none => fail (.named "character class") st
  | .error e =>
    let start := st.offset + e.before.byteSize
    .disordered (String.ofList e.text) ⟨start, start + e.text.byteSize⟩ st

def trivia : Reader Unit := do
  advance (Trivia.skip (← ahead))
  expect (.named "whitespace")
  expect (.named "end of line")
  expect (.named "comment")

/-- Records what keeps the text here from being a comment on one line. A comment that has been
opened is missed where its line ends. -/
def missInlineComment : Reader Unit := do
  match ← ahead with
  | '/' :: '*' :: body =>
    let line := Trivia.restOfLine body
    let stop := (← here) + 2 + line.byteSize
    if line.length = body.length then expectAt stop .any
    expectAt stop (.literal "*/")
  | _ => expect (.literal "/*")

def inlineTrivia : Reader Unit := do
  advance (Trivia.skipInline (← ahead))
  expect (.named "whitespace")
  missInlineComment

def lineComment : Reader Unit := do
  match Trivia.lineComment (← ahead) with
  | some n => advance n
  | none => expect (.literal "//")

def lineEnd : Reader Unit := do
  match Trivia.lineEnd (← ahead) with
  | some n => advance n
  | none => fail (.named "end of line")

def endOfInput : Reader Unit := do
  if (← ahead).isEmpty then return () else fail .endOfInput

/-- The end of a statement: a semicolon, the end of the line, or the end of the document. -/
def statementEnd : Reader Unit :=
  (do trivia; symbol ';') <|>
  (do inlineTrivia; lineComment; lineEnd) <|>
  (do trivia; endOfInput)

end Reader

end PegGrammar
