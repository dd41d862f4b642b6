import MailSieve.Grammar.Fault

/-! Moving over the tokens of a source.
A cursor stands at one token, knows where the token before it ended, and keeps the alternatives that
were acceptable at its token. It moves only to a token that can be read, so a fault of the token
after it is met first when it moves on. Options are the same throughout a reading; they do not move
a cursor. -/

namespace MailSieve

/-- Whether nodes get locations, and how many levels deep blocks and tests may stand. -/
structure ParseOptions where
  locations : Bool
  maxDepth : Nat

namespace ParseOptions

def standard : ParseOptions := ⟨true, 128⟩

end ParseOptions

structure Cursor where
  current : Lexeme
  ahead : List Reading
  lastStop : Position
  noted : List Expected

abbrev Parse := ReaderT ParseOptions (StateT Cursor (Except Fault))

namespace Lexeme

def found (l : Lexeme) : String := String.ofList l.text

end Lexeme

namespace Cursor

/-- Stands at the first token. -/
def ofReadings : List Reading → Except Fault Cursor
  | [] => .ok ⟨⟨.endOfInput, ⟨.origin, .origin⟩, []⟩, [], .origin, []⟩
  | .error m :: _ => .error (.lexical m)
  | .ok l :: ahead => .ok ⟨l, ahead, .origin, []⟩

/-- The end of the input is never left. -/
def next (c : Cursor) : Except Fault Cursor :=
  match c.ahead with
  | [] => .ok c
  | .error m :: _ => .error (.lexical m)
  | .ok l :: ahead => .ok ⟨l, ahead, c.current.location.stop, []⟩

def note (c : Cursor) (e : Expected) : Cursor :=
  if e ∈ c.noted then c else { c with noted := c.noted ++ [e] }

/-- The current token and those ahead, of which every repetition uses up one each time. -/
def remaining (c : Cursor) : List Reading := .ok c.current :: c.ahead

/-- The report that none of the noted alternatives stands here. -/
def unexpected (c : Cursor) : Fault :=
  .unexpected c.current.location
    (if c.current.token = .endOfInput then none else some c.current.found) c.noted

end Cursor

namespace Parse

def peek : Parse Lexeme := fun _ c => .ok (c.current, c)

def note (e : Expected) : Parse Unit := fun _ c => .ok ((), c.note e)

def fail {α : Type} : Parse α := fun _ c => .error c.unexpected

/-- Passes over the current token, which is the result. -/
def advance : Parse Lexeme := fun _ c => c.next.map fun d => (c.current, d)

/-- A node's location, if locations are asked for. -/
def located (l : Location) : Parse (Option Location) :=
  fun options c => .ok (if options.locations then some l else none, c)

/-- From `start` to the end of the last token passed over. -/
def span (start : Position) : Parse (Option Location) :=
  fun options c => located ⟨start, c.lastStop⟩ options c

def isAt (p : Punctuation) : Parse Bool := do
  note (.literal (String.singleton p.char))
  let l ← peek
  pure (l.token = .mark p)

def eat (p : Punctuation) : Parse Bool := do
  if ← isAt p then
    let _ ← advance
    pure true
  else pure false

def expect (p : Punctuation) : Parse Lexeme := do
  if ← isAt p then advance else fail

def eatWord (word : String) : Parse Bool := do
  note (.literal word)
  let l ← peek
  if l.token = .word word then
    let _ ← advance
    pure true
  else pure false

/-- The tag that stands here, if one does. -/
def nextTag : Parse (Option (String × Lexeme)) := do
  note (.tokenClass "tag")
  let l ← peek
  match l.token with
  | .tag name =>
    let _ ← advance
    pure (some (name, l))
  | _ => pure none

def tooDeep {α : Type} (l : Lexeme) : Parse α :=
  fun options _ => .error (.tooDeep options.maxDepth l.location l.found)

def loop {σ : Type} (step : σ → Parse (Option σ)) : List Reading → σ → Parse σ
  | [], s => pure s
  | _ :: more, s => do
    match ← step s with
    | none => pure s
    | some s => loop step more s

/-- Repeats a step until it declines. A step that does not decline passes over a token, so there are
never more of them than tokens that remain. -/
def iterate {σ : Type} (step : σ → Parse (Option σ)) (s : σ) : Parse σ :=
  fun options c => loop step c.remaining s options c

def collect {α : Type} (isLast : α → Bool) (item : Parse (Option α)) :
    List Reading → Parse (List α)
  | [] => pure []
  | _ :: more => do
    match ← item with
    | none => pure []
    | some a =>
      if isLast a then pure [a]
      else
        let as ← collect isLast item more
        pure (a :: as)

/-- Items up to the first last one, or until there is none. Every item passes over a token. -/
def manyUntil {α : Type} (isLast : α → Bool) (item : Parse (Option α)) : Parse (List α) :=
  fun options c => collect isLast item c.remaining options c

def many {α : Type} (item : Parse (Option α)) : Parse (List α) := manyUntil (fun _ => false) item

/-- What follows a comma, if one stands here. -/
def afterComma {α : Type} (item : Parse α) : Parse (Option α) := do
  if ← eat .comma then
    let a ← item
    pure (some a)
  else pure none

/-- At least one item, with commas between. -/
def commaSeparated {α : Type} (item : Parse α) : Parse (List α) := do
  let first ← item
  let rest ← many (afterComma item)
  pure (first :: rest)

end Parse

end MailSieve
