import MailSieve.Json.Token

/-! Reading JSON text.
The reader is a machine with a stack of open containers, run once over the tokens. It is told which
members of which objects are of interest. What is not of interest is read by looser rules, without a
limit on nesting; all else may be nested at most `maxDepth` levels deep. A text that stops being
JSON gives the value read so far, which breaks off at that place. -/

namespace MailSieve.Json

/-- Which parts of a value are wanted. Wanted members stand in the order of declaration, in which a
list may give their values. -/
inductive Interest where
  | none
  | whole
  | members (wanted : List (String × Interest))

def maxDepth : Nat := 127

/-- Looks a name up among wanted members. -/
def interestOf (name : String) : List (String × Interest) → Interest
  | [] => .none
  | (n, i) :: rest => if n = name then i else interestOf name rest

namespace Interest

def ofMember (i : Interest) (name : String) : Interest :=
  match i with
  | none => none
  | whole => whole
  | members wanted => interestOf name wanted

def ofItem (i : Interest) (n : Nat) : Interest :=
  match i with
  | none => none
  | whole => whole
  | members wanted => (wanted[n]?).elim none (·.2)

/-- After so many items the list must end. -/
def isFull (i : Interest) (n : Nat) : Bool :=
  match i with
  | members wanted => wanted.length ≤ n
  | _ => false

def isNone : Interest → Bool
  | none => true
  | _ => false

end Interest

/-- An open container with what it holds so far, last first. -/
inductive Frame where
  | array (interest : Interest) (items : List Json)
  | object (interest : Interest) (members : List (String × Json)) (name : String)

namespace Frame

def interest : Frame → Interest
  | array i _ => i
  | object i _ _ => i

/-- What is wanted of the next value in the container. -/
def inner : Frame → Interest
  | array i items => i.ofItem items.length
  | object i _ name => i.ofMember name

def add (j : Json) : Frame → Frame
  | array i items => array i (j :: items)
  | object i members name => object i ((name, j) :: members) ""

def close : Frame → Json
  | array _ items => .array items.reverse
  | object _ members _ => .object members.reverse

end Frame

/-- What may come next. -/
inductive Expecting where
  | value
  | valueOrClose
  | commaOrClose
  | nameOrClose
  | name
  | colon
deriving DecidableEq

/-- A value that has been read, and whether the text goes on after it. -/
structure Document where
  value : Json
  trailing : Bool

/-- Closes all open containers over a value that breaks off. -/
def unwind (fault : TextFault) (stack : List Frame) : Document :=
  ⟨stack.foldl (fun j frame => (frame.add j).close) (.broken fault), false⟩

def wanted (top : Interest) : List Frame → Interest
  | [] => top
  | frame :: _ => frame.inner

/-- The fault that a flaw is to a reader with this interest. -/
def flawFault (i : Interest) (flaw : Flaw) : Option TextFault :=
  if i.isNone then flaw.skipped else some flaw.wanted

/-- What one token does: the run goes on, the outermost value is complete, or the text is faulty. -/
inductive Move where
  | go (stack : List Frame) (expecting : Expecting)
  | done (j : Json)
  | stop (fault : TextFault)

/-- A value is complete. -/
def complete (j : Json) : List Frame → Move
  | [] => .done j
  | frame :: below => .go (frame.add j :: below) .commaOrClose

def closeTop : List Frame → Move
  | [] => .stop .malformed
  | frame :: below => complete frame.close below

def openFrame (stack : List Frame) (frame : Frame) (next : Expecting) : Move :=
  if !frame.interest.isNone && maxDepth ≤ stack.length then .stop .malformed
  else .go (frame :: stack) next

def completeOr (i : Interest) (stack : List Frame) (flaw : Flaw) : Move :=
  match flawFault i flaw with
  | some f => .stop f
  | none => complete .null stack

def beginValue (i : Interest) (stack : List Frame) : Token → Move
  | .openArray => openFrame stack (.array i []) .valueOrClose
  | .openObject => openFrame stack (.object i [] "") .nameOrClose
  | .text (.ok s) => complete (.string s) stack
  | .scalar (.ok j) => complete j stack
  | .text (.error flaw) => completeOr i stack flaw
  | .scalar (.error flaw) => completeOr i stack flaw
  | _ => .stop .malformed

/-- Reads the name of the next member of the object on top. -/
def readName (stack : List Frame) (t : Token) : Move :=
  match stack, t with
  | .object i members _ :: below, .text (.ok name) => .go (.object i members name :: below) .colon
  | .object i members _ :: below, .text (.error flaw) =>
    match flawFault i flaw with
    | some f => .stop f
    | none => .go (.object i members "" :: below) .colon
  | _, _ => .stop .malformed

def move (top : Interest) (stack : List Frame) : Expecting → Token → Move
  | .value, t => beginValue (wanted top stack) stack t
  | .valueOrClose, .closeArray => closeTop stack
  | .valueOrClose, t => beginValue (wanted top stack) stack t
  | .nameOrClose, .closeObject => closeTop stack
  | .nameOrClose, t => readName stack t
  | .name, t => readName stack t
  | .colon, .colon => .go stack .value
  | .colon, _ => .stop .malformed
  | .commaOrClose, t =>
    match stack, t with
    | .array i items :: _, .comma =>
      if i.isFull items.length then .stop .malformed else .go stack .value
    | .array .. :: _, .closeArray => closeTop stack
    | .object .. :: _, .comma => .go stack .name
    | .object .. :: _, .closeObject => closeTop stack
    | _, _ => .stop .malformed

def run (top : Interest) (stack : List Frame) (expecting : Expecting) : List Token → Document
  | [] => unwind .ended stack
  | t :: ts =>
    match move top stack expecting t with
    | .go stack expecting => run top stack expecting ts
    | .done j => ⟨j, !ts.isEmpty⟩
    | .stop f => unwind f stack

def read (top : Interest) (text : String) : Document := run top [] .value (tokens text.toList)

end MailSieve.Json
