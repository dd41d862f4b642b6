/-! JSON values.
Objects keep their members in order, repeated names included. Numbers are told apart as far as a
reader of unsigned integers needs: natural numbers, negative integers, and all others by their text.
A text that stops being JSON is read up to there, and the value has `broken` in the place where it
stops. -/

namespace MailSieve

/-- Why a text is not JSON: it ends too early, or something stands where it must not. -/
inductive TextFault where
  | ended
  | malformed
deriving DecidableEq

inductive Json where
  | null
  | bool (b : Bool)
  | natural (n : Nat)
  | negative (n : Nat)
  | real (text : String)
  | string (s : String)
  | array (items : List Json)
  | object (members : List (String × Json))
  | broken (fault : TextFault)

namespace Json

mutual

/-- How deep arrays and objects are nested. -/
def depth : Json → Nat
  | array items => depthItems items + 1
  | object members => depthMembers members + 1
  | _ => 0

def depthItems : List Json → Nat
  | [] => 0
  | j :: js => max j.depth (depthItems js)

def depthMembers : List (String × Json) → Nat
  | [] => 0
  | (_, j) :: ms => max j.depth (depthMembers ms)

end

mutual

/-- The fault of a value that breaks off. -/
def fault? : Json → Option TextFault
  | broken f => some f
  | array items => faultItems? items
  | object members => faultMembers? members
  | _ => none

def faultItems? : List Json → Option TextFault
  | [] => none
  | j :: js => j.fault?.or (faultItems? js)

def faultMembers? : List (String × Json) → Option TextFault
  | [] => none
  | (_, j) :: ms => j.fault?.or (faultMembers? ms)

end

end Json

end MailSieve
