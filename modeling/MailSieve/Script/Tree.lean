import MailSieve.Source
import MailSieve.Script.Vocabulary

/-! Syntax trees of filter scripts.
Every node may carry the location it was read from; a tree built by hand carries none. Absent tags
stay absent: no default is ever written into a tree. The types admit trees that no script denotes
(empty lists, keywords as generic names, conflicting tags); which trees are sound is said elsewhere.
-/

namespace MailSieve

/-- A string, to be written in quotes or, if `multiline`, as a `text:` literal. -/
structure StringLit where
  value : String
  multiline : Bool
  location : Option Location
deriving DecidableEq

structure StringList where
  values : List StringLit
  location : Option Location
deriving DecidableEq

/-- `value` is already multiplied out by the quantifier. -/
structure NumberLit where
  value : UInt64
  quantifier : Option Quantifier
  location : Option Location
deriving DecidableEq

structure Relational where
  kind : RelationalKind
  operator : RelationalOperator
deriving DecidableEq

structure MatchOptions where
  matchType : Option MatchType
  relational : Option Relational
  comparator : Option StringLit
deriving DecidableEq

inductive BodyTransform where
  | raw
  | text
  | content (types : StringList)
deriving DecidableEq

structure AddressTest where
  addressPart : Option AddressPart
  options : MatchOptions
  headers : StringList
  keys : StringList
  location : Option Location
deriving DecidableEq

structure EnvelopeTest where
  addressPart : Option AddressPart
  options : MatchOptions
  envelopeParts : StringList
  keys : StringList
  location : Option Location
deriving DecidableEq

structure HeaderTest where
  options : MatchOptions
  headers : StringList
  keys : StringList
  location : Option Location
deriving DecidableEq

/-- `above` tells `:over` from `:under`. -/
structure SizeTest where
  above : Bool
  size : NumberLit
  location : Option Location
deriving DecidableEq

structure BodyTest where
  transform : Option BodyTransform
  options : MatchOptions
  keys : StringList
  location : Option Location
deriving DecidableEq

structure DateTest where
  zone : Option StringLit
  originalZone : Bool
  options : MatchOptions
  header : StringLit
  datePart : StringLit
  keys : StringList
  location : Option Location
deriving DecidableEq

structure CurrentDateTest where
  zone : Option StringLit
  options : MatchOptions
  datePart : StringLit
  keys : StringList
  location : Option Location
deriving DecidableEq

structure HasFlagTest where
  options : MatchOptions
  variableNames : Option StringList
  flags : StringList
  location : Option Location
deriving DecidableEq

structure StringTest where
  options : MatchOptions
  source : StringList
  keys : StringList
  location : Option Location
deriving DecidableEq

structure DuplicateTest where
  handle : Option StringLit
  header : Option StringLit
  uniqueId : Option StringLit
  seconds : Option NumberLit
  last : Bool
  location : Option Location
deriving DecidableEq

mutual

inductive Test where
  | always (location : Option Location)
  | never (location : Option Location)
  | negation (test : Test) (location : Option Location)
  | allOf (tests : List Test) (location : Option Location)
  | anyOf (tests : List Test) (location : Option Location)
  | address (test : AddressTest)
  | header (test : HeaderTest)
  | envelope (test : EnvelopeTest)
  | headerExists (headers : StringList) (location : Option Location)
  | size (test : SizeTest)
  | body (test : BodyTest)
  | date (test : DateTest)
  | currentDate (test : CurrentDateTest)
  | hasFlag (test : HasFlagTest)
  | string (test : StringTest)
  | ihave (capabilities : StringList) (location : Option Location)
  | duplicate (test : DuplicateTest)
  | generic (name : String) (arguments : List Argument) (location : Option Location)

/-- An argument of a generic command or test, kept in source order. -/
inductive Argument where
  | tag (name : String) (location : Option Location)
  | number (number : NumberLit)
  | string (string : StringLit)
  | strings (list : StringList)
  | tests (tests : List Test) (location : Option Location)

end

structure KeepCommand where
  flags : Option StringList
  location : Option Location
deriving DecidableEq

structure FileIntoCommand where
  mailbox : StringLit
  copy : Bool
  create : Bool
  flags : Option StringList
  location : Option Location
deriving DecidableEq

structure RedirectCommand where
  address : StringLit
  copy : Bool
  location : Option Location
deriving DecidableEq

structure RejectCommand where
  reason : StringLit
  location : Option Location
deriving DecidableEq

structure SetCommand where
  modifiers : List SetModifier
  name : StringLit
  value : StringLit
  location : Option Location
deriving DecidableEq

structure VacationCommand where
  reason : StringLit
  days : Option NumberLit
  seconds : Option NumberLit
  subject : Option StringLit
  sender : Option StringLit
  addresses : Option StringList
  mime : Bool
  handle : Option StringLit
  location : Option Location
deriving DecidableEq

structure FlagCommand where
  action : FlagAction
  variableName : Option StringLit
  flags : StringList
  location : Option Location
deriving DecidableEq

structure NotifyCommand where
  method : StringLit
  sender : Option StringLit
  importance : Option Importance
  options : Option StringList
  message : Option StringLit
  location : Option Location
deriving DecidableEq

structure RequireCommand where
  capabilities : List String
  location : Option Location
deriving DecidableEq

mutual

inductive Command where
  | require (command : RequireCommand)
  | ifTest (test : Test) (body : Block) (chain : Chain) (location : Option Location)
  | stop (location : Option Location)
  | keep (command : KeepCommand)
  | fileInto (command : FileIntoCommand)
  | redirect (command : RedirectCommand)
  | discard (location : Option Location)
  | reject (command : RejectCommand)
  | setVariable (command : SetCommand)
  | vacation (command : VacationCommand)
  | flag (command : FlagCommand)
  | notify (command : NotifyCommand)
  | generic (name : String) (arguments : List Argument) (location : Option Location)
  | genericBlock (name : String) (arguments : List Argument) (body : Block)
      (location : Option Location)

/-- Commands in braces. -/
inductive Block where
  | mk (commands : List Command) (location : Option Location)

/-- What follows the first block of an `if`. -/
inductive Chain where
  | done
  | elsif (test : Test) (body : Block) (chain : Chain) (location : Option Location)
  | otherwise (body : Block) (location : Option Location)

end

structure Script where
  commands : List Command
  location : Option Location

namespace Block

def commands : Block → List Command
  | mk commands _ => commands

def location : Block → Option Location
  | mk _ location => location

end Block

namespace Test

def location : Test → Option Location
  | always l | never l | negation _ l | allOf _ l | anyOf _ l | headerExists _ l | ihave _ l
  | generic _ _ l => l
  | address t => t.location
  | header t => t.location
  | envelope t => t.location
  | size t => t.location
  | body t => t.location
  | date t => t.location
  | currentDate t => t.location
  | hasFlag t => t.location
  | string t => t.location
  | duplicate t => t.location

end Test

namespace Argument

def location : Argument → Option Location
  | tag _ l | tests _ l => l
  | number n => n.location
  | string s => s.location
  | strings s => s.location

end Argument

namespace Command

def location : Command → Option Location
  | ifTest _ _ _ l | stop l | discard l | generic _ _ l | genericBlock _ _ _ l => l
  | require c => c.location
  | keep c => c.location
  | fileInto c => c.location
  | redirect c => c.location
  | reject c => c.location
  | setVariable c => c.location
  | vacation c => c.location
  | flag c => c.location
  | notify c => c.location

end Command

end MailSieve
