import MailSieve.Grammar.Value

/-! Tags of commands and tests of fixed shape.
Each shape has a list of rules: the tags it takes, what follows each of them, and which of them
exclude each other. Tags come in any order; of those in one group only one may occur, and once. A
tag outside every group may be repeated. The value of a tag is read before its group is looked at,
except that a relational operator is not read where the group is taken. -/

namespace MailSieve

inductive TagValue where
  | none
  | string (s : StringLit)
  | strings (l : StringList)
  | number (n : NumberLit)
  | operator (o : RelationalOperator)
  | importance (i : Importance)

inductive TagValueKind where
  | none
  | string
  | strings
  | number
  | operator
  | importance
deriving DecidableEq

structure TagRule where
  name : String
  value : TagValueKind
  group : Option String

structure TagUse where
  rule : TagRule
  value : TagValue

abbrev TagUses := List TagUse

namespace TagUses

def taken (uses : TagUses) (rule : TagRule) : Bool :=
  rule.group.isSome && uses.any fun u => u.rule.group == rule.group

def value? (uses : TagUses) (name : String) : Option TagValue :=
  (uses.find? (·.rule.name == name)).map (·.value)

def has (uses : TagUses) (name : String) : Bool := (uses.value? name).isSome

def string? (uses : TagUses) (name : String) : Option StringLit :=
  match uses.value? name with
  | some (.string s) => some s
  | _ => none

def strings? (uses : TagUses) (name : String) : Option StringList :=
  match uses.value? name with
  | some (.strings l) => some l
  | _ => none

def number? (uses : TagUses) (name : String) : Option NumberLit :=
  match uses.value? name with
  | some (.number n) => some n
  | _ => none

def importance? (uses : TagUses) (name : String) : Option Importance :=
  match uses.value? name with
  | some (.importance i) => some i
  | _ => none

def relational? (uses : TagUses) (kind : RelationalKind) : Option Relational :=
  match uses.value? kind.word with
  | some (.operator o) => some ⟨kind, o⟩
  | _ => none

def matchOptions (uses : TagUses) : MatchOptions :=
  ⟨MatchType.values.find? fun m => uses.has m.word,
    RelationalKind.values.findSome? uses.relational?,
    uses.string? "comparator"⟩

def addressPart? (uses : TagUses) : Option AddressPart :=
  AddressPart.values.find? fun p => uses.has p.word

def transform? (uses : TagUses) : Option BodyTransform :=
  if uses.has "raw" then some .raw
  else if uses.has "text" then some .text
  else (uses.strings? "content").map .content

def modifiers (uses : TagUses) : List SetModifier :=
  uses.filterMap fun u => SetModifier.ofWord? u.rule.name

end TagUses

namespace TagRule

def flag (name : String) : TagRule := ⟨name, .none, some name⟩

def string (name : String) : TagRule := ⟨name, .string, some name⟩

def strings (name : String) : TagRule := ⟨name, .strings, some name⟩

end TagRule

namespace TagRules

/-- Match types and relational matches exclude each other. -/
def matching : List TagRule :=
  MatchType.values.map (fun m => ⟨m.word, .none, some "match"⟩)
    ++ RelationalKind.values.map (fun k => ⟨k.word, .operator, some "match"⟩)
    ++ [.string "comparator"]

def address : List TagRule :=
  matching ++ AddressPart.values.map fun p => ⟨p.word, .none, some "part"⟩

def body : List TagRule :=
  matching
    ++ [⟨"raw", .none, some "transform"⟩, ⟨"text", .none, some "transform"⟩,
      ⟨"content", .strings, some "transform"⟩]

def currentDate : List TagRule := matching ++ [.string "zone"]

def date : List TagRule := matching ++ [.string "zone", ⟨"originalzone", .none, some "zone"⟩]

def size : List TagRule := [⟨"over", .none, some "size"⟩, ⟨"under", .none, some "size"⟩]

def duplicate : List TagRule :=
  [.string "handle", .string "header", ⟨"uniqueid", .string, some "header"⟩,
    ⟨"seconds", .number, some "seconds"⟩, .flag "last"]

def keep : List TagRule := [.strings "flags"]

def fileInto : List TagRule := [.flag "copy", .flag "create", .strings "flags"]

def redirect : List TagRule := [.flag "copy"]

def set : List TagRule := SetModifier.values.map fun m => ⟨m.word, .none, none⟩

def vacation : List TagRule :=
  [⟨"days", .number, some "interval"⟩, ⟨"seconds", .number, some "interval"⟩, .string "subject",
    .string "from", .strings "addresses", .flag "mime", .string "handle"]

def notify : List TagRule :=
  [.string "from", ⟨"importance", .importance, some "importance"⟩, .strings "options",
    .string "message"]

end TagRules

namespace Parse

def tagValue : TagValueKind → Parse TagValue
  | .none => pure .none
  | .string => do pure (.string (← string))
  | .strings => do pure (.strings (← stringList))
  | .number => do pure (.number (← number))
  | .operator => do pure (.operator (← chosen RelationalOperator.ofWord? .badOperator))
  | .importance => do pure (.importance (← chosen Importance.ofWord? .badImportance))

def conflict {α : Type} (name : String) (l : Lexeme) : Parse α :=
  throw (.conflictingTag name l.location l.found)

/-- One more tag and its value. -/
def tagStep (rules : List TagRule) (uses : TagUses) : Parse (Option TagUses) := do
  match ← nextTag with
  | none => pure none
  | some (name, l) =>
    match rules.find? (·.name == name) with
    | none => throw (.unknownTag name l.location l.found (rules.map (·.name)))
    | some rule =>
      if rule.value = .operator && uses.taken rule then conflict name l
      else
        let value ← tagValue rule.value
        if uses.taken rule then conflict name l
        else pure (some (uses ++ [⟨rule, value⟩]))

def tags (rules : List TagRule) : Parse TagUses := iterate (tagStep rules) []

end Parse

end MailSieve
