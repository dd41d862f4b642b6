/-! The closed vocabularies of the filter language: match types, relational operators, address
parts, `set` modifiers, flag actions, importance levels and number quantifiers. `word` is the
spelling in a script; `ofWord?` reads it back and knows no other spelling. -/

namespace MailSieve

inductive MatchType where
  | is
  | contains
  | wildcard
  | regex
deriving DecidableEq

namespace MatchType

def values : List MatchType := [is, contains, wildcard, regex]

def word : MatchType → String
  | is => "is"
  | contains => "contains"
  | wildcard => "matches"
  | regex => "regex"

def ofWord? (s : String) : Option MatchType := values.find? (·.word == s)

theorem ofWord?_word (m : MatchType) : ofWord? m.word = some m := by cases m <;> rfl

end MatchType

inductive RelationalKind where
  | value
  | count
deriving DecidableEq

namespace RelationalKind

def values : List RelationalKind := [value, count]

def word : RelationalKind → String
  | value => "value"
  | count => "count"

end RelationalKind

inductive RelationalOperator where
  | gt
  | ge
  | lt
  | le
  | eq
  | ne
deriving DecidableEq

namespace RelationalOperator

def values : List RelationalOperator := [gt, ge, lt, le, eq, ne]

def word : RelationalOperator → String
  | gt => "gt"
  | ge => "ge"
  | lt => "lt"
  | le => "le"
  | eq => "eq"
  | ne => "ne"

def ofWord? (s : String) : Option RelationalOperator := values.find? (·.word == s)

theorem ofWord?_word (o : RelationalOperator) : ofWord? o.word = some o := by cases o <;> rfl

end RelationalOperator

inductive AddressPart where
  | whole
  | localPart
  | domain
  | user
  | detail
deriving DecidableEq

namespace AddressPart

def values : List AddressPart := [whole, localPart, domain, user, detail]

def word : AddressPart → String
  | whole => "all"
  | localPart => "localpart"
  | domain => "domain"
  | user => "user"
  | detail => "detail"

def ofWord? (s : String) : Option AddressPart := values.find? (·.word == s)

theorem ofWord?_word (p : AddressPart) : ofWord? p.word = some p := by cases p <;> rfl

end AddressPart

inductive SetModifier where
  | lower
  | upper
  | lowerFirst
  | upperFirst
  | quoteWildcard
  | length
  | encodeUrl
deriving DecidableEq

namespace SetModifier

def values : List SetModifier :=
  [lower, upper, lowerFirst, upperFirst, quoteWildcard, length, encodeUrl]

def word : SetModifier → String
  | lower => "lower"
  | upper => "upper"
  | lowerFirst => "lowerfirst"
  | upperFirst => "upperfirst"
  | quoteWildcard => "quotewildcard"
  | length => "length"
  | encodeUrl => "encodeurl"

def ofWord? (s : String) : Option SetModifier := values.find? (·.word == s)

theorem ofWord?_word (m : SetModifier) : ofWord? m.word = some m := by cases m <;> rfl

end SetModifier

inductive FlagAction where
  | set
  | add
  | remove
deriving DecidableEq

namespace FlagAction

def values : List FlagAction := [set, add, remove]

def word : FlagAction → String
  | set => "setflag"
  | add => "addflag"
  | remove => "removeflag"

end FlagAction

inductive Importance where
  | high
  | normal
  | low
deriving DecidableEq

namespace Importance

def values : List Importance := [high, normal, low]

/-- Levels are written as digits in a script. -/
def word : Importance → String
  | high => "1"
  | normal => "2"
  | low => "3"

def name : Importance → String
  | high => "high"
  | normal => "normal"
  | low => "low"

def ofWord? (s : String) : Option Importance := values.find? (·.word == s)

theorem ofWord?_word (i : Importance) : ofWord? i.word = some i := by cases i <;> rfl

end Importance

/-- A power of 1024 written after a number. -/
inductive Quantifier where
  | kilo
  | mega
  | giga
deriving DecidableEq

namespace Quantifier

def values : List Quantifier := [kilo, mega, giga]

def letter : Quantifier → Char
  | kilo => 'K'
  | mega => 'M'
  | giga => 'G'

def name (q : Quantifier) : String := String.singleton q.letter

def multiplier : Quantifier → Nat
  | kilo => 1024
  | mega => 1024 * 1024
  | giga => 1024 * 1024 * 1024

/-- Either case of the letter is read. -/
def ofLetter? (c : Char) : Option Quantifier :=
  if c = 'K' ∨ c = 'k' then some kilo
  else if c = 'M' ∨ c = 'm' then some mega
  else if c = 'G' ∨ c = 'g' then some giga
  else none

theorem ofLetter?_letter (q : Quantifier) : ofLetter? q.letter = some q := by cases q <;> rfl

end Quantifier

end MailSieve
