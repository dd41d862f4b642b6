/-! The keywords that name commands and tests.
Spelling is exact, letter case included; every other identifier names a generic command or test. The
two tables are separate, so a word may be a keyword in one position and free in the other. -/

namespace MailSieve

inductive CommandKeyword where
  | require
  | ifTest
  | elsif
  | elseBlock
  | stop
  | keep
  | fileInto
  | redirect
  | discard
  | reject
  | setVariable
  | vacation
  | setFlag
  | addFlag
  | removeFlag
  | notify
deriving DecidableEq

namespace CommandKeyword

def values : List CommandKeyword :=
  [require, ifTest, elsif, elseBlock, stop, keep, fileInto, redirect, discard, reject,
    setVariable, vacation, setFlag, addFlag, removeFlag, notify]

def word : CommandKeyword → String
  | require => "require"
  | ifTest => "if"
  | elsif => "elsif"
  | elseBlock => "else"
  | stop => "stop"
  | keep => "keep"
  | fileInto => "fileinto"
  | redirect => "redirect"
  | discard => "discard"
  | reject => "reject"
  | setVariable => "set"
  | vacation => "vacation"
  | setFlag => "setflag"
  | addFlag => "addflag"
  | removeFlag => "removeflag"
  | notify => "notify"

def ofWord? (s : String) : Option CommandKeyword := values.find? (·.word == s)

theorem ofWord?_word (k : CommandKeyword) : ofWord? k.word = some k := by cases k <;> rfl

end CommandKeyword

inductive TestKeyword where
  | always
  | never
  | negation
  | allOf
  | anyOf
  | address
  | header
  | envelope
  | headerExists
  | size
  | body
  | date
  | currentDate
  | hasFlag
  | string
  | ihave
  | duplicate
deriving DecidableEq

namespace TestKeyword

def values : List TestKeyword :=
  [always, never, negation, allOf, anyOf, address, header, envelope, headerExists, size, body,
    date, currentDate, hasFlag, string, ihave, duplicate]

def word : TestKeyword → String
  | always => "true"
  | never => "false"
  | negation => "not"
  | allOf => "allof"
  | anyOf => "anyof"
  | address => "address"
  | header => "header"
  | envelope => "envelope"
  | headerExists => "exists"
  | size => "size"
  | body => "body"
  | date => "date"
  | currentDate => "currentdate"
  | hasFlag => "hasflag"
  | string => "string"
  | ihave => "ihave"
  | duplicate => "duplicate"

def ofWord? (s : String) : Option TestKeyword := values.find? (·.word == s)

theorem ofWord?_word (k : TestKeyword) : ofWord? k.word = some k := by cases k <;> rfl

end TestKeyword

end MailSieve
