import MailSieve.Script.Tree

/-! Outline of a script: the recorded locations of its commands, blocks, chain links and tests, each
with its kind, in source order of their beginnings. Tests are entered through negations,
conjunctions and disjunctions only. -/

namespace MailSieve.Outline

inductive Kind where
  | script
  | command
  | test
  | block
  | elsif
  | elseLink
deriving DecidableEq

abbrev Entry := Kind × Option Location

mutual

def ofTest : Test → List Entry
  | .negation t l => (.test, l) :: ofTest t
  | .allOf ts l => (.test, l) :: ofTests ts
  | .anyOf ts l => (.test, l) :: ofTests ts
  | t => [(.test, t.location)]

def ofTests : List Test → List Entry
  | [] => []
  | t :: ts => ofTest t ++ ofTests ts

end

mutual

def ofCommand : Command → List Entry
  | .ifTest test body chain l => (.command, l) :: ofTest test ++ ofBlock body ++ ofChain chain
  | .genericBlock _ _ body l => (.command, l) :: ofBlock body
  | c => [(.command, c.location)]

def ofCommands : List Command → List Entry
  | [] => []
  | c :: cs => ofCommand c ++ ofCommands cs

def ofBlock : Block → List Entry
  | .mk commands l => (.block, l) :: ofCommands commands

def ofChain : Chain → List Entry
  | .done => []
  | .elsif test body chain l => (.elsif, l) :: ofTest test ++ ofBlock body ++ ofChain chain
  | .otherwise body l => (.elseLink, l) :: ofBlock body

end

end MailSieve.Outline

namespace MailSieve

def Script.outline (s : Script) : List Outline.Entry :=
  (.script, s.location) :: Outline.ofCommands s.commands

end MailSieve
