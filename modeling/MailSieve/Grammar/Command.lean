import MailSieve.Grammar.Test

/-! Commands, blocks and `if` chains.
A block stands one level deeper than its command. Each link of an `if` chain stands one level deeper
than the link before it, and its test and block one level deeper still. -/

namespace MailSieve.Parse

def requireCommand (start : Position) : Parse Command := do
  let capabilities ← stringList
  let _ ← expect .semicolon
  pure (.require ⟨capabilities.values.map (·.value), ← span start⟩)

def stopCommand (start : Position) : Parse Command := do
  let _ ← expect .semicolon
  pure (.stop (← span start))

def discardCommand (start : Position) : Parse Command := do
  let _ ← expect .semicolon
  pure (.discard (← span start))

def keepCommand (start : Position) : Parse Command := do
  let uses ← tags TagRules.keep
  let _ ← expect .semicolon
  pure (.keep ⟨uses.strings? "flags", ← span start⟩)

def fileIntoCommand (start : Position) : Parse Command := do
  let uses ← tags TagRules.fileInto
  let mailbox ← string
  let _ ← expect .semicolon
  pure (.fileInto
    ⟨mailbox, uses.has "copy", uses.has "create", uses.strings? "flags", ← span start⟩)

def redirectCommand (start : Position) : Parse Command := do
  let uses ← tags TagRules.redirect
  let address ← string
  let _ ← expect .semicolon
  pure (.redirect ⟨address, uses.has "copy", ← span start⟩)

def rejectCommand (start : Position) : Parse Command := do
  let reason ← string
  let _ ← expect .semicolon
  pure (.reject ⟨reason, ← span start⟩)

def setCommand (start : Position) : Parse Command := do
  let uses ← tags TagRules.set
  let name ← string
  let value ← string
  let _ ← expect .semicolon
  pure (.setVariable ⟨uses.modifiers, name, value, ← span start⟩)

def vacationCommand (start : Position) : Parse Command := do
  let uses ← tags TagRules.vacation
  let reason ← string
  let _ ← expect .semicolon
  pure (.vacation
    ⟨reason, uses.number? "days", uses.number? "seconds", uses.string? "subject",
      uses.string? "from", uses.strings? "addresses", uses.has "mime", uses.string? "handle",
      ← span start⟩)

/-- A single string may turn out to name a variable, if flags follow it. -/
def flagArguments : Parse (Option StringLit × StringList) := do
  note (.literal "[")
  if ← isAtString then
    let first ← string
    if ← isAtStringList then
      let flags ← stringList
      pure (some first, flags)
    else pure (none, ⟨[first], first.location⟩)
  else
    let flags ← stringList
    pure (none, flags)

def flagCommand (action : FlagAction) (start : Position) : Parse Command := do
  let (variableName, flags) ← flagArguments
  let _ ← expect .semicolon
  pure (.flag ⟨action, variableName, flags, ← span start⟩)

def notifyCommand (start : Position) : Parse Command := do
  let uses ← tags TagRules.notify
  let method ← string
  let _ ← expect .semicolon
  pure (.notify
    ⟨method, uses.string? "from", uses.importance? "importance", uses.strings? "options",
      uses.string? "message", ← span start⟩)

def ifCommand (test : Parse Test) (block : Parse Block) (chain : Parse Chain)
    (start : Position) : Parse Command := do
  let t ← test
  let body ← block
  let rest ← chain
  pure (.ifTest t body rest (← span start))

def genericCommand (test : Parse Test) (block : Parse Block) (name : String) (start : Position) :
    Parse Command := do
  let args ← arguments test
  if ← isAt .openBrace then
    let body ← block
    pure (.genericBlock name args body (← span start))
  else
    let _ ← expect .semicolon
    pure (.generic name args (← span start))

/-- The rest of a command that the keyword at `l` begins. -/
def keywordCommand (test : Parse Test) (block : Parse Block) (chain : Parse Chain) (l : Lexeme)
    (keyword : CommandKeyword) : Parse Command :=
  let start := l.location.start
  match keyword with
  | .require => requireCommand start
  | .ifTest => ifCommand test block chain start
  | .elsif => throw (.orphanBranch keyword.word l.location)
  | .elseBlock => throw (.orphanBranch keyword.word l.location)
  | .stop => stopCommand start
  | .keep => keepCommand start
  | .fileInto => fileIntoCommand start
  | .redirect => redirectCommand start
  | .discard => discardCommand start
  | .reject => rejectCommand start
  | .setVariable => setCommand start
  | .vacation => vacationCommand start
  | .setFlag => flagCommand .set start
  | .addFlag => flagCommand .add start
  | .removeFlag => flagCommand .remove start
  | .notify => notifyCommand start

/-- A command, given how to read the tests, blocks and chains within it. -/
def commandWith (test : Parse Test) (block : Parse Block) (chain : Parse Chain) :
    Parse Command := do
  note (.tokenClass "identifier")
  let l ← peek
  match l.token with
  | .word name =>
    let _ ← advance
    match CommandKeyword.ofWord? name with
    | some keyword => keywordCommand test block chain l keyword
    | none => genericCommand test block name l.location.start
  | _ => fail

/-- A command, or the brace that closes the block. -/
def commandOrClose (command : Parse Command) : Parse (Option Command) := do
  if ← eat .closeBrace then pure none
  else
    let c ← command
    pure (some c)

def blockWith (command : Parse Command) (start : Position) : Parse Block := do
  let commands ← many (commandOrClose command)
  pure (.mk commands (← span start))

/-- A link of a chain after its keyword at `l`, given how to read what is within it. -/
def elsifWith (test : Parse Test) (block : Parse Block) (chain : Parse Chain) (l : Lexeme) :
    Parse Chain := do
  let t ← test
  let body ← block
  let rest ← chain
  pure (.elsif t body rest (← span l.location.start))

def elseWith (block : Parse Block) (l : Lexeme) : Parse Chain := do
  let body ← block
  pure (.otherwise body (← span l.location.start))

/-- The links that follow, given what to do after each of the two keywords. -/
def chainWith (elsif elseBlock : Lexeme → Parse Chain) : Parse Chain := do
  let l ← peek
  if ← eatWord "elsif" then elsif l
  else if ← eatWord "else" then elseBlock l
  else pure .done

mutual

def block (room : Nat) : Parse Block := fun options c =>
  match room with
  | 0 => (do let l ← expect .openBrace; tooDeep l : Parse Block) options c
  | room + 1 =>
    (do
      let l ← expect .openBrace
      blockWith (commandWith (test room) (block room) (chain room)) l.location.start
      : Parse Block) options c

def chain (room : Nat) : Parse Chain := fun options c =>
  match room with
  | 0 => chainWith tooDeep tooDeep options c
  | room + 1 =>
    chainWith (elsifWith (test room) (block room) (chain room)) (elseWith (block room)) options c

end

def command (room : Nat) : Parse Command := commandWith (test room) (block room) (chain room)

end MailSieve.Parse
