import MailSieve.Text.Digits

/-! The arguments of the command line.
`--config` and `--log-level` may stand before or after the name of the subcommand; where one stands
on both sides, the later one counts. An option may be given once on each side. Its value is the next
argument, unless that looks like an option, or follows an equals sign. After `--` nothing is an
option. -/

namespace MailSieve.CommandLine

inductive UsageError where
  | missingSubcommand
  | unknownSubcommand (name : String)
  | unknownOption (name : String)
  | repeatedOption (name : String)
  | missingValue (name : String)
  | unwantedValue (name : String)
  | badValue (name value : String)
  | missingFile
  | unwantedArgument (value : String)
deriving DecidableEq

namespace UsageError

def message : UsageError → String
  | missingSubcommand => "a subcommand is required"
  | unknownSubcommand name => "unrecognized subcommand '" ++ name ++ "'"
  | unknownOption name => "unexpected argument '" ++ name ++ "'"
  | repeatedOption name => "'--" ++ name ++ "' cannot be used multiple times"
  | missingValue name => "a value is required for '--" ++ name ++ "'"
  | unwantedValue name => "'--" ++ name ++ "' takes no value"
  | badValue name value => "invalid value '" ++ value ++ "' for '--" ++ name ++ "'"
  | missingFile => "a file is required"
  | unwantedArgument value => "unexpected argument '" ++ value ++ "'"

end UsageError

inductive OptionKind where
  | flag
  | text
  | file
  | count
deriving DecidableEq

structure OptionRule where
  name : String
  letter : Option Char
  kind : OptionKind

structure OptionUse where
  name : String
  value : String

/-- What the arguments of one side of the subcommand's name hold. -/
structure Arguments where
  options : List OptionUse
  operands : List String

namespace Arguments

def value? (a : Arguments) (name : String) : Option String :=
  (a.options.find? (·.name == name)).map (·.value)

def has (a : Arguments) (name : String) : Bool := (a.value? name).isSome

def addOption (name value : String) (a : Arguments) : Arguments :=
  { a with options := ⟨name, value⟩ :: a.options }

def addOperand (value : String) (a : Arguments) : Arguments :=
  { a with operands := value :: a.operands }

end Arguments

/-- A number of at most 64 bits in decimal digits, perhaps with a plus sign. -/
def count? (s : String) : Option Nat :=
  let digits := match s.toList with
    | '+' :: ds => ds
    | ds => ds
  if digits.isEmpty || !digits.all Char.isDigit then none
  else
    let n := Text.digitsValue digits
    if n < UInt64.size then some n else none

def acceptsValue (kind : OptionKind) (value : String) : Bool :=
  match kind with
  | .flag => false
  | .text => true
  | .file => !value.isEmpty
  | .count => (count? value).isSome

/-- A lone dash is an operand. -/
def looksLikeOption (arg : String) : Bool :=
  match arg.toList with
  | '-' :: _ :: _ => true
  | _ => false

/-- An argument taken apart: an option with the value attached to it, or an operand. -/
inductive Shape where
  | endOfOptions
  | long (name : String) (value : Option String)
  | short (letter : Char) (value : Option String)
  | operand

def shapeOf (arg : String) : Shape :=
  match arg.toList with
  | ['-', '-'] => .endOfOptions
  | '-' :: '-' :: cs =>
    let name := cs.takeWhile (· != '=')
    match cs.dropWhile (· != '=') with
    | _ :: value => .long (String.ofList name) (some (String.ofList value))
    | [] => .long (String.ofList name) none
  | '-' :: c :: '=' :: cs => .short c (some (String.ofList cs))
  | ['-', c] => .short c none
  | '-' :: c :: cs => .short c (some (String.ofList cs))
  | _ => .operand

def ruleOf (rules : List OptionRule) : Shape → Option (OptionRule × Option String)
  | .long name value => (rules.find? (·.name == name)).map (·, value)
  | .short letter value => (rules.find? (·.letter == some letter)).map (·, value)
  | _ => none

def checkValue (rule : OptionRule) (value : String) : Except UsageError String :=
  if acceptsValue rule.kind value then .ok value else .error (.badValue rule.name value)

/-- Operands may be any texts but the empty one. -/
def operandsOnly : List String → Except UsageError Arguments
  | [] => .ok ⟨[], []⟩
  | arg :: rest => do
    if arg.isEmpty then throw (.badValue "file" arg)
    pure ((← operandsOnly rest).addOperand arg)

def addOnce (rule : OptionRule) (value : String) (a : Arguments) : Except UsageError Arguments :=
  if a.has rule.name then .error (.repeatedOption rule.name)
  else .ok (a.addOption rule.name value)

/-- Reads all the arguments after a subcommand's name. -/
def readArguments (rules : List OptionRule) : List String → Except UsageError Arguments
  | [] => .ok ⟨[], []⟩
  | arg :: rest =>
    match shapeOf arg with
    | .operand => do
      if arg.isEmpty then throw (.badValue "file" arg)
      pure ((← readArguments rules rest).addOperand arg)
    | .endOfOptions => operandsOnly rest
    | shape =>
      match ruleOf rules shape with
      | none => .error (.unknownOption arg)
      | some (rule, attached) =>
        match rule.kind, attached, rest with
        | .flag, none, rest => do addOnce rule "" (← readArguments rules rest)
        | .flag, some _, _ => .error (.unwantedValue rule.name)
        | _, some value, rest => do
          let value ← checkValue rule value
          addOnce rule value (← readArguments rules rest)
        | _, none, value :: rest => do
          if looksLikeOption value then throw (.missingValue rule.name)
          let value ← checkValue rule value
          addOnce rule value (← readArguments rules rest)
        | _, none, [] => .error (.missingValue rule.name)

/-- Reads the arguments before the subcommand's name, which is the first operand, and gives it with
the arguments after it. -/
def readLeading (rules : List OptionRule) :
    List String → Except UsageError (Arguments × String × List String)
  | [] => .error .missingSubcommand
  | arg :: rest =>
    match shapeOf arg with
    | .operand => .ok (⟨[], []⟩, arg, rest)
    | .endOfOptions => .error .missingSubcommand
    | shape =>
      match ruleOf rules shape with
      | none => .error (.unknownOption arg)
      | some (rule, attached) =>
        match rule.kind, attached, rest with
        | .flag, none, rest => do
          let (a, more) ← readLeading rules rest
          pure (← addOnce rule "" a, more)
        | .flag, some _, _ => .error (.unwantedValue rule.name)
        | _, some value, rest => do
          let value ← checkValue rule value
          let (a, more) ← readLeading rules rest
          pure (← addOnce rule value a, more)
        | _, none, value :: rest => do
          if looksLikeOption value then throw (.missingValue rule.name)
          let value ← checkValue rule value
          let (a, more) ← readLeading rules rest
          pure (← addOnce rule value a, more)
        | _, none, [] => .error (.missingValue rule.name)

/-- Layout asked for on the command line. -/
structure LayoutChoice where
  indent : Option Nat
  crlf : Bool
deriving DecidableEq

inductive Request where
  | parse (file : String) (locations : Bool)
  | format (file : String) (layout : LayoutChoice) (check : Bool) (target : Option String)
  | check (files : List String)
  | generate (file : String) (layout : LayoutChoice) (target : Option String)
  | requires (file : String)
  | config (init : Bool)
deriving DecidableEq

/-- What a command line asks for. Log lines are not kept, so a log level has no effect. -/
structure Invocation where
  settingsFile : Option String
  request : Request
deriving DecidableEq

def globalRules : List OptionRule := [⟨"log-level", none, .text⟩, ⟨"config", none, .file⟩]

def layoutRules : List OptionRule := [⟨"indent", none, .count⟩, ⟨"crlf", none, .flag⟩]

def targetRule : OptionRule := ⟨"output", some 'o', .file⟩

def subcommandRules (name : String) : Option (List OptionRule) :=
  match name with
  | "parse" => some [⟨"no-locations", none, .flag⟩]
  | "format" => some (layoutRules ++ [⟨"check", none, .flag⟩, targetRule])
  | "check" => some []
  | "generate" => some (layoutRules ++ [targetRule])
  | "requires" => some []
  | "config" => some [⟨"init", none, .flag⟩]
  | _ => none

def oneFile (a : Arguments) : Except UsageError String :=
  match a.operands with
  | [file] => .ok file
  | [] => .error .missingFile
  | _ :: extra :: _ => .error (.unwantedArgument extra)

def noFile (a : Arguments) : Except UsageError Unit :=
  match a.operands with
  | [] => .ok ()
  | extra :: _ => .error (.unwantedArgument extra)

def layoutChoice (a : Arguments) : LayoutChoice :=
  ⟨(a.value? "indent").bind count?, a.has "crlf"⟩

def requestOf (name : String) (a : Arguments) : Except UsageError Request :=
  match name with
  | "parse" => do pure (.parse (← oneFile a) (!a.has "no-locations"))
  | "format" => do
    pure (.format (← oneFile a) (layoutChoice a) (a.has "check") (a.value? "output"))
  | "check" => if a.operands.isEmpty then .error .missingFile else .ok (.check a.operands)
  | "generate" => do pure (.generate (← oneFile a) (layoutChoice a) (a.value? "output"))
  | "requires" => do pure (.requires (← oneFile a))
  | "config" => do
    noFile a
    pure (.config (a.has "init"))
  | _ => .error (.unknownSubcommand name)

def Invocation.ofArguments (args : List String) : Except UsageError Invocation := do
  let (leading, name, rest) ← readLeading globalRules args
  match subcommandRules name with
  | none => throw (.unknownSubcommand name)
  | some rules =>
    let a ← readArguments (globalRules ++ rules) rest
    let request ← requestOf name a
    pure ⟨(a.value? "config").or (leading.value? "config"), request⟩

end MailSieve.CommandLine
