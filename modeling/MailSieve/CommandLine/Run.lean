import MailSieve.CommandLine.Arguments
import MailSieve.CommandLine.Host
import MailSieve.Settings
import MailSieve.Grammar.Script
import MailSieve.Canonical.Generate
import MailSieve.Interchange.Encode
import MailSieve.Interchange.Decode
import MailSieve.Capability

/-! Runs of the command line.
A run ends with an exit code: zero, one for a script or a file that is not as it should be, two for
arguments that make no request. Files are read before anything is written, and the only write of a
run is its last step but for printing. -/

namespace MailSieve.CommandLine

/-- A failure that ends a run: what was being done, and the cause if it is told. -/
structure Failure where
  context : String
  cause : Option String

namespace Failure

def text (f : Failure) : String :=
  "Error: " ++ f.context ++ "\n"
    ++ match f.cause with
      | some cause => "\nCaused by:\n    " ++ cause ++ "\n"
      | none => ""

def ofFile (context : String) (e : FileError) : Failure := ⟨context, some e.message⟩

end Failure

variable {m : Type → Type} [Monad m]

abbrev Run (m : Type → Type) := ExceptT Failure m

/-- A host's answer, or the failure that its error is in this context. -/
def orFail {α : Type} (context : String) (answer : m (Except FileError α)) : Run m α :=
  ExceptT.mk do
    match ← answer with
    | .ok a => pure (.ok a)
    | .error e => pure (.error (.ofFile context e))

def loadScript (host : Host m) (file : String) : m (Except FileError String) :=
  if Path.isStandardStream file then host.readInput else host.readFile file

/-- Without a target the text is printed. -/
def saveScript (host : Host m) (target : Option String) (text : String) :
    m (Except FileError Unit) :=
  match target with
  | some file =>
    if Path.isStandardStream file then do
      host.print text
      pure (.ok ())
    else host.writeFile file text
  | none => do
    host.print text
    pure (.ok ())

def readSource (host : Host m) (file : String) : Run m String :=
  orFail ("reading " ++ file) (loadScript host file)

def loadSettings (host : Host m) : Option String → m Settings
  | none => pure .standard
  | some file => do
    match ← host.readFile file with
    | .ok text => pure (.load (some text))
    | .error _ => pure (.load none)

def reportFault (host : Host m) (fault : Fault) (source file : String) : Run m Unit := do
  host.report (fault.diagnostic.render source (Path.displayName file) ++ "\n")

/-- The script in a file; a file that holds none is reported. -/
def loadAndParse (host : Host m) (settings : Settings) (locations : Bool) (file : String) :
    Run m (Option Script) := do
  let source ← readSource host file
  match Script.parse { settings.parseOptions with locations := locations } source with
  | .ok s => pure (some s)
  | .error fault =>
    reportFault host fault source file
    pure none

namespace LayoutChoice

def apply (choice : LayoutChoice) (settings : Settings) : Layout :=
  let layout := settings.layout
  ⟨(choice.indent.map Settings.spaces).getD layout.indent,
    if choice.crlf then Newline.crlf.text else layout.newline⟩

end LayoutChoice

/-- A text that is not empty ends with a line break. -/
def closeText (newline text : String) : String := if text.isEmpty then text else text ++ newline

def generated (s : Script) (layout : Layout) : String :=
  closeText layout.newline (s.generate layout)

def runParse (host : Host m) (settings : Settings) (file : String) (locations : Bool) :
    Run m Nat := do
  match ← loadAndParse host settings locations file with
  | none => pure 1
  | some s =>
    host.print ((Interchange.encodeScript s).pretty ++ "\n")
    pure 0

def runFormat (host : Host m) (settings : Settings) (file : String) (choice : LayoutChoice)
    (check : Bool) (target : Option String) : Run m Nat := do
  let source ← readSource host file
  match Script.parse settings.parseOptions source with
  | .error fault =>
    reportFault host fault source file
    pure 1
  | .ok s =>
    let text := generated s (choice.apply settings)
    if check then
      if text = source then pure 0
      else
        host.report (Path.displayName file ++ " is not canonically formatted\n")
        pure 1
    else
      orFail "writing formatted script" (saveScript host target text)
      pure 0

/-- The number of files that hold no script. -/
def countFaulty (host : Host m) (settings : Settings) : List String → Run m Nat
  | [] => pure 0
  | file :: files => do
    match ← loadAndParse host settings true file with
    | some _ => countFaulty host settings files
    | none => return (← countFaulty host settings files) + 1

def runCheck (host : Host m) (settings : Settings) (files : List String) : Run m Nat := do
  let faulty ← countFaulty host settings files
  if faulty = 0 then pure 0
  else
    host.report
      (toString faulty ++ " of " ++ toString files.length ++ " script(s) failed to parse\n")
    pure 1

def runGenerate (host : Host m) (settings : Settings) (file : String) (choice : LayoutChoice)
    (target : Option String) : Run m Nat := do
  let text ← readSource host file
  match Interchange.readScript text with
  | .error _ => throw ⟨"decoding JSON AST", none⟩
  | .ok s =>
    orFail "writing generated script"
      (saveScript host target (generated s (choice.apply settings)))
    pure 0

def capabilityLines (s : Script) : String :=
  String.join (s.required.map fun name =>
    (if s.declared.contains name then name else name ++ " (not required)") ++ "\n")

def runRequires (host : Host m) (settings : Settings) (file : String) : Run m Nat := do
  match ← loadAndParse host settings false file with
  | none => pure 1
  | some s =>
    host.print (capabilityLines s)
    pure (if s.missing.isEmpty then 0 else 1)

def runConfig (host : Host m) (settings : Settings) (file : Option String) (init : Bool) :
    Run m Nat := do
  host.print ("settings file: " ++ file.getD "(no config directory)" ++ "\n")
  if init then
    match file with
    | none => throw ⟨"no config directory to write settings into", none⟩
    | some name =>
      if ← host.fileExists name then
        host.print "settings file already exists; left unchanged\n"
      else
        orFail ("writing " ++ name) (host.writeFileInFolders name Settings.standard.text)
  host.print (settings.encode.pretty ++ "\n")
  pure 0

def runRequest (host : Host m) (settings : Settings) (settingsFile : Option String) :
    Request → Run m Nat
  | .parse file locations => runParse host settings file locations
  | .format file choice check target => runFormat host settings file choice check target
  | .check files => runCheck host settings files
  | .generate file choice target => runGenerate host settings file choice target
  | .requires file => runRequires host settings file
  | .config init => runConfig host settings settingsFile init

/-- Carries out an invocation and gives the exit code. -/
def invoke (host : Host m) (invocation : Invocation) : m Nat := do
  let settingsFile := invocation.settingsFile.or host.settingsFile
  let settings ← loadSettings host settingsFile
  match ← (runRequest host settings settingsFile invocation.request).run with
  | .ok code => pure code
  | .error failure =>
    host.report failure.text
    pure 1

def run (host : Host m) (args : List String) : m Nat := do
  match Invocation.ofArguments args with
  | .ok invocation => invoke host invocation
  | .error e =>
    host.report ("error: " ++ e.message ++ "\n")
    pure 2

end MailSieve.CommandLine
