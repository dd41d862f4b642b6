import MailSieve.CommandLine.Run

/-! The program: the command line run on the real file system. -/

namespace MailSieve.Main

/-- Some calls give the negative of the system's number. -/
def systemNumber (n : UInt32) : Nat := if n < 0x80000000 then n.toNat else (-n).toNat

def fileError (e : IO.Error) : FileError :=
  match e with
  | .alreadyExists _ n reason | .noFileOrDirectory _ n reason | .invalidArgument _ n reason
  | .permissionDenied _ n reason | .resourceExhausted _ n reason | .inappropriateType _ n reason
  | .noSuchThing _ n reason | .interrupted _ n reason | .otherError n reason
  | .resourceBusy n reason | .resourceVanished n reason | .unsupportedOperation n reason
  | .hardwareFault n reason | .unsatisfiedConstraints n reason | .illegalOperation n reason
  | .protocolError n reason | .timeExpired n reason => .ofNumber (systemNumber n) reason
  | .unexpectedEof | .userError _ => .system 0 (toString e)

def attempt {α : Type} (action : IO α) : IO (Except FileError α) := do
  try
    return .ok (← action)
  catch e => return .error (fileError e)

def readText (name : String) : IO (Except FileError String) := do
  match ← attempt (IO.FS.readBinFile name) with
  | .error e => return .error e
  | .ok bytes => return (FileContent.ofBytes bytes).read

def readStandardInput : IO (Except FileError String) := do
  let stdin ← IO.getStdin
  let mut bytes := ByteArray.empty
  let mut more := true
  while more do
    let chunk ← stdin.read 65536
    more := !chunk.isEmpty
    bytes := bytes ++ chunk
  return (FileContent.ofBytes bytes).read

/-- The root, whose only part is empty, is always there. -/
def makeFolder (parts : List Path.Part) : IO (Except FileError Unit) := do
  let name := Path.join parts
  if name.isEmpty then return .ok ()
  match ← attempt (IO.FS.createDir name) with
  | .error .alreadyExists => attempt (IO.FS.createDirAll name)
  | made => return made

def isThere (name : String) : IO Bool := do
  try
    let _ ← IO.FS.withFile name .read fun _ => pure ()
    return true
  catch _ => return false

/-- A folder that is asked for counts only if it is named from the root. -/
def settingsFile : IO (Option String) := do
  let home := (← IO.getEnv "HOME").filter (!·.isEmpty)
  let asked := (← IO.getEnv "XDG_CONFIG_HOME").filter (·.startsWith "/")
  return home.map fun home => asked.getD (home ++ "/.config") ++ "/sieveform/settings.json"

def host (settingsFile : Option String) : Host IO where
  settingsFile := settingsFile
  readFile := readText
  readInput := readStandardInput
  writeFile name text := attempt (IO.FS.writeFile name text)
  makeFolder := makeFolder
  fileExists := isThere
  print := IO.print
  report := IO.eprint

end MailSieve.Main

def main (args : List String) : IO UInt32 := do
  let file ← MailSieve.Main.settingsFile
  let code ← MailSieve.CommandLine.run (MailSieve.Main.host file) args
  return code.toUInt32
