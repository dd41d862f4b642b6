import MailSieve.CommandLine.Workspace

/-! What a run needs from its surroundings: files, the standard streams, and the name of the user's
own settings file. `Workspace.host` is the host whose surroundings are a workspace. -/

namespace MailSieve

structure Host (m : Type → Type) where
  /-- There is none where no folder is known to keep it in. -/
  settingsFile : Option String
  readFile : String → m (Except FileError String)
  readInput : m (Except FileError String)
  writeFile : String → String → m (Except FileError Unit)
  /-- A folder that is there is left as it is. -/
  makeFolder : List Path.Part → m (Except FileError Unit)
  fileExists : String → m Bool
  print : String → m Unit
  report : String → m Unit

namespace Host

variable {m : Type → Type} [Monad m]

/-- Makes a folder and those above it that are missing. The parts are given last to first. -/
def makeFolders (host : Host m) : List Path.Part → m (Except FileError Unit)
  | [] => pure (.ok ())
  | part :: above => do
    let parts := (part :: above).reverse
    match ← host.makeFolder parts with
    | .error .notFound =>
      match ← host.makeFolders above with
      | .ok () => host.makeFolder parts
      | .error e => pure (.error e)
    | made => pure made

def writeFileInFolders (host : Host m) (name text : String) : m (Except FileError Unit) := do
  match ← host.makeFolders (Path.parts name).dropLast.reverse with
  | .ok () => host.writeFile name text
  | .error e => pure (.error e)

end Host

namespace Workspace

def readingInput : StateM Workspace (Except FileError String) := fun w =>
  (.ok w.input, { w with input := "" })

def printing (text : String) : StateM Workspace Unit := fun w =>
  ((), { w with output := w.output ++ text })

def reporting (text : String) : StateM Workspace Unit := fun w =>
  ((), { w with errors := w.errors ++ text })

/-- Only standard input has something to read. -/
def receiving (d : Device) : StateM Workspace (Except FileError String) :=
  match d with
  | .input => readingInput
  | .null | .full | .output | .errors => pure (.ok "")

def sending (d : Device) (text : String) : StateM Workspace (Except FileError Unit) := do
  match d with
  | .null | .input => pure (.ok ())
  | .full => pure (if text.isEmpty then .ok () else .error .noSpace)
  | .output =>
    printing text
    pure (.ok ())
  | .errors =>
    reporting text
    pure (.ok ())

def reading (name : String) : StateM Workspace (Except FileError String) := fun w =>
  match w.find name with
  | .error e => (.error e, w)
  | .ok .folder => (.error .isFolder, w)
  | .ok (.file content) => (content.read, w)
  | .ok (.device d) => receiving d w

def writing (name text : String) : StateM Workspace (Except FileError Unit) := fun w =>
  match w.target name with
  | .error e => (.error e, w)
  | .ok place =>
    match Device.at? place with
    | some d => sending d text w
    | none => (.ok (), w.put place (.text text))

def makingFolder (parts : List Path.Part) : StateM Workspace (Except FileError Unit) := fun w =>
  match w.makeFolder parts with
  | .error e => (.error e, w)
  | .ok w => (.ok (), w)

def host (settingsFile : Option String) : Host (StateM Workspace) where
  settingsFile := settingsFile
  readFile := reading
  readInput := readingInput
  writeFile := writing
  makeFolder := makingFolder
  fileExists name := fun w => (w.isThere name, w)
  print := printing
  report := reporting

end Workspace

end MailSieve
