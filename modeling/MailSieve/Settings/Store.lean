import MailSieve.Settings
import MailSieve.Canonical.Generate

/-! The settings file as a store.
The state is the text of the file, if there is one. Texts may be put into it by other hands, so that
loading has to take whatever it finds. -/

namespace MailSieve.Settings

inductive Action where
  | write (text : String)
  | remove
  | read
  | load
  | init
  | save (settings : Settings)
  | format (source : String)

/-- `removed` says whether there was a file, `initialized` whether one was written. -/
inductive Answer where
  | written
  | removed (present : Bool)
  | content (text : Option String)
  | loaded (settings : Settings)
  | initialized (written : Bool)
  | formatted (text : Except Fault String)

/-- The canonical text of a source under the settings of a file. -/
def format (file : Option String) (source : String) : Except Fault String :=
  let settings := load file
  (Script.parse settings.parseOptions source).map fun s => s.generate settings.layout

namespace Action

/-- What an action makes of the file. -/
def next (file : Option String) : Action → Option String
  | write text => some text
  | remove => none
  | save settings => some settings.text
  | init => (Settings.init file).1
  | read | load | format _ => file

def answer (file : Option String) : Action → Answer
  | write _ => .written
  | remove => .removed file.isSome
  | read => .content file
  | load => .loaded (Settings.load file)
  | init => .initialized (Settings.init file).2
  | save _ => .written
  | format source => .formatted (Settings.format file source)

end Action

/-- The answers to a sequence of actions. -/
def run (file : Option String) : List Action → List Answer
  | [] => []
  | a :: as => a.answer file :: run (a.next file) as

/-- The file after a sequence of actions. -/
def after (file : Option String) (as : List Action) : Option String := as.foldl Action.next file

end MailSieve.Settings
