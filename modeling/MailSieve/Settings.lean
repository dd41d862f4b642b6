import MailSieve.Json.Decode
import MailSieve.Json.Printer
import MailSieve.Script.Check
import MailSieve.Canonical.Mark
import MailSieve.Grammar.Script

/-! User preferences and the file that holds them.
The file is JSON text: an object, or a list of the values that its members would have. A member that
is absent has its default; a text that is not such a file in any other way counts as no file at all,
which means the defaults. -/

namespace MailSieve

inductive Newline where
  | lf
  | crlf
deriving DecidableEq

namespace Newline

def values : List Newline := [lf, crlf]

def name : Newline → String
  | lf => "lf"
  | crlf => "crlf"

def text : Newline → String
  | lf => "\n"
  | crlf => "\r\n"

end Newline

structure Settings where
  indentWidth : UInt64
  newline : Newline
  maxDepth : UInt64
  logLevel : String
deriving DecidableEq

namespace Settings
open Json Json.Record

def standard : Settings := ⟨4, .lf, 128, "warn"⟩

def spaces (n : Nat) : String := String.ofList (List.replicate n ' ')

def layout (s : Settings) : Layout := ⟨spaces s.indentWidth.toNat, s.newline.text⟩

def parseOptions (s : Settings) : ParseOptions := ⟨true, s.maxDepth.toNat⟩

def encode (s : Settings) : Json :=
  .object
    [("indent_width", .natural s.indentWidth.toNat), ("newline", .string s.newline.name),
      ("max_depth", .natural s.maxDepth.toNat), ("log_level", .string s.logLevel)]

def decodeNewline : Decoder TreeFlaw Newline :=
  decodeName decodeNull (Newline.values.map fun n => (n.name, n))

def record : Record TreeFlaw Settings :=
  Settings.mk
    <$> default "indent_width" standard.indentWidth decodeWord
    <*> default "newline" standard.newline decodeNewline
    <*> default "max_depth" standard.maxDepth decodeWord
    <*> default "log_level" standard.logLevel decodeString

def decode : Decoder TreeFlaw Settings := record.decode

def interest : Interest :=
  .members
    [("indent_width", .whole), ("newline", .whole), ("max_depth", .whole), ("log_level", .whole)]

/-- The text that a file of these settings holds. -/
def text (s : Settings) : String := s.encode.pretty

def ofText (text : String) : Settings :=
  match decodeText interest decode text with
  | .ok s => s
  | .error _ => standard

/-- The settings of a file, or of its absence. -/
def load (file : Option String) : Settings :=
  match file with
  | some text => ofText text
  | none => standard

/-- The file after writing the defaults into it unless it is there, and whether they were written.
-/
def init (file : Option String) : Option String × Bool :=
  match file with
  | some text => (some text, false)
  | none => (some standard.text, true)

end Settings

end MailSieve
