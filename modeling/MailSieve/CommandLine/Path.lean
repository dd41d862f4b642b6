import MailSieve.CommandLine.FileError

/-! Names of files.
A name is split at its slashes. Names are compared by the parts that count: repeated and final
slashes do not, nor does a dot that is not the first part. The name `-` stands for the standard
streams. -/

namespace MailSieve.Path

abbrev Part := List Char

def splitSlash : List Char → List Part
  | [] => [[]]
  | c :: cs =>
    if c = '/' then [] :: splitSlash cs
    else
      match splitSlash cs with
      | [] => [[c]]
      | p :: ps => (c :: p) :: ps

/-- All parts, with an empty one at each end that is a slash. -/
def split (name : String) : List Part := splitSlash name.toList

def keepPart (part : Part) : Bool := part != [] && part != ['.']

/-- The parts that count; an absolute name has an empty first part. -/
def parts (name : String) : List Part :=
  match split name with
  | [] => []
  | first :: rest =>
    if rest.isEmpty && first.isEmpty then []
    else first :: rest.filter keepPart

def join (parts : List Part) : String := "/".intercalate (parts.map String.ofList)

def isAbsolute (parts : List Part) : Bool := parts.head? == some []

def endsInSlash (parts : List Part) : Bool := parts.getLast? == some []

/-- The parts before the last one that is not empty. -/
def folderParts (parts : List Part) : List Part :=
  (parts.reverse.dropWhile (·.isEmpty)).tail.reverse

def isStandardStream (name : String) : Bool := parts name == [['-']]

/-- The name by which reports call a source. -/
def displayName (name : String) : String := if isStandardStream name then "<stdin>" else name

/-- The bytes that a part of a name may have. -/
def maxPartSize : Nat := 255

/-- The bytes that a name may have. -/
def maxSize : Nat := 4095

def isLongPart (part : Part) : Bool := maxPartSize < (String.ofList part).utf8ByteSize

/-- The parts of a name with which the system can be asked. -/
def lookupParts (name : String) : Except FileError (List Part) :=
  if name.toList.contains '\x00' then .error .nulInName
  else if name.isEmpty then .error .notFound
  else if maxSize < name.utf8ByteSize then .error .nameTooLong
  else .ok (split name)

end MailSieve.Path
