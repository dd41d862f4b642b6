import MailSieve.CommandLine.Place

/-! A workspace: the files that a run can see, its standard input, and what it has printed.
A name is followed part by part, from the root or from the working folder, and each part but the
last must lead into a folder. A folder is there if a file lies in it, if it was made, or if every
system has it. -/

namespace MailSieve

/-- A file holds a text, or bytes that are none. -/
inductive FileContent where
  | text (s : String)
  | notText
deriving DecidableEq

namespace FileContent

def ofBytes (bytes : ByteArray) : FileContent :=
  match String.fromUTF8? bytes with
  | some s => text s
  | none => notText

def read : FileContent → Except FileError String
  | text s => .ok s
  | notText => .error .notText

end FileContent

inductive Entry where
  | folder
  | file (content : FileContent)
  | device (d : Device)
deriving DecidableEq

/-- `here` is the working folder, and `folders` holds the folders that were made. -/
structure Workspace where
  here : Place
  files : List (Place × FileContent)
  folders : List Place
  input : String
  output : String
  errors : String

namespace Workspace

def empty (here : Place) : Workspace := ⟨here, [], [], "", "", ""⟩

def file? (w : Workspace) (place : Place) : Option FileContent := w.files.lookup place

def hasFile (w : Workspace) (place : Place) : Bool := (w.file? place).isSome

/-- With a folder, those above it are there. -/
def isFolder (w : Workspace) (place : Place) : Bool :=
  (w.here :: w.folders ++ Place.rootFolders).any place.isPrefixOf
    || w.files.any fun f => place.isPrefixOf f.1 && place.length < f.1.length

def entry? (w : Workspace) (place : Place) : Option Entry :=
  match w.file? place, Device.at? place with
  | some content, _ => some (.file content)
  | none, some d => some (.device d)
  | none, none => if w.isFolder place then some .folder else none

/-- Two dots lead to the folder above, and from the root back to the root. -/
def step (w : Workspace) (place : Place) (part : Path.Part) : Except FileError Place :=
  match w.entry? place with
  | none => .error .notFound
  | some .folder =>
    if part = [] || part = ['.'] then .ok place
    else if part = ['.', '.'] then .ok place.dropLast
    else if Path.isLongPart part then .error .nameTooLong
    else .ok (place ++ [part])
  | some _ => .error .notFolder

/-- Where the parts lead; nothing need be there. -/
def follow (w : Workspace) (absolute : Bool) (parts : List Path.Part) : Except FileError Place :=
  parts.foldlM w.step (if absolute then [] else w.here)

def placeOf (w : Workspace) (name : String) : Except FileError Place := do
  let parts ← Path.lookupParts name
  w.follow (Path.isAbsolute parts) parts

/-- What a name stands for. -/
def find (w : Workspace) (name : String) : Except FileError Entry := do
  match w.entry? (← w.placeOf name) with
  | some entry => pure entry
  | none => throw .notFound

def isThere (w : Workspace) (name : String) : Bool := (w.find name).isOk

/-- The place that a write to this name fills. A name that ends in a slash can only be a folder's.
-/
def target (w : Workspace) (name : String) : Except FileError Place := do
  let parts ← Path.lookupParts name
  let absolute := Path.isAbsolute parts
  if Path.endsInSlash parts then
    let _ ← w.follow absolute (Path.folderParts parts ++ [[]])
    throw .isFolder
  let place ← w.follow absolute parts
  if w.isFolder place then throw .isFolder else pure place

/-- Puts a content into a file, old or new. -/
def put (w : Workspace) (place : Place) (content : FileContent) : Workspace :=
  if w.hasFile place then
    { w with files := w.files.map fun f => if f.1 = place then (place, content) else f }
  else { w with files := w.files ++ [(place, content)] }

/-- Makes the folder to which these parts lead, unless it is there. -/
def makeFolder (w : Workspace) (parts : List Path.Part) : Except FileError Workspace := do
  let place ← w.follow (Path.isAbsolute parts) parts
  match w.entry? place with
  | none => pure { w with folders := place :: w.folders }
  | some .folder => pure w
  | some _ => throw .alreadyExists

end Workspace

end MailSieve
