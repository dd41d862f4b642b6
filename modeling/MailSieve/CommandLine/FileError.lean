/-! What can go wrong with a file, with the numbers and words of the system for it. `system` stands
for whatever else the system may answer. -/

namespace MailSieve

inductive FileError where
  | notFound
  | alreadyExists
  | notFolder
  | isFolder
  | noSpace
  | nameTooLong
  | nulInName
  | notText
  | system (number : Nat) (reason : String)
deriving DecidableEq

namespace FileError

def reason : FileError → String
  | notFound => "No such file or directory"
  | alreadyExists => "File exists"
  | notFolder => "Not a directory"
  | isFolder => "Is a directory"
  | noSpace => "No space left on device"
  | nameTooLong => "File name too long"
  | nulInName => "file name contained an unexpected NUL byte"
  | notText => "stream did not contain valid UTF-8"
  | system _ reason => reason

/-- Errors noticed before the system is asked, or after it has answered, have no number. -/
def number? : FileError → Option Nat
  | notFound => some 2
  | alreadyExists => some 17
  | notFolder => some 20
  | isFolder => some 21
  | noSpace => some 28
  | nameTooLong => some 36
  | nulInName | notText => none
  | system n _ => some n

def message (e : FileError) : String :=
  match e.number? with
  | some n => e.reason ++ " (os error " ++ toString n ++ ")"
  | none => e.reason

def numbered : List FileError :=
  [notFound, alreadyExists, notFolder, isFolder, noSpace, nameTooLong]

def ofNumber (n : Nat) (reason : String) : FileError :=
  (numbered.find? (·.number? == some n)).getD (system n reason)

end FileError

end MailSieve
