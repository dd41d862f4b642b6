import MailSieve.CommandLine.Path

/-! Places in the tree of folders, and those that every system has: the folders at the root, and the
devices. -/

namespace MailSieve

/-- The parts on the way from the root. -/
abbrev Place := List Path.Part

namespace Place

def rootFolders : List Place :=
  ["bin", "boot", "dev", "etc", "home", "lib", "media", "mnt", "opt", "proc", "root", "run",
    "sbin", "srv", "sys", "tmp", "usr", "var"].map fun name => [name.toList]

end Place

/-- `null` forgets what is written to it and `full` takes nothing; the others are the standard
streams. -/
inductive Device where
  | null
  | full
  | input
  | output
  | errors
deriving DecidableEq

namespace Device

def all : List (Place × Device) :=
  [("null", null), ("full", full), ("stdin", input), ("stdout", output), ("stderr", errors)].map
    fun (name, device) => (["dev".toList, name.toList], device)

def at? (place : Place) : Option Device := all.lookup place

end Device

end MailSieve
