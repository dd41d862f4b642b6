import MailSieve.Json.Reader

/-! Decoding JSON values.
A decoder takes a value or says why not. Members of an object are looked at in the order they stand,
so of two faults the earlier one is reported; a member that is missing is noticed only at the end,
in the order of declaration. Members with names that are not asked for are passed over. The values
of the members may also be given as a list in the order of declaration. `E` stands for the errors by
which a decoded value may be refused. -/

namespace MailSieve.Json

/-- A value is wrong if it is out of range, or if it is a list of another length than asked for. -/
inductive DecodeError (E : Type) where
  | missingField (name : String)
  | unknownVariant (name : String) (known : List String)
  | duplicateField (name : String)
  | wrongType
  | wrongValue
  | refused (reason : E)
  | text (fault : TextFault)

namespace DecodeError

def quoteName (name : String) : String := "`" ++ name ++ "`"

def knownNames : List String → String
  | [] => "there are no variants"
  | [a] => "expected " ++ quoteName a
  | [a, b] => "expected " ++ quoteName a ++ " or " ++ quoteName b
  | names => "expected one of " ++ ", ".intercalate (names.map quoteName)

/-- The wording of the errors that name something. -/
def message? {E : Type} (reason : E → String) : DecodeError E → Option String
  | missingField name => some ("missing field " ++ quoteName name)
  | unknownVariant name known =>
    some ("unknown variant " ++ quoteName name ++ ", " ++ knownNames known)
  | duplicateField name => some ("duplicate field " ++ quoteName name)
  | refused r => some (reason r)
  | wrongType | wrongValue | text _ => none

end DecodeError

variable {E : Type} {α β : Type}

abbrev Decoder (E α : Type) := Json → Except (DecodeError E) α

abbrev Members := List (String × Json)

/-- Any value of another type than asked for. -/
def mismatch : Json → DecodeError E
  | .broken f => .text f
  | _ => .wrongType

def decodeString : Decoder E String
  | .string s => .ok s
  | j => .error (mismatch j)

def decodeBool : Decoder E Bool
  | .bool b => .ok b
  | j => .error (mismatch j)

def decodeNatural : Decoder E Nat
  | .natural n => .ok n
  | .negative _ => .error .wrongValue
  | j => .error (mismatch j)

def decodeWord : Decoder E UInt64 := fun j => do
  let n ← decodeNatural j
  if n < UInt64.size then pure (UInt64.ofNat n) else throw .wrongType

def decodeNull : Decoder E Unit
  | .null => .ok ()
  | j => .error (mismatch j)

def decodeNullOrEmpty : Decoder E Unit
  | .object [] => .ok ()
  | j => decodeNull j

def decodeOption (d : Decoder E α) : Decoder E (Option α)
  | .null => .ok none
  | j => (d j).map some

def decodeItems (d : Decoder E α) : List Json → Except (DecodeError E) (List α)
  | [] => .ok []
  | j :: js => do
    let a ← d j
    let as ← decodeItems d js
    pure (a :: as)

def decodeList (d : Decoder E α) : Decoder E (List α)
  | .array items => decodeItems d items
  | j => .error (mismatch j)

/-- Refuses a decoded value that fails a check. -/
def decodeChecked (d : Decoder E α) (check : α → Except E β) : Decoder E β := fun j => do
  let a ← d j
  (check a).mapError .refused

def lookupVariant (known : List (String × α)) (name : String) : Except (DecodeError E) α :=
  match known.lookup name with
  | some a => .ok a
  | none => .error (.unknownVariant name (known.map (·.1)))

/-- A name out of a list, which may also stand as the only member of an object, with a value that
says nothing. -/
def decodeName (nothing : Decoder E Unit) (known : List (String × α)) : Decoder E α
  | .string name => lookupVariant known name
  | .object members =>
    match faultMembers? members, members with
    | some f, _ => .error (.text f)
    | none, [(name, j)] => do
      let a ← lookupVariant known name
      nothing j
      pure a
    | none, _ => .error .wrongValue
  | j => .error (mismatch j)

/-- What is wanted of the members of an object: for each name asked for, the error that its value
gives, if any, and the result. -/
structure Answer (E α : Type) where
  asked : List (String × Option (DecodeError E))
  result : Except (DecodeError E) α

def Record (E α : Type) := Members → Answer E α

namespace Record

def errorOf : Except (DecodeError E) α → Option (DecodeError E)
  | .ok _ => none
  | .error e => some e

def pure (a : α) : Record E α := fun _ => ⟨[], .ok a⟩

/-- Both are asked for; of two missing members the first counts. -/
def seq (f : Record E (α → β)) (x : Record E α) : Record E β := fun ms =>
  let g := f ms
  let a := x ms
  ⟨g.asked ++ a.asked,
    match g.result with
    | .error e => .error e
    | .ok h => a.result.map h⟩

instance : Applicative (Record E) where
  pure := pure
  seq f x := seq f (x ())

/-- A member with what it means to be absent. -/
def fieldOr (name : String) (absent : Except (DecodeError E) α) (d : Decoder E α) : Record E α :=
  fun ms =>
    match ms.lookup name with
    | some j => let r := d j; ⟨[(name, errorOf r)], r⟩
    | none => ⟨[(name, none)], absent⟩

def field (name : String) (d : Decoder E α) : Record E α :=
  fieldOr name (.error (.missingField name)) d

def optional (name : String) (d : Decoder E α) : Record E (Option α) :=
  fieldOr name (.ok none) (decodeOption d)

def default (name : String) (a : α) (d : Decoder E α) : Record E α := fieldOr name (.ok a) d

/-- The first error among the members as they stand. `asked` holds the names not met so far. -/
def firstError (all asked : List (String × Option (DecodeError E))) :
    Members → Option (DecodeError E)
  | [] => none
  | (name, j) :: ms =>
    match asked.lookup name with
    | some (some e) => some e
    | some none => firstError all (asked.filter (·.1 != name)) ms
    | none =>
      if (all.lookup name).isSome then some (.duplicateField name)
      else
        match j.fault? with
        | some f => some (.text f)
        | none => firstError all asked ms

def ofMembers (r : Record E α) (ms : Members) : Except (DecodeError E) α :=
  let answer := r ms
  match firstError answer.asked answer.asked ms with
  | some e => .error e
  | none => answer.result

/-- The names of all members in the order of declaration. -/
def names (r : Record E α) : List String := (r []).asked.map (·.1)

/-- Refuses the items that a list has beyond those asked for. -/
def noMore : List Json → Except (DecodeError E) Unit
  | [] => .ok ()
  | .broken f :: _ => .error (.text f)
  | _ :: _ => .error .wrongValue

/-- The items of a list are the first members one for one. The others must be fit to be absent. -/
def ofItems (r : Record E α) (items : List Json) : Except (DecodeError E) α :=
  let ms := r.names.zip items
  let answer := r ms
  match firstError answer.asked answer.asked ms with
  | some e => .error e
  | none => do
    let a ← answer.result.mapError fun _ => DecodeError.wrongValue
    noMore (items.drop r.names.length)
    Except.ok a

def decode (r : Record E α) : Decoder E α
  | .object ms => r.ofMembers ms
  | .array items => r.ofItems items
  | j => .error (mismatch j)

end Record

/-- The name of a variant. -/
def decodeVariant (known : List (String × α)) : Decoder E α := fun j => do
  lookupVariant known (← decodeString j)

/-- Within a value that was read as a whole before, a variant may also go by its number. -/
def decodeVariantOrNumber (known : List (String × α)) : Decoder E α
  | .natural n =>
    match known[n]? with
    | some (_, a) => .ok a
    | none => .error .wrongValue
  | j => decodeVariant known j

/-- Reads the tag of a tagged object, given the tag if it has been met already. All members are read
before the others are looked at, so that a text that breaks off is noticed first. -/
def findTag (tag : Decoder E α) : Option α → Members → Except (DecodeError E) (α × Members)
  | none, [] => .error (.missingField "type")
  | some a, [] => .ok (a, [])
  | met, (name, j) :: ms =>
    if name = "type" then
      match met with
      | some _ => .error (.duplicateField "type")
      | none => do
        let a ← tag j
        findTag tag (some a) ms
    else
      match j.fault? with
      | some f => .error (.text f)
      | none => do
        let (a, rest) ← findTag tag met ms
        pure (a, (name, j) :: rest)

/-- An object that names its variant in the member `type`, beside the variant's own members, or a
list that begins with the variant. -/
def decodeTagged (tag : Decoder E α) (content : α → Decoder E β) : Decoder E β
  | .object ms => do
    let (a, rest) ← findTag tag none ms
    content a (.object rest)
  | .array [] => .error (.missingField "type")
  | .array (j :: rest) => do
    let a ← tag j
    match faultItems? rest with
    | some f => throw (.text f)
    | none => content a (.array rest)
  | j => .error (mismatch j)

/-- A decoded text must end with its value. -/
def decodeText (top : Interest) (d : Decoder E α) (text : String) : Except (DecodeError E) α := do
  let document := read top text
  let a ← d document.value
  if document.trailing then throw (.text .malformed) else pure a

end MailSieve.Json
