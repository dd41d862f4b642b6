import MailSieve.Proofs.Script.Law
import MailSieve.Script.Keyword

/-! Phrases of fixed shape.
A phrase is a relation between tokens and what they denote, without locations. Nothing here says how
tokens are read. A command or a test of fixed shape is a keyword and a clause: tags, each with its
value, and then values in a fixed order. The tags of a clause may stand in any order, except where
the clause is ordered. -/

namespace MailSieve.Phrase

inductive StringPhrase : List Token → StringLit → Prop where
  | mk (value : String) (multiline : Bool) :
    StringPhrase [.string value multiline] ⟨value, multiline, none⟩

inductive NumberPhrase : List Token → NumberLit → Prop where
  | mk (value : UInt64) (q : Option Quantifier) : NumberPhrase [.number value q] ⟨value, q, none⟩

/-- Items one after another. -/
inductive Sequence {α : Type} (item : List Token → α → Prop) : List Token → List α → Prop where
  | nil : Sequence item [] []
  | cons {ts us : List Token} {a : α} {as : List α} :
    item ts a → Sequence item us as → Sequence item (ts ++ us) (a :: as)

/-- At least one item, with commas between. -/
inductive Separated {α : Type} (item : List Token → α → Prop) : List Token → List α → Prop where
  | single {ts : List Token} {a : α} : item ts a → Separated item ts [a]
  | cons {ts us : List Token} {a : α} {as : List α} :
    item ts a → Separated item us as → Separated item (ts ++ .mark .comma :: us) (a :: as)

theorem Separated.ne_nil {α : Type} {item : List Token → α → Prop} {ts : List Token} {as : List α}
    (h : Separated item ts as) : as ≠ [] := by
  cases h <;> simp

def bracketed (ts : List Token) : List Token :=
  .mark .openBracket :: ts ++ [.mark .closeBracket]

def parenthesized (ts : List Token) : List Token := .mark .openParen :: ts ++ [.mark .closeParen]

def braced (ts : List Token) : List Token := .mark .openBrace :: ts ++ [.mark .closeBrace]

inductive BracketPhrase : List Token → StringList → Prop where
  | mk {ts : List Token} {ss : List StringLit} :
    Separated StringPhrase ts ss → BracketPhrase (bracketed ts) ⟨ss, none⟩

/-- A single string stands for a list of one. -/
inductive ListPhrase : List Token → StringList → Prop where
  | single {ts : List Token} {s : StringLit} : StringPhrase ts s → ListPhrase ts ⟨[s], none⟩
  | brackets {ts : List Token} {l : StringList} : BracketPhrase ts l → ListPhrase ts l

inductive ValuePhrase : List Token → TagValue → Prop where
  | none : ValuePhrase [] .none
  | string {ts : List Token} {s : StringLit} : StringPhrase ts s → ValuePhrase ts (.string s)
  | strings {ts : List Token} {l : StringList} : ListPhrase ts l → ValuePhrase ts (.strings l)
  | number {ts : List Token} {n : NumberLit} : NumberPhrase ts n → ValuePhrase ts (.number n)
  | operator (o : RelationalOperator) (multiline : Bool) :
    ValuePhrase [.string o.word multiline] (.operator o)
  | importance (i : Importance) (multiline : Bool) :
    ValuePhrase [.string i.word multiline] (.importance i)

/-- A tag with its value. -/
structure Setting where
  name : String
  value : TagValue

inductive SettingPhrase : List Token → Setting → Prop where
  | mk {ts : List Token} {s : Setting} :
    ValuePhrase ts s.value → SettingPhrase (.tag s.name :: ts) s

/-- A value that is told by its place. Of `texts` only the values count. -/
inductive Positional where
  | string (s : StringLit)
  | strings (l : StringList)
  | number (n : NumberLit)
  | texts (values : List String)

inductive PositionalPhrase : List Token → Positional → Prop where
  | string {ts : List Token} {s : StringLit} : StringPhrase ts s → PositionalPhrase ts (.string s)
  | strings {ts : List Token} {l : StringList} : ListPhrase ts l → PositionalPhrase ts (.strings l)
  | number {ts : List Token} {n : NumberLit} : NumberPhrase ts n → PositionalPhrase ts (.number n)
  | texts {ts : List Token} {l : StringList} :
    ListPhrase ts l → PositionalPhrase ts (.texts (l.values.map (·.value)))

structure Clause where
  settings : List Setting
  positionals : List Positional
  ordered : Bool := false

namespace Clause

/-- The orders in which the tags may stand. -/
def Arranges (c : Clause) (settings : List Setting) : Prop :=
  if c.ordered then settings = c.settings else settings.Perm c.settings

theorem arranges_false {settings ss : List Setting} {ps : List Positional} :
    (⟨settings, ps, false⟩ : Clause).Arranges ss ↔ ss.Perm settings := by
  rw [Arranges, if_neg Bool.false_ne_true]

theorem arranges_true {settings ss : List Setting} {ps : List Positional} :
    (⟨settings, ps, true⟩ : Clause).Arranges ss ↔ ss = settings := by
  rw [Arranges, if_pos rfl]

end Clause

inductive ClausePhrase : List Token → Clause → Prop where
  | mk {ts us : List Token} {c : Clause} {settings : List Setting} :
    c.Arranges settings → Sequence SettingPhrase ts settings →
    Sequence PositionalPhrase us c.positionals → ClausePhrase (ts ++ us) c

/-! What stands in the clauses of the tree. -/

def flagSetting (name : String) (present : Bool) : List Setting :=
  if present then [⟨name, .none⟩] else []

def settingOf {α : Type} (f : α → Setting) (a : Option α) : List Setting := a.toList.map f

def stringSetting (name : String) (s : Option StringLit) : List Setting :=
  settingOf (fun s => ⟨name, .string s⟩) s

def stringsSetting (name : String) (l : Option StringList) : List Setting :=
  settingOf (fun l => ⟨name, .strings l⟩) l

def numberSetting (name : String) (n : Option NumberLit) : List Setting :=
  settingOf (fun n => ⟨name, .number n⟩) n

def importanceSetting (name : String) (i : Option Importance) : List Setting :=
  settingOf (fun i => ⟨name, .importance i⟩) i

def matchTypeSetting (m : Option MatchType) : List Setting :=
  settingOf (fun m => ⟨m.word, .none⟩) m

def relationalSetting (r : Option Relational) : List Setting :=
  settingOf (fun r => ⟨r.kind.word, .operator r.operator⟩) r

def optionSettings (o : MatchOptions) : List Setting :=
  matchTypeSetting o.matchType ++ relationalSetting o.relational
    ++ stringSetting "comparator" o.comparator

def partSetting (p : Option AddressPart) : List Setting :=
  settingOf (fun p => ⟨p.word, .none⟩) p

def transformSetting (t : Option BodyTransform) : List Setting :=
  settingOf
    (fun
      | .raw => ⟨"raw", .none⟩
      | .text => ⟨"text", .none⟩
      | .content types => ⟨"content", .strings types⟩) t

def aboveSetting (above : Bool) : List Setting :=
  [⟨if above then "over" else "under", .none⟩]

end MailSieve.Phrase

namespace MailSieve
open Phrase

/-- The keyword and the clause of a test of fixed shape. -/
def Test.clause? : Test → Option (TestKeyword × Clause)
  | .always _ => some (.always, ⟨[], [], false⟩)
  | .never _ => some (.never, ⟨[], [], false⟩)
  | .address t =>
    some (.address,
      ⟨partSetting t.addressPart ++ optionSettings t.options,
        [.strings t.headers, .strings t.keys], false⟩)
  | .envelope t =>
    some (.envelope,
      ⟨partSetting t.addressPart ++ optionSettings t.options,
        [.strings t.envelopeParts, .strings t.keys], false⟩)
  | .header t =>
    some (.header, ⟨optionSettings t.options, [.strings t.headers, .strings t.keys], false⟩)
  | .headerExists headers _ => some (.headerExists, ⟨[], [.strings headers], false⟩)
  | .size t => some (.size, ⟨aboveSetting t.above, [.number t.size], false⟩)
  | .body t =>
    some (.body,
      ⟨transformSetting t.transform ++ optionSettings t.options, [.strings t.keys], false⟩)
  | .date t =>
    some (.date,
      ⟨stringSetting "zone" t.zone ++ flagSetting "originalzone" t.originalZone
          ++ optionSettings t.options,
        [.string t.header, .string t.datePart, .strings t.keys], false⟩)
  | .currentDate t =>
    some (.currentDate,
      ⟨stringSetting "zone" t.zone ++ optionSettings t.options,
        [.string t.datePart, .strings t.keys], false⟩)
  | .hasFlag t =>
    some (.hasFlag,
      ⟨optionSettings t.options,
        t.variableNames.toList.map .strings ++ [.strings t.flags], false⟩)
  | .string t =>
    some (.string, ⟨optionSettings t.options, [.strings t.source, .strings t.keys], false⟩)
  | .ihave capabilities _ => some (.ihave, ⟨[], [.strings capabilities], false⟩)
  | .duplicate t =>
    some (.duplicate,
      ⟨stringSetting "handle" t.handle
          ++ (stringSetting "header" t.header ++ stringSetting "uniqueid" t.uniqueId)
          ++ numberSetting "seconds" t.seconds ++ flagSetting "last" t.last,
        [], false⟩)
  | .negation _ _ | .allOf _ _ | .anyOf _ _ | .generic _ _ _ => none

namespace FlagAction

def keyword : FlagAction → CommandKeyword
  | set => .setFlag
  | add => .addFlag
  | remove => .removeFlag

end FlagAction

/-- The keyword and the clause of a command of fixed shape. The modifiers of `set` are ordered. -/
def Command.clause? : Command → Option (CommandKeyword × Clause)
  | .require c => some (.require, ⟨[], [.texts c.capabilities], false⟩)
  | .stop _ => some (.stop, ⟨[], [], false⟩)
  | .keep c => some (.keep, ⟨stringsSetting "flags" c.flags, [], false⟩)
  | .fileInto c =>
    some (.fileInto,
      ⟨flagSetting "copy" c.copy ++ flagSetting "create" c.create
          ++ stringsSetting "flags" c.flags,
        [.string c.mailbox], false⟩)
  | .redirect c => some (.redirect, ⟨flagSetting "copy" c.copy, [.string c.address], false⟩)
  | .discard _ => some (.discard, ⟨[], [], false⟩)
  | .reject c => some (.reject, ⟨[], [.string c.reason], false⟩)
  | .setVariable c =>
    some (.setVariable,
      ⟨c.modifiers.map fun m => ⟨m.word, .none⟩, [.string c.name, .string c.value], true⟩)
  | .vacation c =>
    some (.vacation,
      ⟨numberSetting "days" c.days ++ numberSetting "seconds" c.seconds
          ++ stringSetting "subject" c.subject ++ stringSetting "from" c.sender
          ++ stringsSetting "addresses" c.addresses ++ flagSetting "mime" c.mime
          ++ stringSetting "handle" c.handle,
        [.string c.reason], false⟩)
  | .flag c =>
    some (c.action.keyword,
      ⟨[], c.variableName.toList.map .string ++ [.strings c.flags], false⟩)
  | .notify c =>
    some (.notify,
      ⟨stringSetting "from" c.sender ++ importanceSetting "importance" c.importance
          ++ stringsSetting "options" c.options ++ stringSetting "message" c.message,
        [.string c.method], false⟩)
  | .ifTest _ _ _ _ | .generic _ _ _ | .genericBlock _ _ _ _ => none

end MailSieve
