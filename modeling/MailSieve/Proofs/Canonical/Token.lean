import MailSieve.Proofs.Phrase.Laws
import MailSieve.Proofs.Script.Norm
import MailSieve.Canonical.Generate

/-! The tokens of canonical text.
`tokens` forgets the spaces and line breaks of a sequence of marks. The tokens of a clause are its
tags with their values and then its positional values, and every command and test of fixed shape is
written as its keyword and its clause. -/

namespace MailSieve

open Phrase

namespace Mark

def token? : Mark → Option Token
  | token t => some t
  | space | line _ => none

end Mark

namespace Canonical

def tokens (ms : List Mark) : List Token := ms.filterMap Mark.token?

@[simp] theorem tokens_nil : tokens [] = [] := rfl

@[simp] theorem tokens_space (ms : List Mark) : tokens (.space :: ms) = tokens ms := rfl

@[simp] theorem tokens_line (depth : Nat) (ms : List Mark) :
    tokens (.line depth :: ms) = tokens ms := rfl

@[simp] theorem tokens_token (t : Token) (ms : List Mark) :
    tokens (.token t :: ms) = t :: tokens ms := rfl

@[simp] theorem tokens_word (name : String) (ms : List Mark) :
    tokens (Mark.word name :: ms) = .word name :: tokens ms := rfl

@[simp] theorem tokens_tag (name : String) (ms : List Mark) :
    tokens (Mark.tag name :: ms) = .tag name :: tokens ms := rfl

@[simp] theorem tokens_punctuation (p : Punctuation) (ms : List Mark) :
    tokens (Mark.punctuation p :: ms) = .mark p :: tokens ms := rfl

@[simp] theorem tokens_quoted (value : String) (ms : List Mark) :
    tokens (Mark.quoted value :: ms) = .string value false :: tokens ms := rfl

@[simp] theorem tokens_stringMark (s : StringLit) (ms : List Mark) :
    tokens (stringMark s :: ms) = .string s.value s.multiline :: tokens ms := rfl

@[simp] theorem tokens_append (ms ns : List Mark) : tokens (ms ++ ns) = tokens ms ++ tokens ns :=
  List.filterMap_append

@[simp] theorem tokens_spaced (ms : List Mark) : tokens (spaced ms) = tokens ms := rfl

@[simp] theorem tokens_terminated (ms : List Mark) :
    tokens (terminated ms) = tokens ms ++ [.mark .semicolon] := tokens_append _ _

@[simp] theorem tokens_parenthesized (ms : List (List Mark)) :
    tokens (parenthesized ms) = Phrase.parenthesized (tokens (commaSeparated ms)) := by
  simp [parenthesized, Phrase.parenthesized]

def stringToken (s : StringLit) : Token := .string s.value s.multiline

def listTokens (l : StringList) : List Token := tokens (stringListMarks l)

def numberToken (n : NumberLit) : Token := .number n.reduced.value n.reduced.quantifier

theorem tokens_numberMark (n : NumberLit) (ms : List Mark) :
    tokens (numberMark n :: ms) = numberToken n :: tokens ms := rfl

end Canonical

open Canonical

namespace TagValue

def tokens : TagValue → List Token
  | none => []
  | string s => [stringToken s]
  | strings l => listTokens l
  | number n => [numberToken n]
  | operator o => [.string o.word false]
  | importance i => [.string i.word false]

/-- What is left of a value when it has been written and read. -/
def kept : TagValue → TagValue
  | string s => string s.erase
  | strings l => strings l.erase
  | number n => number n.erase.reduced
  | v => v

end TagValue

namespace Phrase

namespace Setting

def tokens (s : Setting) : List Token := .tag s.name :: s.value.tokens

def kept (s : Setting) : Setting := ⟨s.name, s.value.kept⟩

end Setting

namespace Positional

def tokens : Positional → List Token
  | string s => [stringToken s]
  | strings l => listTokens l
  | number n => [numberToken n]
  | texts values => Canonical.tokens (listMarks (values.map Mark.quoted))

def kept : Positional → Positional
  | string s => string s.erase
  | strings l => strings l.erase
  | number n => number n.erase.reduced
  | texts values => texts values

end Positional

namespace Clause

def tokens (c : Clause) : List Token :=
  c.settings.flatMap Setting.tokens ++ c.positionals.flatMap Positional.tokens

def kept (c : Clause) : Clause :=
  ⟨c.settings.map Setting.kept, c.positionals.map Positional.kept, c.ordered⟩

end Clause

end Phrase

namespace Canonical

variable {α : Type} {name : String}

theorem tokens_tagIf (b : Bool) :
    tokens (tagIf name b) = (flagSetting name b).flatMap Setting.tokens := by
  cases b <;> rfl

theorem tokens_taggedString (s : Option StringLit) :
    tokens (taggedString name s) = (stringSetting name s).flatMap Setting.tokens := by
  cases s <;> rfl

theorem tokens_taggedStrings (l : Option StringList) :
    tokens (taggedStrings name l) = (stringsSetting name l).flatMap Setting.tokens := by
  cases l with
  | none => rfl
  | some l => simp [taggedStrings, tagWith, stringsSetting, settingOf, Setting.tokens,
      TagValue.tokens, listTokens]

theorem tokens_taggedNumber (n : Option NumberLit) :
    tokens (taggedNumber name n) = (numberSetting name n).flatMap Setting.tokens := by
  cases n <;> rfl

theorem tokens_importance (i : Option Importance) :
    tokens (tagWith name (fun i => [Mark.quoted i.word]) i)
      = (importanceSetting name i).flatMap Setting.tokens := by
  cases i <;> rfl

theorem tokens_optionMarks (o : MatchOptions) :
    tokens (optionMarks o) = (optionSettings o).flatMap Setting.tokens := by
  obtain ⟨m, r, s⟩ := o
  rw [optionMarks, optionSettings, tokens_append, tokens_append, tokens_taggedString,
    List.flatMap_append, List.flatMap_append]
  cases m <;> cases r <;> rfl

theorem tokens_partMarks (p : Option AddressPart) :
    tokens (partMarks p) = (partSetting p).flatMap Setting.tokens := by
  cases p <;> rfl

theorem tokens_transformMarks (t : Option BodyTransform) :
    tokens (transformMarks t) = (transformSetting t).flatMap Setting.tokens := by
  match t with
  | none => rfl
  | some .raw => rfl
  | some .text => rfl
  | some (.content types) => exact tokens_taggedStrings (some types)

theorem tokens_modifiers (ms : List SetModifier) :
    tokens (ms.flatMap fun m => [.space, .tag m.word])
      = (ms.map fun m => (⟨m.word, .none⟩ : Setting)).flatMap Setting.tokens := by
  induction ms with
  | nil => rfl
  | cons m ms ih => simpa [Setting.tokens, TagValue.tokens] using ih

theorem testMarks_clause {t : Test} {k : TestKeyword} {c : Clause}
    (h : t.clause? = some (k, c)) : tokens (testMarks t) = .word k.word :: c.tokens := by
  cases t with
  | negation | allOf | anyOf | generic => cases h
  | hasFlag t =>
    obtain ⟨options, _ | names, flags, l⟩ := t <;> cases h <;>
      simp [testMarks, hasFlagMarks, keyword, Clause.tokens, Positional.tokens, tokens_optionMarks,
        listTokens]
  | _ =>
    cases h
    simp [testMarks, addressMarks, headerMarks, envelopeMarks, sizeMarks, bodyMarks, dateMarks,
      currentDateMarks, stringTestMarks, duplicateMarks, keyword, Clause.tokens, Positional.tokens,
      tokens_tagIf, tokens_taggedString, tokens_taggedNumber, tokens_partMarks,
      tokens_optionMarks, tokens_transformMarks, tokens_numberMark, aboveSetting, Setting.tokens,
      TagValue.tokens, stringToken, listTokens]

theorem commandMarks_clause {c : Command} {k : CommandKeyword} {cl : Clause}
    (h : c.clause? = some (k, cl)) (depth : Nat) :
    tokens (commandMarks depth c) = .word k.word :: cl.tokens ++ [.mark .semicolon] := by
  cases c with
  | ifTest | generic | genericBlock => cases h
  | flag c =>
    obtain ⟨⟨⟩, _ | name, flags, l⟩ := c <;> cases h <;>
      simp [commandMarks, flagMarks, Clause.tokens, Positional.tokens, listTokens, stringToken,
        FlagAction.word, FlagAction.keyword, CommandKeyword.word]
  | _ =>
    cases h
    simp [commandMarks, fileIntoMarks, setMarks, vacationMarks, notifyMarks, commandWord,
      Clause.tokens, Positional.tokens, tokens_tagIf, tokens_taggedString, tokens_taggedStrings,
      tokens_taggedNumber, tokens_importance, tokens_modifiers, stringToken]

theorem testsMarks_eq_map (ts : List Test) : testsMarks ts = ts.map testMarks := by
  induction ts with
  | nil => rfl
  | cons t ts ih => rw [testsMarks, ih, List.map_cons]

theorem tokens_argumentsMarks (as : List Argument) :
    tokens (argumentsMarks as) = as.flatMap fun a => tokens (argumentMarks a) := by
  induction as with
  | nil => rfl
  | cons a as ih => simp [argumentsMarks, ih]

end Canonical

end MailSieve
