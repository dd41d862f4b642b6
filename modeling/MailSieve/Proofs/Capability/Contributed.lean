import Mathlib.Logic.Basic
import MailSieve.Capability
import MailSieve.Proofs.Located.Node
import MailSieve.Proofs.Phrase.Induction

/-! What each node of a tree adds to the capabilities that are used.
A command or a test of fixed shape depends on extensions by its keyword and by each of its tags, a
generic command by its name. What stands around a node, or where the node was read, does not count;
`uses_script` says that a script depends on what its nodes depend on, and on nothing else. -/

namespace MailSieve

open Phrase Capability

def TestKeyword.extension : TestKeyword → List String
  | envelope => ["envelope"]
  | body => ["body"]
  | date | currentDate => ["date"]
  | hasFlag => ["imap4flags"]
  | string => ["variables"]
  | ihave => ["ihave"]
  | duplicate => ["duplicate"]
  | _ => []

def CommandKeyword.extension : CommandKeyword → List String
  | fileInto => ["fileinto"]
  | reject => ["reject"]
  | setVariable => ["variables"]
  | vacation => ["vacation"]
  | setFlag | addFlag | removeFlag => ["imap4flags"]
  | notify => ["enotify"]
  | _ => []

namespace Phrase.Setting

/-- The extension that brings the tag, or the comparator it names, to tests. -/
def testExtension (s : Setting) : List String :=
  match s.value with
  | .string v =>
    flagged (s.name == "comparator" && v.value == "i;ascii-numeric") "comparator-i;ascii-numeric"
  | _ =>
    if ["user", "detail"].contains s.name then ["subaddress"]
    else if s.name == "regex" then ["regex"]
    else if ["count", "value"].contains s.name then ["relational"]
    else []

def commandExtension (s : Setting) : List String :=
  if s.name == "copy" then ["copy"]
  else if s.name == "create" then ["mailbox"]
  else if s.name == "flags" then ["imap4flags"]
  else if s.name == "seconds" then ["vacation-seconds"]
  else []

end Phrase.Setting

def Test.names (t : Test) : List String :=
  t.clause?.elim [] fun r => r.1.extension ++ r.2.settings.flatMap Setting.testExtension

def Command.names : Command → List String
  | .generic name _ _ | .genericBlock name _ _ _ => ofName name
  | c => c.clause?.elim [] fun r =>
    r.1.extension ++ r.2.settings.flatMap Setting.commandExtension

namespace Node

/-- What the node itself depends on. -/
def names : Node → List String
  | test t => t.names
  | command c => c.names
  | _ => []

/-- Some node within depends on the extension. -/
def Uses (n : Node) (name : String) : Prop := ∃ m, n.Holds m ∧ name ∈ m.names

end Node

section Settings

variable {α : Type} {extension : Setting → List String} {name : String}

@[simp] theorem flatMap_toList {a : Option α} {names : List String} :
    a.toList.flatMap (fun _ => names) = if a.isSome then names else [] := by
  cases a <;> simp

@[simp] theorem flatMap_settingOf {f : α → Setting} {a : Option α} :
    (settingOf f a).flatMap extension = a.toList.flatMap (extension <| f ·) :=
  List.flatMap_map ..

@[simp] theorem flatMap_stringSetting {s : Option StringLit} :
    (stringSetting name s).flatMap extension
      = s.toList.flatMap fun s => extension ⟨name, .string s⟩ :=
  flatMap_settingOf

@[simp] theorem flatMap_stringsSetting {l : Option StringList} :
    (stringsSetting name l).flatMap extension
      = l.toList.flatMap fun l => extension ⟨name, .strings l⟩ :=
  flatMap_settingOf

@[simp] theorem flatMap_numberSetting {n : Option NumberLit} :
    (numberSetting name n).flatMap extension
      = n.toList.flatMap fun n => extension ⟨name, .number n⟩ :=
  flatMap_settingOf

@[simp] theorem flatMap_importanceSetting {i : Option Importance} :
    (importanceSetting name i).flatMap extension
      = i.toList.flatMap fun i => extension ⟨name, .importance i⟩ :=
  flatMap_settingOf

@[simp] theorem flatMap_flagSetting {b : Bool} :
    (flagSetting name b).flatMap extension = if b then extension ⟨name, .none⟩ else [] := by
  cases b with
  | false => rfl
  | true => exact List.append_nil _

@[simp] theorem flatMap_partSetting {p : Option AddressPart} :
    (partSetting p).flatMap Setting.testExtension = ofPart p := by
  obtain _ | _ | _ | _ | _ | _ := p <;> rfl

@[simp] theorem flatMap_transformSetting {t : Option BodyTransform} :
    (transformSetting t).flatMap Setting.testExtension = [] := by
  obtain _ | _ | _ | _ := t <;> rfl

@[simp] theorem flatMap_aboveSetting {above : Bool} :
    (aboveSetting above).flatMap Setting.testExtension = [] := by
  cases above <;> rfl

@[simp] theorem flatMap_optionSettings {o : MatchOptions} :
    (optionSettings o).flatMap Setting.testExtension = ofOptions o := by
  obtain ⟨m, r, c⟩ := o
  rw [optionSettings, ofOptions, List.flatMap_append, List.flatMap_append]
  congr 1
  · congr 1
    · obtain _ | _ | _ | _ | _ := m <;> rfl
    · obtain _ | ⟨_ | _, _⟩ := r <;> rfl
  · cases c with
    | none => rfl
    | some v => exact List.append_nil _

@[simp] theorem flatMap_modifiers {ms : List SetModifier} :
    (ms.map fun m => (⟨m.word, .none⟩ : Setting)).flatMap Setting.commandExtension = [] := by
  rw [List.flatMap_map, List.flatMap_eq_nil_iff]
  rintro (_ | _ | _ | _ | _ | _ | _) - <;> rfl

end Settings

section Fixed

variable {name : String}

theorem ofTest_clause {t : Test} {k : TestKeyword} {c : Clause} (h : t.clause? = some (k, c)) :
    ofTest t = t.names := by
  rw [Test.names]
  cases t with
  | negation | allOf | anyOf | generic => cases h
  | _ => simp [Test.clause?, ofTest, TestKeyword.extension, Setting.testExtension, flagged]

theorem ofCommand_clause {c : Command} {k : CommandKeyword} {cl : Clause}
    (h : c.clause? = some (k, cl)) : ofCommand c = c.names := by
  cases c with
  | ifTest | generic | genericBlock => cases h
  | flag c =>
    obtain ⟨_ | _ | _, _, _, _⟩ := c <;> rfl
  | _ =>
    simp [Command.names, Command.clause?, ofCommand, CommandKeyword.extension,
      Setting.commandExtension, flagged]

end Fixed

namespace Node

variable {n m : Node} {name : String}

theorem uses_iff : n.Uses name ↔ name ∈ n.names ∨ ∃ m ∈ n.children, m.Uses name := by
  constructor
  · rintro ⟨m, hm, hname⟩
    obtain rfl | ⟨k, hk, hm⟩ := Relation.ReflTransGen.cases_head_iff.1 hm
    · exact .inl hname
    · exact .inr ⟨k, hk, m, hm, hname⟩
  · rintro (hname | ⟨k, hk, m, hm, hname⟩)
    · exact ⟨n, .refl, hname⟩
    · exact ⟨m, .head hk hm, hname⟩

theorem uses_children (h : n.names = []) : n.Uses name ↔ ∃ m ∈ n.children, m.Uses name := by
  rw [uses_iff, h, or_iff_right List.not_mem_nil]

def Plain : Node → Prop
  | string _ | strings _ | number _ => True
  | _ => False

theorem plain_children (h : n.Plain) : ∀ m ∈ n.children, m.Plain := by
  cases n with
  | string | number => nofun
  | strings l => exact List.forall_mem_map.2 fun _ _ => trivial
  | _ => exact h.elim

theorem plain_holds (h : n.Plain) (hm : n.Holds m) : m.Plain := by
  induction hm with
  | refl => exact h
  | tail _ hstep ih => exact plain_children ih _ hstep

theorem not_uses_plain (h : n.Plain) : ¬ n.Uses name := by
  rintro ⟨m, hm, hname⟩
  have hplain := plain_holds h hm
  cases m with
  | string | strings | number => cases hname
  | _ => exact hplain

theorem uses_of_plain (h : ∀ m ∈ n.children, m.Plain) : n.Uses name ↔ name ∈ n.names := by
  rw [uses_iff, or_iff_left]
  rintro ⟨m, hm, hname⟩
  exact not_uses_plain (h m hm) hname

theorem plain_setting (s : Setting) : ∀ m ∈ s.nodes, m.Plain := by
  obtain ⟨_, _ | _ | _ | _ | _ | _⟩ := s <;> simp [Setting.nodes, TagValue.nodes, Plain]

theorem plain_positional (p : Positional) : ∀ m ∈ p.nodes, m.Plain := by
  cases p <;> simp [Plain]

theorem plain_clause (c : Clause) : ∀ m ∈ c.nodes, m.Plain := by
  intro m hm
  obtain hm | hm := List.mem_append.1 hm
  · obtain ⟨s, -, hs⟩ := List.mem_flatMap.1 hm
    exact plain_setting s m hs
  · obtain ⟨p, -, hp⟩ := List.mem_flatMap.1 hm
    exact plain_positional p m hp

end Node

section Trees

variable {name : String}

theorem Test.nodes_of_clause {t : Test} {k : TestKeyword} {c : Clause}
    (h : t.clause? = some (k, c)) : t.nodes = c.nodes := by
  have hnodes : t.nodes = t.clause?.elim [] fun r => r.2.nodes := by
    cases t with
    | negation | allOf | anyOf | generic => cases h
    | _ => rfl
  rw [hnodes, h]
  rfl

theorem Command.nodes_of_clause {c : Command} {k : CommandKeyword} {cl : Clause}
    (h : c.clause? = some (k, cl)) : c.nodes = cl.nodes := by
  have hnodes : c.nodes = c.clause?.elim [] fun r => r.2.nodes := by
    cases c with
    | ifTest | generic | genericBlock => cases h
    | _ => rfl
  rw [hnodes, h]
  rfl

theorem mem_ofTests {ts : List Test} : name ∈ ofTests ts ↔ ∃ t ∈ ts, name ∈ ofTest t := by
  induction ts with
  | nil => simp [ofTests]
  | cons t ts ih => simp [ofTests, ih]

theorem mem_ofArguments {as : List Argument} :
    name ∈ ofArguments as ↔ ∃ a ∈ as, name ∈ ofArgument a := by
  induction as with
  | nil => simp [ofArguments]
  | cons a as ih => simp [ofArguments, ih]

theorem mem_ofCommands {cs : List Command} :
    name ∈ ofCommands cs ↔ ∃ c ∈ cs, name ∈ ofCommand c := by
  induction cs with
  | nil => simp [ofCommands]
  | cons c cs ih => simp [ofCommands, ih]

theorem uses_tests {ts : List Test}
    (h : ∀ t ∈ ts, (name ∈ ofTest t ↔ (Node.test t).Uses name)) :
    name ∈ ofTests ts ↔ ∃ m ∈ ts.map Node.test, m.Uses name := by
  simp only [mem_ofTests, List.mem_map, exists_exists_and_eq_and]
  exact exists_congr fun t => and_congr_right fun ht => h t ht

theorem uses_argument {a : Argument}
    (h : ∀ ts l, a = .tests ts l → ∀ t ∈ ts, (name ∈ ofTest t ↔ (Node.test t).Uses name)) :
    name ∈ ofArgument a ↔ (Node.argument a).Uses name := by
  cases a with
  | tests ts l =>
    rw [ofArgument, uses_tests (h ts l rfl), Node.uses_children rfl]
    rfl
  | tag | number | string | strings =>
    refine iff_of_false List.not_mem_nil ?_
    rw [Node.uses_of_plain]
    · exact List.not_mem_nil
    · simp [Node.children, Argument.nodes, Node.Plain]

theorem uses_arguments {as : List Argument}
    (h : ∀ ts l, .tests ts l ∈ as → ∀ t ∈ ts, (name ∈ ofTest t ↔ (Node.test t).Uses name)) :
    name ∈ ofArguments as ↔ ∃ m ∈ as.map Node.argument, m.Uses name := by
  simp only [mem_ofArguments, List.mem_map, exists_exists_and_eq_and]
  refine exists_congr fun a => and_congr_right fun ha => uses_argument ?_
  rintro ts l rfl
  exact h ts l ha

theorem uses_test_cases (name : String) :
    TestCases fun t => name ∈ ofTest t ↔ (Node.test t).Uses name where
  clause {t k c} h := by
    rw [ofTest_clause h, Node.uses_of_plain]
    · rfl
    · rw [Node.children, Test.nodes_of_clause h]
      exact Node.plain_clause c
  negation {t l} ih := by
    have hchildren : (Node.test (.negation t l)).children = [.test t] := rfl
    rw [ofTest, ih, Node.uses_children (n := .test (.negation t l)) rfl, hchildren]
    simp
  allOf {ts l} ih := by
    rw [ofTest, uses_tests ih, Node.uses_children (n := .test (.allOf ts l)) rfl]
    rfl
  anyOf {ts l} ih := by
    rw [ofTest, uses_tests ih, Node.uses_children (n := .test (.anyOf ts l)) rfl]
    rfl
  generic {word as l} ih := by
    rw [ofTest, uses_arguments ih, Node.uses_children (n := .test (.generic word as l)) rfl]
    rfl

theorem uses_test (t : Test) : name ∈ ofTest t ↔ (Node.test t).Uses name :=
  (uses_test_cases name).test t

theorem uses_generic {as : List Argument} :
    name ∈ ofArguments as ↔ ∃ m ∈ as.map Node.argument, m.Uses name :=
  uses_arguments fun _ _ _ t _ => uses_test t

theorem uses_command_cases (name : String) :
    CommandCases (fun c => name ∈ ofCommand c ↔ (Node.command c).Uses name)
      (fun b => name ∈ ofBlock b ↔ (Node.block b).Uses name)
      (fun c => name ∈ ofChain c ↔ ∃ m ∈ c.nodes, m.Uses name) where
  clause {c k cl} h := by
    rw [ofCommand_clause h, Node.uses_of_plain]
    · rfl
    · rw [Node.children, Command.nodes_of_clause h]
      exact Node.plain_clause cl
  ifTest {t b c l} hb hc := by
    rw [ofCommand, Node.uses_children (n := .command (.ifTest t b c l)) rfl]
    simp [Node.children, Command.nodes, uses_test, hb, hc]
  generic {word as l} := by
    rw [ofCommand, List.mem_append, uses_generic, Node.uses_iff]
    rfl
  genericBlock {word as b l} hb := by
    rw [ofCommand, List.mem_append, List.mem_append, uses_generic, Node.uses_iff, hb, or_assoc]
    refine or_congr_right ?_
    simp [Node.children, Command.nodes, or_and_right, exists_or]
  block {cs l} ih := by
    rw [ofBlock, mem_ofCommands, Node.uses_children (n := .block (.mk cs l)) rfl]
    simp only [Node.children, Block.commands, List.mem_map, exists_exists_and_eq_and]
    exact exists_congr fun c => and_congr_right fun hc => ih c hc
  done := by simp [ofChain, Chain.nodes]
  elsif {t b c l} hb hc := by
    simp only [Chain.nodes, List.mem_singleton, exists_eq_left]
    rw [ofChain, Node.uses_children rfl]
    simp [Node.children, uses_test, hb, hc]
  otherwise {b l} hb := by
    simp only [Chain.nodes, List.mem_singleton, exists_eq_left]
    rw [ofChain, hb, Node.uses_children (n := .link (.otherwise b l)) rfl]
    simp [Node.children]

/-- A script depends on what its nodes depend on. -/
theorem uses_script (s : Script) : name ∈ ofCommands s.commands ↔ (Node.script s).Uses name := by
  rw [mem_ofCommands, Node.uses_children rfl]
  simp only [Node.children, List.mem_map, exists_exists_and_eq_and]
  exact exists_congr fun c => and_congr_right fun _ => (uses_command_cases name).command c

end Trees

end MailSieve
