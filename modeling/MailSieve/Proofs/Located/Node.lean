import Mathlib.Logic.Relation
import MailSieve.Proofs.Phrase.Clause

/-! The nodes of a tree.
A node is whatever carries a location. Its children are the nodes right within it: the tests of a
list, the strings and numbers of a clause, and so on; the next link of a chain stands within the
link before it. `Node.Nested` says how the locations of a node and its children lie. -/

namespace MailSieve

open Phrase

inductive Node where
  | string (s : StringLit)
  | strings (l : StringList)
  | number (n : NumberLit)
  | argument (a : Argument)
  | test (t : Test)
  | command (c : Command)
  | block (b : Block)
  | link (c : Chain)
  | script (s : Script)

section Clauses

def TagValue.nodes : TagValue → List Node
  | string s => [.string s]
  | strings l => [.strings l]
  | number n => [.number n]
  | none | operator _ | importance _ => []

namespace Phrase

def Setting.nodes (s : Setting) : List Node := s.value.nodes

@[simp] def Positional.nodes : Positional → List Node
  | string s => [.string s]
  | strings l => [.strings l]
  | number n => [.number n]
  | texts _ => []

@[simp] def Clause.nodes (c : Clause) : List Node :=
  c.settings.flatMap Setting.nodes ++ c.positionals.flatMap Positional.nodes

end Phrase

def BodyTransform.nodes : BodyTransform → List Node
  | raw | text => []
  | content types => [.strings types]

variable {name : String}

@[simp] theorem nodes_flagSetting {b : Bool} :
    (flagSetting name b).flatMap Setting.nodes = [] := by
  cases b <;> rfl

@[simp] theorem nodes_stringSetting {s : Option StringLit} :
    (stringSetting name s).flatMap Setting.nodes = s.toList.map .string := by
  cases s <;> rfl

@[simp] theorem nodes_stringsSetting {l : Option StringList} :
    (stringsSetting name l).flatMap Setting.nodes = l.toList.map .strings := by
  cases l <;> rfl

@[simp] theorem nodes_numberSetting {n : Option NumberLit} :
    (numberSetting name n).flatMap Setting.nodes = n.toList.map .number := by
  cases n <;> rfl

@[simp] theorem nodes_importanceSetting {i : Option Importance} :
    (importanceSetting name i).flatMap Setting.nodes = [] := by
  cases i <;> rfl

@[simp] theorem nodes_partSetting {p : Option AddressPart} :
    (partSetting p).flatMap Setting.nodes = [] := by
  cases p <;> rfl

@[simp] theorem nodes_aboveSetting {above : Bool} :
    (aboveSetting above).flatMap Setting.nodes = [] := rfl

@[simp] theorem nodes_optionSettings {o : MatchOptions} :
    (optionSettings o).flatMap Setting.nodes = o.comparator.toList.map .string := by
  obtain ⟨m, r, c⟩ := o
  cases m <;> cases r <;> cases c <;> rfl

@[simp] theorem nodes_transformSetting {t : Option BodyTransform} :
    (transformSetting t).flatMap Setting.nodes = t.toList.flatMap BodyTransform.nodes := by
  obtain _ | _ | _ | _ := t <;> rfl

@[simp] theorem nodes_modifiers {ms : List SetModifier} :
    (ms.map fun m => (⟨m.word, .none⟩ : Setting)).flatMap Setting.nodes = [] := by
  simp [Setting.nodes, TagValue.nodes]

end Clauses

def Argument.nodes : Argument → List Node
  | tag _ _ => []
  | number n => [.number n]
  | string s => [.string s]
  | strings l => [.strings l]
  | tests ts _ => ts.map .test

def Test.nodes : Test → List Node
  | negation t _ => [.test t]
  | allOf ts _ | anyOf ts _ => ts.map .test
  | generic _ as _ => as.map .argument
  | t => t.clause?.elim [] fun r => r.2.nodes

namespace Chain

def location : Chain → Option Location
  | done => none
  | elsif _ _ _ l | otherwise _ l => l

def nodes : Chain → List Node
  | done => []
  | elsif t b c l => [.link (elsif t b c l)]
  | otherwise b l => [.link (otherwise b l)]

/-- All links from here on. -/
def links : Chain → List Chain
  | done => []
  | elsif t b c l => elsif t b c l :: c.links
  | otherwise b l => [otherwise b l]

end Chain

def Command.nodes : Command → List Node
  | ifTest t b c _ => .test t :: .block b :: c.nodes
  | generic _ as _ => as.map .argument
  | genericBlock _ as b _ => as.map .argument ++ [.block b]
  | c => c.clause?.elim [] fun r => r.2.nodes

namespace Location

def Within (k l : Location) : Prop :=
  l.start.offset ≤ k.start.offset ∧ k.stop.offset ≤ l.stop.offset

end Location

namespace Node

def location : Node → Option Location
  | string s => s.location
  | strings l => l.location
  | number n => n.location
  | argument a => a.location
  | test t => t.location
  | command c => c.location
  | block b => b.location
  | link c => c.location
  | script s => s.location

def children : Node → List Node
  | string _ | number _ => []
  | strings l => l.values.map .string
  | argument a => a.nodes
  | test t => t.nodes
  | command c => c.nodes
  | block b => b.commands.map .command
  | link (.elsif t b c _) => .test t :: .block b :: c.nodes
  | link (.otherwise b _) => [.block b]
  | link .done => []
  | script s => s.commands.map .command

/-- Tests and commands of fixed shape, whose tags may stand in any order. -/
def Fixed : Node → Prop
  | test t => t.clause? ≠ none
  | command c => c.clause? ≠ none
  | _ => False

/-- The links of the chain that a node begins or goes on with. -/
def links : Node → List Chain
  | command (.ifTest _ _ c _) | link (.elsif _ _ c _) => c.links
  | _ => []

theorem links_of_fixed {n : Node} (h : n.Fixed) : n.links = [] := by
  cases n with
  | command c =>
    cases c with
    | ifTest => exact absurd rfl h
    | _ => rfl
  | link => exact h.elim
  | _ => rfl

def Before (m n : Node) : Prop :=
  ∀ k ∈ m.location, ∀ l ∈ n.location, k.stop.offset ≤ l.start.offset

/-- A node holds its children, which are not empty and follow each other; only the tags of a
fixed shape have no order. A chain ends where the node that begins it ends. -/
structure Nested (n : Node) : Prop where
  inside : ∀ m ∈ n.children, ∃ k l, m.location = some k ∧ n.location = some l
    ∧ k.start.offset < k.stop.offset ∧ k.Within l
  ordered : ¬ n.Fixed → n.children.Pairwise Before
  ends : ∀ c ∈ n.links, ∃ k l, c.location = some k ∧ n.location = some l ∧ k.stop = l.stop

/-- A node and everything within it. -/
def Holds : Node → Node → Prop := Relation.ReflTransGen fun n m => m ∈ n.children

theorem forall_holds {P : Node → Prop} {n : Node} :
    (∀ m, n.Holds m → P m) ↔ P n ∧ ∀ m ∈ n.children, ∀ k, m.Holds k → P k := by
  constructor
  · intro h
    exact ⟨h n .refl, fun m hm k hk => h k (.head hm hk)⟩
  · rintro ⟨hn, hchildren⟩ m hm
    obtain rfl | ⟨k, hk, hm⟩ := Relation.ReflTransGen.cases_head_iff.1 hm
    · exact hn
    · exact hchildren k hk m hm

end Node

end MailSieve
