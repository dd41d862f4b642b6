import Mathlib.Data.List.Sort
import Mathlib.Data.String.Basic
import MailSieve.Proofs.Capability.Contributed
import MailSieve.Script.Check

/-! What is reported of a script's capabilities.
A report is a set of names, held as an ascending list. What a script depends on is what its nodes
depend on; so it is put together from parts of the script, and the order in which commands stand
does not matter. Declaring what is missing leaves nothing missing. -/

namespace MailSieve

namespace Capability

section Sorted

variable {name m : String} {ms ns : List String}

@[simp] theorem mem_insert : m ∈ insert name ns ↔ m = name ∨ m ∈ ns := by
  induction ns with
  | nil => simp [insert]
  | cons n ns ih =>
    rw [insert]
    split_ifs with hlt heq
    · exact List.mem_cons
    · simp [heq]
    · simp [ih, or_left_comm]

theorem insert_ascending (h : ns.Pairwise (· < ·)) : (insert name ns).Pairwise (· < ·) := by
  induction ns with
  | nil => exact List.pairwise_singleton ..
  | cons n ns ih =>
    obtain ⟨hfirst, hns⟩ := List.pairwise_cons.1 h
    rw [insert]
    split_ifs with hlt heq
    · refine List.pairwise_cons.2 ⟨?_, h⟩
      exact List.forall_mem_cons.2 ⟨hlt, fun m hm => hlt.trans (hfirst m hm)⟩
    · exact h
    · refine List.pairwise_cons.2 ⟨fun m hm => ?_, ih hns⟩
      obtain rfl | hm := mem_insert.1 hm
      · exact lt_of_le_of_ne (not_lt.1 hlt) heq
      · exact hfirst m hm

@[simp] theorem mem_sorted : m ∈ sorted ns ↔ m ∈ ns := by
  induction ns with
  | nil => rfl
  | cons n ns ih => rw [sorted, List.foldr_cons, mem_insert, List.mem_cons, ← ih, sorted]

theorem sorted_ascending (ns : List String) : (sorted ns).Pairwise (· < ·) := by
  induction ns with
  | nil => exact .nil
  | cons n ns ih => exact insert_ascending ih

/-- A set of names is held by one list only. -/
theorem sorted_congr (h : ∀ m, m ∈ ms ↔ m ∈ ns) : sorted ms = sorted ns :=
  (sorted_ascending ms).eq_of_mem_iff (sorted_ascending ns) fun m => by
    rw [mem_sorted, mem_sorted, h m]

end Sorted

end Capability

open Capability

/-! The same tree, but for the order in which commands stand, in the script and in each block. -/

mutual

inductive Command.Rearranged : Command → Command → Prop where
  | same (c : Command) : Command.Rearranged c c
  | ifTest {t : Test} {b b' : Block} {c c' : Chain} {l : Option Location} :
    Block.Rearranged b b' → Chain.Rearranged c c' →
    Command.Rearranged (.ifTest t b c l) (.ifTest t b' c' l)
  | genericBlock {name : String} {as : List Argument} {b b' : Block} {l : Option Location} :
    Block.Rearranged b b' →
    Command.Rearranged (.genericBlock name as b l) (.genericBlock name as b' l)

inductive CommandsRearranged : List Command → List Command → Prop where
  | nil : CommandsRearranged [] []
  | cons {c d : Command} {cs ds : List Command} :
    Command.Rearranged c d → CommandsRearranged cs ds → CommandsRearranged (c :: cs) (d :: ds)
  | perm {cs ds es : List Command} :
    CommandsRearranged cs ds → ds.Perm es → CommandsRearranged cs es

inductive Block.Rearranged : Block → Block → Prop where
  | mk {cs ds : List Command} {l : Option Location} :
    CommandsRearranged cs ds → Block.Rearranged (.mk cs l) (.mk ds l)

inductive Chain.Rearranged : Chain → Chain → Prop where
  | done : Chain.Rearranged .done .done
  | elsif {t : Test} {b b' : Block} {c c' : Chain} {l : Option Location} :
    Block.Rearranged b b' → Chain.Rearranged c c' →
    Chain.Rearranged (.elsif t b c l) (.elsif t b' c' l)
  | otherwise {b b' : Block} {l : Option Location} :
    Block.Rearranged b b' → Chain.Rearranged (.otherwise b l) (.otherwise b' l)

end

section Rearranged

mutual

theorem mem_ofCommand_rearranged (name : String) : ∀ {c d : Command}, c.Rearranged d →
    (name ∈ ofCommand c ↔ name ∈ ofCommand d)
  | _, _, .same _ => Iff.rfl
  | _, _, .ifTest hb hc => by
    have hbody := mem_ofBlock_rearranged name hb
    have hchain := mem_ofChain_rearranged name hc
    simp only [ofCommand, List.mem_append, hbody, hchain]
  | _, _, .genericBlock hb => by
    have hbody := mem_ofBlock_rearranged name hb
    simp only [ofCommand, List.mem_append, hbody]

theorem mem_ofCommands_rearranged (name : String) : ∀ {cs ds : List Command},
    CommandsRearranged cs ds → (name ∈ ofCommands cs ↔ name ∈ ofCommands ds)
  | _, _, .nil => Iff.rfl
  | _, _, .cons hc hcs => by
    have hfirst := mem_ofCommand_rearranged name hc
    have hrest := mem_ofCommands_rearranged name hcs
    simp only [ofCommands, List.mem_append, hfirst, hrest]
  | _, _, .perm hcs hperm => by
    have h := mem_ofCommands_rearranged name hcs
    rw [h, mem_ofCommands, mem_ofCommands]
    simp only [hperm.mem_iff]

theorem mem_ofBlock_rearranged (name : String) : ∀ {b b' : Block}, b.Rearranged b' →
    (name ∈ ofBlock b ↔ name ∈ ofBlock b')
  | _, _, .mk h => mem_ofCommands_rearranged name h

theorem mem_ofChain_rearranged (name : String) : ∀ {c c' : Chain}, c.Rearranged c' →
    (name ∈ ofChain c ↔ name ∈ ofChain c')
  | _, _, .done => Iff.rfl
  | _, _, .elsif hb hc => by
    have hbody := mem_ofBlock_rearranged name hb
    have hchain := mem_ofChain_rearranged name hc
    simp only [ofChain, List.mem_append, hbody, hchain]
  | _, _, .otherwise hb => mem_ofBlock_rearranged name hb

end

theorem declaredBy_rearranged {c d : Command} (h : c.Rearranged d) :
    declaredBy c = declaredBy d := by
  cases h <;> rfl

theorem mem_declaredBy_rearranged (name : String) : ∀ {cs ds : List Command},
    CommandsRearranged cs ds → (name ∈ cs.flatMap declaredBy ↔ name ∈ ds.flatMap declaredBy)
  | _, _, .nil => Iff.rfl
  | _, _, .cons hc hcs => by
    have hrest := mem_declaredBy_rearranged name hcs
    simp only [List.flatMap_cons, List.mem_append, declaredBy_rearranged hc, hrest]
  | _, _, .perm hcs hperm =>
    (mem_declaredBy_rearranged name hcs).trans (hperm.flatMap_right _).mem_iff

theorem commandsRearranged_refl (cs : List Command) : CommandsRearranged cs cs := by
  induction cs with
  | nil => exact .nil
  | cons c cs ih => exact .cons (.same c) ih

end Rearranged

namespace Script

/-- What is reported of a script's capabilities. -/
structure Reported (s : Script) : Prop where
  ascending : s.required.Pairwise (· < ·)
  used : ∀ name, name ∈ s.required ↔ (Node.script s).Uses name
  splits : ∀ cs ds, s.commands = cs ++ ds → ∀ k l,
    let a : Script := ⟨cs, k⟩
    let b : Script := ⟨ds, l⟩
    s.required = sorted (a.required ++ b.required)
      ∧ ∀ name, name ∈ s.required ↔ name ∈ a.required ∨ name ∈ b.required
  permuted : ∀ t : Script, s.commands.Perm t.commands →
    t.required = s.required ∧ t.missing = s.missing
  rearranged : ∀ t : Script, CommandsRearranged s.commands t.commands →
    t.required = s.required ∧ t.missing = s.missing
  missing : s.missing.Sublist s.required ∧ ∀ name, name ∈ s.missing ↔
    name ∈ s.required ∧ ¬ ∃ c, .require c ∈ s.commands ∧ name ∈ c.capabilities
  declaring : s.missing ≠ [] → RequireCommand.ofCapabilities s.missing = .ok ⟨s.missing, none⟩
    ∧ ∀ k l, let t : Script := ⟨.require ⟨s.missing, k⟩ :: s.commands, l⟩
      t.required = s.required ∧ t.missing = []

section Reports

variable {s t : Script} {name : String}

theorem mem_required : name ∈ s.required ↔ name ∈ ofCommands s.commands := mem_sorted

theorem mem_declared :
    name ∈ s.declared ↔ ∃ c, .require c ∈ s.commands ∧ name ∈ c.capabilities := by
  rw [declared, mem_sorted, List.mem_flatMap]
  constructor
  · rintro ⟨c, hc, hname⟩
    cases c with
    | require c => exact ⟨c, hc, hname⟩
    | _ => cases hname
  · rintro ⟨c, hc, hname⟩
    exact ⟨.require c, hc, hname⟩

theorem mem_missing : name ∈ s.missing ↔ name ∈ s.required ∧ name ∉ s.declared := by
  simp [missing]

theorem required_rearranged (h : CommandsRearranged s.commands t.commands) :
    s.required = t.required :=
  sorted_congr fun name => mem_ofCommands_rearranged name h

theorem missing_rearranged (h : CommandsRearranged s.commands t.commands) :
    s.missing = t.missing := by
  have hdeclared : s.declared = t.declared :=
    sorted_congr fun name => mem_declaredBy_rearranged name h
  rw [missing, missing, required_rearranged h, hdeclared]

theorem required_append {cs ds : List Command} {k l m : Option Location} :
    (⟨cs ++ ds, k⟩ : Script).required
      = sorted ((⟨cs, l⟩ : Script).required ++ (⟨ds, m⟩ : Script).required) := by
  refine sorted_congr fun name => ?_
  simp only [mem_ofCommands, List.mem_append, mem_required, or_and_right, exists_or]

theorem required_require {c : RequireCommand} {l : Option Location} :
    (⟨.require c :: s.commands, l⟩ : Script).required = s.required := rfl

theorem missing_require {k l : Option Location} :
    (⟨.require ⟨s.missing, k⟩ :: s.commands, l⟩ : Script).missing = [] := by
  refine List.eq_nil_iff_forall_not_mem.2 fun name hname => ?_
  obtain ⟨hrequired, hundeclared⟩ := mem_missing.1 hname
  rw [mem_declared] at hundeclared
  by_cases hdeclared : name ∈ s.declared
  · obtain ⟨c, hc, hc'⟩ := mem_declared.1 hdeclared
    exact hundeclared ⟨c, List.mem_cons_of_mem _ hc, hc'⟩
  · exact hundeclared ⟨_, List.mem_cons_self, mem_missing.2 ⟨hrequired, hdeclared⟩⟩

end Reports

theorem capabilities_reported (s : Script) : s.Reported where
  ascending := sorted_ascending _
  used _ := mem_required.trans (uses_script s)
  splits cs ds h k l := by
    obtain ⟨_, _⟩ := s
    subst h
    refine ⟨required_append, fun name => ?_⟩
    rw [required_append, mem_sorted, List.mem_append]
  permuted t h :=
    have hrearranged := (commandsRearranged_refl s.commands).perm h
    ⟨(required_rearranged hrearranged).symm, (missing_rearranged hrearranged).symm⟩
  rearranged t h := ⟨(required_rearranged h).symm, (missing_rearranged h).symm⟩
  missing := ⟨List.filter_sublist, fun name => by rw [mem_missing, mem_declared]⟩
  declaring h := by
    refine ⟨?_, fun k l => ⟨required_require, missing_require⟩⟩
    rw [RequireCommand.ofCapabilities, checkCapabilities, if_neg (by simpa using h)]
    rfl

/-- A test in the test list of a generic test, in a block of a chain, counts. -/
example :
    let ihave : Test := .ihave (.single (.quoted "body")) none
    let s : Script := ⟨[.require ⟨["imap4flags"], none⟩, .ifTest (.always none) (.mk [] none)
      (.otherwise (.mk [.ifTest (.generic "spamtest" [.tests [ihave] none] none)
        (.mk [.keep ⟨some (.single (.quoted "x")), none⟩] none) .done none] none) none) none], none⟩
    s.required = ["ihave", "imap4flags"] ∧ s.missing = ["ihave"] := by
  decide

end Script

end MailSieve
