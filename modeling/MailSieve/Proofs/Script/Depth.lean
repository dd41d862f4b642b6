import MailSieve.Script.Tree

/-! How deep a tree is nested.
A block and a test stand one level deeper than what they belong to. Each link of an `if` chain
stands one level deeper than the link before it, so the levels of a chain add up. -/

namespace MailSieve

mutual

def Test.depth : Test → Nat
  | .negation t _ => t.depth + 1
  | .allOf ts _ => testsDepth ts + 1
  | .anyOf ts _ => testsDepth ts + 1
  | .generic _ arguments _ => argumentsDepth arguments + 1
  | _ => 1
termination_by structural t => t

def testsDepth : List Test → Nat
  | [] => 0
  | t :: ts => max t.depth (testsDepth ts)

def Argument.depth : Argument → Nat
  | .tests ts _ => testsDepth ts
  | _ => 0

def argumentsDepth : List Argument → Nat
  | [] => 0
  | a :: as => max a.depth (argumentsDepth as)

end

mutual

def Command.depth : Command → Nat
  | .ifTest t b c _ => max t.depth (max b.depth c.depth)
  | .generic _ arguments _ => argumentsDepth arguments
  | .genericBlock _ arguments b _ => max (argumentsDepth arguments) b.depth
  | _ => 0
termination_by structural c => c

def commandsDepth : List Command → Nat
  | [] => 0
  | c :: cs => max c.depth (commandsDepth cs)

def Block.depth : Block → Nat
  | .mk commands _ => commandsDepth commands + 1

def Chain.depth : Chain → Nat
  | .done => 0
  | .elsif t b c _ => max t.depth (max b.depth c.depth) + 1
  | .otherwise b _ => b.depth + 1

end

def Script.depth (s : Script) : Nat := commandsDepth s.commands

theorem testsDepth_le {ts : List Test} {n : Nat} : testsDepth ts ≤ n ↔ ∀ t ∈ ts, t.depth ≤ n := by
  induction ts with
  | nil => simp [testsDepth]
  | cons t ts ih => rw [testsDepth, List.forall_mem_cons, ← ih, Nat.max_le]

theorem commandsDepth_le {cs : List Command} {n : Nat} :
    commandsDepth cs ≤ n ↔ ∀ c ∈ cs, c.depth ≤ n := by
  induction cs with
  | nil => simp [commandsDepth]
  | cons c cs ih => rw [commandsDepth, List.forall_mem_cons, ← ih, Nat.max_le]

end MailSieve
