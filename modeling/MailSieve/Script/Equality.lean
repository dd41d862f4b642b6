import MailSieve.Script.Tree

/-! Equality of trees, locations included, as a Boolean function, by which it is decidable. -/

namespace MailSieve

mutual

def Test.same : Test → Test → Bool
  | .always l, .always m => l = m
  | .never l, .never m => l = m
  | .negation t l, .negation u m => t.same u && decide (l = m)
  | .allOf ts l, .allOf us m => sameTests ts us && decide (l = m)
  | .anyOf ts l, .anyOf us m => sameTests ts us && decide (l = m)
  | .address t, .address u => t = u
  | .header t, .header u => t = u
  | .envelope t, .envelope u => t = u
  | .headerExists h l, .headerExists k m => decide (h = k) && decide (l = m)
  | .size t, .size u => t = u
  | .body t, .body u => t = u
  | .date t, .date u => t = u
  | .currentDate t, .currentDate u => t = u
  | .hasFlag t, .hasFlag u => t = u
  | .string t, .string u => t = u
  | .ihave c l, .ihave d m => decide (c = d) && decide (l = m)
  | .duplicate t, .duplicate u => t = u
  | .generic n as l, .generic k bs m =>
    decide (n = k) && sameArguments as bs && decide (l = m)
  | _, _ => false
termination_by structural t => t

def sameTests : List Test → List Test → Bool
  | [], [] => true
  | t :: ts, u :: us => t.same u && sameTests ts us
  | _, _ => false

def Argument.same : Argument → Argument → Bool
  | .tag n l, .tag k m => decide (n = k) && decide (l = m)
  | .number n, .number k => n = k
  | .string s, .string t => s = t
  | .strings s, .strings t => s = t
  | .tests ts l, .tests us m => sameTests ts us && decide (l = m)
  | _, _ => false

def sameArguments : List Argument → List Argument → Bool
  | [], [] => true
  | a :: as, b :: bs => a.same b && sameArguments as bs
  | _, _ => false

end

mutual

def Command.same : Command → Command → Bool
  | .require c, .require d => c = d
  | .ifTest t b c l, .ifTest u d e m =>
    t.same u && b.same d && c.same e && decide (l = m)
  | .stop l, .stop m => l = m
  | .keep c, .keep d => c = d
  | .fileInto c, .fileInto d => c = d
  | .redirect c, .redirect d => c = d
  | .discard l, .discard m => l = m
  | .reject c, .reject d => c = d
  | .setVariable c, .setVariable d => c = d
  | .vacation c, .vacation d => c = d
  | .flag c, .flag d => c = d
  | .notify c, .notify d => c = d
  | .generic n as l, .generic k bs m =>
    decide (n = k) && sameArguments as bs && decide (l = m)
  | .genericBlock n as b l, .genericBlock k bs d m =>
    decide (n = k) && sameArguments as bs && b.same d && decide (l = m)
  | _, _ => false
termination_by structural c => c

def sameCommands : List Command → List Command → Bool
  | [], [] => true
  | c :: cs, d :: ds => c.same d && sameCommands cs ds
  | _, _ => false

def Block.same : Block → Block → Bool
  | .mk cs l, .mk ds m => sameCommands cs ds && decide (l = m)

def Chain.same : Chain → Chain → Bool
  | .done, .done => true
  | .elsif t b c l, .elsif u d e m =>
    t.same u && b.same d && c.same e && decide (l = m)
  | .otherwise b l, .otherwise d m => b.same d && decide (l = m)
  | _, _ => false

end

namespace Script

def same (s t : Script) : Bool :=
  sameCommands s.commands t.commands && decide (s.location = t.location)

end Script

mutual

theorem Test.same_iff : ∀ t u : Test, t.same u = true ↔ t = u
  | .negation t _, u => by cases u <;> simp [Test.same, Test.same_iff t]
  | .allOf ts _, u | .anyOf ts _, u => by cases u <;> simp [Test.same, sameTests_iff ts]
  | .generic _ as _, u => by cases u <;> simp [Test.same, sameArguments_iff as, and_assoc]
  | .always _, u | .never _, u | .address _, u | .header _, u | .envelope _, u
  | .headerExists _ _, u | .size _, u | .body _, u | .date _, u | .currentDate _, u
  | .hasFlag _, u | .string _, u | .ihave _ _, u | .duplicate _, u => by
    cases u <;> simp [Test.same]

theorem sameTests_iff : ∀ ts us : List Test, sameTests ts us = true ↔ ts = us
  | [], us => by cases us <;> simp [sameTests]
  | t :: ts, us => by cases us <;> simp [sameTests, Test.same_iff t, sameTests_iff ts]

theorem Argument.same_iff : ∀ a b : Argument, a.same b = true ↔ a = b
  | .tests ts _, b => by cases b <;> simp [Argument.same, sameTests_iff ts]
  | .tag _ _, b | .number _, b | .string _, b | .strings _, b => by
    cases b <;> simp [Argument.same]

theorem sameArguments_iff : ∀ as bs : List Argument, sameArguments as bs = true ↔ as = bs
  | [], bs => by cases bs <;> simp [sameArguments]
  | a :: as, bs => by cases bs <;> simp [sameArguments, Argument.same_iff a, sameArguments_iff as]

end

mutual

theorem Command.same_iff : ∀ c d : Command, c.same d = true ↔ c = d
  | .ifTest t b c _, d => by
    cases d <;> simp [Command.same, t.same_iff, Block.same_iff b, Chain.same_iff c, and_assoc]
  | .generic _ as _, d => by cases d <;> simp [Command.same, sameArguments_iff as, and_assoc]
  | .genericBlock _ as b _, d => by
    cases d <;> simp [Command.same, sameArguments_iff as, Block.same_iff b, and_assoc]
  | .require _, d | .stop _, d | .keep _, d | .fileInto _, d | .redirect _, d | .discard _, d
  | .reject _, d | .setVariable _, d | .vacation _, d | .flag _, d | .notify _, d => by
    cases d <;> simp [Command.same]

theorem sameCommands_iff : ∀ cs ds : List Command, sameCommands cs ds = true ↔ cs = ds
  | [], ds => by cases ds <;> simp [sameCommands]
  | c :: cs, ds => by cases ds <;> simp [sameCommands, Command.same_iff c, sameCommands_iff cs]

theorem Block.same_iff : ∀ b d : Block, b.same d = true ↔ b = d
  | .mk cs _, .mk ds _ => by simp [Block.same, sameCommands_iff cs]

theorem Chain.same_iff : ∀ c d : Chain, c.same d = true ↔ c = d
  | .done, d => by cases d <;> simp [Chain.same]
  | .elsif t b c _, d => by
    cases d <;> simp [Chain.same, t.same_iff, Block.same_iff b, Chain.same_iff c, and_assoc]
  | .otherwise b _, d => by cases d <;> simp [Chain.same, Block.same_iff b]

end

theorem Script.same_iff (s t : Script) : s.same t = true ↔ s = t := by
  cases s
  cases t
  simp [Script.same, sameCommands_iff]

instance : DecidableEq Script := fun s t => decidable_of_iff _ (s.same_iff t)

end MailSieve
