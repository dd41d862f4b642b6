import MailSieve.Proofs.Script.Law
import MailSieve.Script.Erase

/-! What a tree keeps when it is written and read again.
`norm` puts a string in place of every list of one string among the arguments of a generic node: a
list is written without brackets if it holds one string only. `reduced` drops the quantifiers that
do not divide their numbers. Together with `erase` they say what becomes of any tree. -/

namespace MailSieve

mutual

def Test.norm : Test → Test
  | .negation t l => .negation t.norm l
  | .allOf ts l => .allOf (normTests ts) l
  | .anyOf ts l => .anyOf (normTests ts) l
  | .generic name arguments l => .generic name (normArguments arguments) l
  | t => t
termination_by structural t => t

def normTests : List Test → List Test
  | [] => []
  | t :: ts => t.norm :: normTests ts

def Argument.norm : Argument → Argument
  | .strings ⟨[s], _⟩ => .string s
  | .tests ts l => .tests (normTests ts) l
  | a => a

def normArguments : List Argument → List Argument
  | [] => []
  | a :: as => a.norm :: normArguments as

end

mutual

def Command.norm : Command → Command
  | .ifTest t b c l => .ifTest t.norm b.norm c.norm l
  | .generic name arguments l => .generic name (normArguments arguments) l
  | .genericBlock name arguments b l => .genericBlock name (normArguments arguments) b.norm l
  | c => c
termination_by structural c => c

def normCommands : List Command → List Command
  | [] => []
  | c :: cs => c.norm :: normCommands cs

def Block.norm : Block → Block
  | .mk commands l => .mk (normCommands commands) l

def Chain.norm : Chain → Chain
  | .done => .done
  | .elsif t b c l => .elsif t.norm b.norm c.norm l
  | .otherwise b l => .otherwise b.norm l

end

def Script.norm (s : Script) : Script := ⟨normCommands s.commands, s.location⟩

theorem normTests_eq_map (ts : List Test) : normTests ts = ts.map Test.norm := by
  induction ts with
  | nil => rfl
  | cons t ts ih => rw [normTests, ih, List.map_cons]

theorem normArguments_eq_map (as : List Argument) : normArguments as = as.map Argument.norm := by
  induction as with
  | nil => rfl
  | cons a as ih => rw [normArguments, ih, List.map_cons]

theorem normCommands_eq_map (cs : List Command) : normCommands cs = cs.map Command.norm := by
  induction cs with
  | nil => rfl
  | cons c cs ih => rw [normCommands, ih, List.map_cons]

namespace NumberLit

def reduced (n : NumberLit) : NumberLit :=
  { n with quantifier := n.quantifier.filter fun q => n.value.toNat % q.multiplier == 0 }

end NumberLit

mutual

def Test.reduced : Test → Test
  | .negation t l => .negation t.reduced l
  | .allOf ts l => .allOf (reduceTests ts) l
  | .anyOf ts l => .anyOf (reduceTests ts) l
  | .size t => .size { t with size := t.size.reduced }
  | .duplicate t => .duplicate { t with seconds := t.seconds.map NumberLit.reduced }
  | .generic name arguments l => .generic name (reduceArguments arguments) l
  | t => t
termination_by structural t => t

def reduceTests : List Test → List Test
  | [] => []
  | t :: ts => t.reduced :: reduceTests ts

def Argument.reduced : Argument → Argument
  | .number n => .number n.reduced
  | .tests ts l => .tests (reduceTests ts) l
  | a => a

def reduceArguments : List Argument → List Argument
  | [] => []
  | a :: as => a.reduced :: reduceArguments as

end

mutual

def Command.reduced : Command → Command
  | .ifTest t b c l => .ifTest t.reduced b.reduced c.reduced l
  | .vacation c =>
    .vacation { c with
      days := c.days.map NumberLit.reduced, seconds := c.seconds.map NumberLit.reduced }
  | .generic name arguments l => .generic name (reduceArguments arguments) l
  | .genericBlock name arguments b l => .genericBlock name (reduceArguments arguments) b.reduced l
  | c => c
termination_by structural c => c

def reduceCommands : List Command → List Command
  | [] => []
  | c :: cs => c.reduced :: reduceCommands cs

def Block.reduced : Block → Block
  | .mk commands l => .mk (reduceCommands commands) l

def Chain.reduced : Chain → Chain
  | .done => .done
  | .elsif t b c l => .elsif t.reduced b.reduced c.reduced l
  | .otherwise b l => .otherwise b.reduced l

end

def Script.reduced (s : Script) : Script := ⟨reduceCommands s.commands, s.location⟩

theorem reduceTests_eq_map (ts : List Test) : reduceTests ts = ts.map Test.reduced := by
  induction ts with
  | nil => rfl
  | cons t ts ih => rw [reduceTests, ih, List.map_cons]

theorem reduceArguments_eq_map (as : List Argument) :
    reduceArguments as = as.map Argument.reduced := by
  induction as with
  | nil => rfl
  | cons a as ih => rw [reduceArguments, ih, List.map_cons]

theorem reduceCommands_eq_map (cs : List Command) :
    reduceCommands cs = cs.map Command.reduced := by
  induction cs with
  | nil => rfl
  | cons c cs ih => rw [reduceCommands, ih, List.map_cons]

end MailSieve
