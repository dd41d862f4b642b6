import MailSieve.Grammar.Script
import MailSieve.Proofs.Lookahead.Tracks

/-! Every parser of the grammar does the same from two cursors that part at a misreading.
What a repetition repeats passes over a token; so do tests, commands and blocks, since each of them
begins with a token of its own. -/

namespace MailSieve.Tracks

variable {o : ParseOptions} {start : Position}

section Values

theorem string : Tracks o Always Parse.string := by
  refine note.andThen fun _ => peek.andThen fun l => ?_
  obtain ⟨token, location, text⟩ := l
  cases token with
  | string value multiline => exact advance.moved fun _ => located.andThen fun _ => pure
  | _ => exact fail

theorem stringList : Tracks o Always Parse.stringList := by
  refine peek.andThen fun l => eat.andThen fun _ => .ite ?_ ?_
  · exact (commaSeparated string).moved fun _ => expect.andThen fun _ => span.andThen fun _ => pure
  · exact string.moved fun _ => span.andThen fun _ => pure

theorem isAtString : Tracks o Never Parse.isAtString := by
  refine peek.andThen fun l => ?_
  obtain ⟨token, location, text⟩ := l
  cases token <;> exact pure

theorem isAtStringList : Tracks o Never Parse.isAtStringList := by
  refine note.andThen fun _ => note.andThen fun _ => peek.andThen fun l => ?_
  obtain ⟨token, location, text⟩ := l
  cases token <;> exact pure

theorem number : Tracks o Always Parse.number := by
  refine note.andThen fun _ => peek.andThen fun l => ?_
  obtain ⟨token, location, text⟩ := l
  cases token with
  | number value quantifier => exact advance.moved fun _ => located.andThen fun _ => pure
  | _ => exact fail

theorem chosen {α : Type} {ofWord? : String → Option α} {f : String → Location → Fault}
    (hf : ∀ v l rs, (f v l).From rs) : Tracks o Never (Parse.chosen ofWord? f) := by
  refine peek.andThen fun l => string.andThen fun s => ?_
  cases ofWord? s.value with
  | none => exact refuse (hf _ _)
  | some a => exact pure

theorem tagValue (kind : TagValueKind) : Tracks o Never (Parse.tagValue kind) := by
  cases kind with
  | none => exact pure
  | string => exact string.andThen fun _ => pure
  | strings => exact stringList.andThen fun _ => pure
  | number => exact number.andThen fun _ => pure
  | operator => exact (chosen (f := .badOperator) fun _ _ _ => trivial).andThen fun _ => pure
  | importance => exact (chosen (f := .badImportance) fun _ _ _ => trivial).andThen fun _ => pure

theorem tagStep (rules : List TagRule) (uses : TagUses) :
    Tracks o (·.isSome = true) (Parse.tagStep rules uses) := by
  refine nextTag.bind fun r => ?_
  obtain _ | ⟨name, l⟩ := r
  · exact result fun h => Bool.false_ne_true h.2
  · dsimp only
    cases rules.find? (·.name == name) with
    | none => exact refuse fun _ => trivial
    | some rule =>
      refine .ite (refuse fun _ => trivial) ((tagValue rule.value).andThen fun value => ?_)
      exact .ite (refuse fun _ => trivial) (result fun h => h.1 rfl)

theorem tags (rules : List TagRule) : Tracks o Never (Parse.tags rules) :=
  iterate (tagStep rules) []

end Values

section Tests

variable {inner : Parse Test}

theorem testList (ht : Tracks o Always inner) : Tracks o Always (Parse.testList inner) :=
  expect.moved fun _ => (commaSeparated ht).andThen fun _ => expect.andThen fun _ => pure

theorem argument (ht : Tracks o Always inner) :
    Tracks o (·.isSome = true) (Parse.argument inner) := by
  refine note.andThen fun _ => note.andThen fun _ => note.andThen fun _ => note.andThen fun _ =>
    note.andThen fun _ => note.andThen fun _ => peek.andThen fun l => ?_
  obtain ⟨token, location, text⟩ := l
  cases token with
  | tag name => exact advance.moved fun _ => located.andThen fun _ => pure
  | number value quantifier => exact number.moved fun _ => pure
  | string value multiline => exact string.moved fun _ => pure
  | word name => exact ht.moved fun _ => span.andThen fun _ => pure
  | mark p =>
    cases p with
    | openBracket => exact stringList.moved fun _ => pure
    | openParen => exact (testList ht).moved fun _ => span.andThen fun _ => pure
    | _ => exact none
  | endOfInput => exact none

theorem arguments (ht : Tracks o Always inner) : Tracks o Never (Parse.arguments inner) :=
  manyUntil (argument ht)

theorem keywordTest (ht : Tracks o Always inner) (k : TestKeyword) :
    Tracks o Never (Parse.keywordTest inner start k) := by
  cases k with
  | always | never => exact span.andThen fun _ => pure
  | negation => exact ht.andThen fun _ => span.andThen fun _ => pure
  | allOf | anyOf => exact (testList ht).andThen fun _ => span.andThen fun _ => pure
  | address | envelope | header | string =>
    exact (tags _).andThen fun _ => stringList.andThen fun _ => stringList.andThen fun _ =>
      span.andThen fun _ => pure
  | headerExists | ihave => exact stringList.andThen fun _ => span.andThen fun _ => pure
  | size =>
    refine (tags _).andThen fun _ => .ite (note.andThen fun _ => note.andThen fun _ => fail) ?_
    exact number.andThen fun _ => span.andThen fun _ => pure
  | body =>
    exact (tags _).andThen fun _ => stringList.andThen fun _ => span.andThen fun _ => pure
  | date =>
    exact (tags _).andThen fun _ => string.andThen fun _ => string.andThen fun _ =>
      stringList.andThen fun _ => span.andThen fun _ => pure
  | currentDate =>
    exact (tags _).andThen fun _ => string.andThen fun _ => stringList.andThen fun _ =>
      span.andThen fun _ => pure
  | hasFlag =>
    refine (tags _).andThen fun _ => stringList.andThen fun _ => isAtStringList.andThen fun _ =>
      .ite ?_ (span.andThen fun _ => pure)
    exact stringList.andThen fun _ => span.andThen fun _ => pure
  | duplicate => exact (tags _).andThen fun _ => span.andThen fun _ => pure

theorem testWith (ht : Tracks o Always inner) : Tracks o Always (Parse.testWith inner) := by
  refine isAt.andThen fun _ => .ite ?_ (note.andThen fun _ => peek.andThen fun l => ?_)
  · exact advance.moved fun _ => ht.andThen fun _ => expect.andThen fun _ => pure
  · obtain ⟨token, location, text⟩ := l
    cases token with
    | word name =>
      refine advance.moved fun _ => ?_
      cases TestKeyword.ofWord? name with
      | some k => exact keywordTest ht k
      | none => exact (arguments ht).andThen fun _ => span.andThen fun _ => pure
    | _ => exact fail

theorem test (room : Nat) : Tracks o Always (Parse.test room) := by
  induction room with
  | zero =>
    exact fault (f := fun c => .tooDeep o.maxDepth c.current.location c.current.found)
      (fun _ => trivial) nofun (fun h => by rw [h.current]) fun _ => rfl
  | succ room ih => exact testWith ih

end Tests

section Commands

variable {inner : Parse Test} {block : Parse Block} {chain : Parse Chain}

theorem flagArguments : Tracks o Never Parse.flagArguments := by
  refine note.andThen fun _ => isAtString.andThen fun _ => .ite ?_ ?_
  · exact string.andThen fun _ => isAtStringList.andThen fun _ =>
      .ite (stringList.andThen fun _ => pure) pure
  · exact stringList.andThen fun _ => pure

theorem flagCommand {action : FlagAction} : Tracks o Never (Parse.flagCommand action start) :=
  flagArguments.andThen fun _ => expect.andThen fun _ => span.andThen fun _ => pure

theorem genericCommand (ht : Tracks o Always inner) (hb : Tracks o Always block) {name : String} :
    Tracks o Never (Parse.genericCommand inner block name start) := by
  refine (arguments ht).andThen fun _ => isAt.andThen fun _ => .ite ?_ ?_
  · exact hb.andThen fun _ => span.andThen fun _ => pure
  · exact expect.andThen fun _ => span.andThen fun _ => pure

theorem keywordCommand (ht : Tracks o Always inner) (hb : Tracks o Always block)
    (hc : Tracks o Never chain) (l : Lexeme) (k : CommandKeyword) :
    Tracks o Never (Parse.keywordCommand inner block chain l k) := by
  cases k with
  | require => exact stringList.andThen fun _ => expect.andThen fun _ => span.andThen fun _ => pure
  | ifTest =>
    exact ht.andThen fun _ => hb.andThen fun _ => hc.andThen fun _ => span.andThen fun _ => pure
  | elsif | elseBlock => exact refuse fun _ => trivial
  | stop | discard => exact expect.andThen fun _ => span.andThen fun _ => pure
  | keep => exact (tags _).andThen fun _ => expect.andThen fun _ => span.andThen fun _ => pure
  | fileInto | redirect | vacation | notify =>
    exact (tags _).andThen fun _ => string.andThen fun _ => expect.andThen fun _ =>
      span.andThen fun _ => pure
  | reject => exact string.andThen fun _ => expect.andThen fun _ => span.andThen fun _ => pure
  | setVariable =>
    exact (tags _).andThen fun _ => string.andThen fun _ => string.andThen fun _ =>
      expect.andThen fun _ => span.andThen fun _ => pure
  | setFlag | addFlag | removeFlag => exact flagCommand

theorem commandWith (ht : Tracks o Always inner) (hb : Tracks o Always block)
    (hc : Tracks o Never chain) : Tracks o Always (Parse.commandWith inner block chain) := by
  refine note.andThen fun _ => peek.andThen fun l => ?_
  obtain ⟨token, location, text⟩ := l
  cases token with
  | word name =>
    refine advance.moved fun _ => ?_
    cases CommandKeyword.ofWord? name with
    | some k => exact keywordCommand ht hb hc _ k
    | none => exact genericCommand ht hb
  | _ => exact fail

theorem blockWith {command : Parse Command} (hc : Tracks o Always command) :
    Tracks o Never (Parse.blockWith command start) := by
  have hitem : Tracks o (·.isSome = true) (Parse.commandOrClose command) :=
    eat.andThen fun _ => .ite none hc.some
  exact (manyUntil hitem).andThen fun _ => span.andThen fun _ => pure

theorem chainWith {elsif elseBlock : Lexeme → Parse Chain} (hi : ∀ l, Tracks o Never (elsif l))
    (he : ∀ l, Tracks o Never (elseBlock l)) :
    Tracks o Never (Parse.chainWith elsif elseBlock) :=
  peek.andThen fun l => eatWord.andThen fun _ => .ite (hi l)
    (eatWord.andThen fun _ => .ite (he l) pure)

theorem block_chain (room : Nat) :
    Tracks o Always (Parse.block room) ∧ Tracks o Never (Parse.chain room) := by
  induction room with
  | zero => exact ⟨expect.moved fun _ => tooDeep, chainWith (fun _ => tooDeep) fun _ => tooDeep⟩
  | succ room ih =>
    obtain ⟨hb, hc⟩ := ih
    refine ⟨expect.moved fun _ => blockWith (commandWith (test room) hb hc),
      chainWith (fun l => ?_) fun l => ?_⟩
    · exact (test room).andThen fun _ => hb.andThen fun _ => hc.andThen fun _ =>
        span.andThen fun _ => pure
    · exact hb.andThen fun _ => span.andThen fun _ => pure

theorem command (room : Nat) : Tracks o Always (Parse.command room) :=
  commandWith (test room) (block_chain room).1 (block_chain room).2

theorem script : Tracks o Never Parse.script := by
  refine options.andThen fun options => ?_
  have hitem : Tracks o (·.isSome = true)
      (Parse.commandOrEnd (Parse.command options.maxDepth)) :=
    note.andThen fun _ => peek.andThen fun _ => .ite none (command _).some
  exact (manyUntil hitem).andThen fun _ => peek.andThen fun _ => located.andThen fun _ => pure

end Commands

end MailSieve.Tracks
