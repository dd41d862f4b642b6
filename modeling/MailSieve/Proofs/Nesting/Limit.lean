import MailSieve.Proofs.Lexing.Place
import MailSieve.Proofs.Lookahead.Precedence
import MailSieve.Proofs.Nesting.Deepens

/-! The nesting limit only cuts off.
Raising the limit changes neither the script that is read nor any fault but that of the limit
itself, and what is reported instead of that one does not stand before it. -/

namespace MailSieve

open Parse

namespace Parse

variable {o : ParseOptions} {c d : Cursor}

theorem expect_current {m : Punctuation} {l : Lexeme} (h : expect m o c = .ok (l, d)) :
    l = c.current := by
  obtain ⟨b, e, hb, h⟩ := bind_ok.1 h
  obtain ⟨-, rfl⟩ := isAt_ok.1 hb
  split at h
  · obtain ⟨-, rfl⟩ := advance_ok.1 h
    exact Cursor.current_note _ _
  · exact (fail_ok.1 h).elim

theorem chainWith_run (elsif elseBlock : Lexeme → Parse Chain) :
    chainWith elsif elseBlock o c = (eatWord "elsif" >>= fun b => if b then elsif c.current else
      eatWord "else" >>= fun b => if b then elseBlock c.current else pure .done) o c := rfl

end Parse

namespace Onward

variable {o : ParseOptions}

theorem test (room : Nat) : Onward o (Parse.test room) := .of_gives fun _ => .test room

theorem block (room : Nat) : Onward o (Parse.block room) :=
  .of_gives fun _ => (Gives.block_chain room).1

theorem chain (room : Nat) : Onward o (Parse.chain room) :=
  .of_gives fun _ => (Gives.block_chain room).2

theorem command (room : Nat) : Onward o (Parse.command room) := .of_gives fun _ => .command room

theorem span {start : Position} : Onward o (Parse.span start) :=
  .of_gives fun _ => .span trivial

end Onward

namespace Deepens

variable {α β : Type} {o o' : ParseOptions} {start : Position} {room : Nat}

section Nodes

variable (hl : o.locations = o'.locations)
include hl

theorem node {p p' : Parse α} (h : Deepens o o' True p p') (f : α → Option Location → β) :
    Deepens o o' True (p >>= fun a => Parse.span start >>= fun l => Pure.pure (f a l))
      (p' >>= fun a => Parse.span start >>= fun l => Pure.pure (f a l)) :=
  h.bind (fun _ => (span hl).after fun _ => pure) fun _ _ n =>
    (Onward.span n).andThen fun _ => .pure trivial

section Tests

variable {inner : Parse Test} (ht : Deepens o o' True inner (Parse.test room))
include ht

omit hl in
theorem testList : Deepens o o' True (Parse.testList inner) (Parse.testList (Parse.test room)) :=
  expect.after fun _ => (commaSeparated ht fun _ => .test room).bind
    (fun _ => expect.after fun _ => pure) fun _ _ _ => Gives.expect.andThen fun _ => .pure trivial

theorem argument : Deepens o o' True (Parse.argument inner) (Parse.argument (Parse.test room)) := by
  refine note.after fun _ => note.after fun _ => note.after fun _ => note.after fun _ =>
    note.after fun _ => note.after fun _ => peek.after fun l => ?_
  obtain ⟨token, location, text⟩ := l
  cases token with
  | tag name => exact advance.after fun _ => (located hl).after fun _ => pure
  | number value quantifier => exact (number hl).after fun _ => pure
  | string value multiline => exact (string hl).after fun _ => pure
  | word name => exact ht.node hl fun t l => some (Argument.tests [t] l)
  | mark m =>
    cases m with
    | openBracket => exact (stringList hl).after fun _ => pure
    | openParen => exact ht.testList.node hl fun ts l => some (Argument.tests ts l)
    | _ => exact pure
  | endOfInput => exact pure

theorem arguments :
    Deepens o o' True (Parse.arguments inner) (Parse.arguments (Parse.test room)) :=
  manyUntil (ht.argument hl) fun _ => .of_gives fun _ => .argument (.test room)

theorem keywordTest (k : TestKeyword) : Deepens o o' True (Parse.keywordTest inner start k)
    (Parse.keywordTest (Parse.test room) start k) := by
  cases k with
  | always | never => exact (span hl).after fun _ => pure
  | negation => exact ht.node hl Test.negation
  | allOf => exact ht.testList.node hl Test.allOf
  | anyOf => exact ht.testList.node hl Test.anyOf
  | address | envelope | header | string =>
    exact (tags hl _).after fun _ => (stringList hl).after fun _ => (stringList hl).after fun _ =>
      (span hl).after fun _ => pure
  | headerExists | ihave => exact (stringList hl).after fun _ => (span hl).after fun _ => pure
  | size =>
    refine (tags hl _).after fun _ => .ite (note.after fun _ => note.after fun _ => fail) ?_
    exact (number hl).after fun _ => (span hl).after fun _ => pure
  | body =>
    exact (tags hl _).after fun _ => (stringList hl).after fun _ => (span hl).after fun _ => pure
  | date =>
    exact (tags hl _).after fun _ => (string hl).after fun _ => (string hl).after fun _ =>
      (stringList hl).after fun _ => (span hl).after fun _ => pure
  | currentDate =>
    exact (tags hl _).after fun _ => (string hl).after fun _ => (stringList hl).after fun _ =>
      (span hl).after fun _ => pure
  | hasFlag =>
    refine (tags hl _).after fun _ => (stringList hl).after fun _ => isAtStringList.after fun _ =>
      .ite ?_ ((span hl).after fun _ => pure)
    exact (stringList hl).after fun _ => (span hl).after fun _ => pure
  | duplicate => exact (tags hl _).after fun _ => (span hl).after fun _ => pure

theorem testWith :
    Deepens o o' True (Parse.testWith inner) (Parse.testWith (Parse.test room)) := by
  refine isAt.after fun _ => .ite ?_ (note.after fun _ => peek.after fun l => ?_)
  · exact advance.after fun _ => ht.bind (fun _ => expect.after fun _ => pure)
      fun _ _ _ => Gives.expect.andThen fun _ => .pure trivial
  · obtain ⟨token, location, text⟩ := l
    cases token with
    | word name =>
      refine advance.after fun _ => ?_
      cases TestKeyword.ofWord? name with
      | some k => exact ht.keywordTest hl k
      | none => exact (ht.arguments hl).node hl (Test.generic name)
    | _ => exact fail

end Tests

theorem test {room room' : Nat} (h : room ≤ room') :
    Deepens o o' True (Parse.test room) (Parse.test room') := by
  induction room generalizing room' with
  | zero => exact of_start (fun _ _ => .inr rfl) (.test room')
  | succ room ih =>
    obtain ⟨room', rfl⟩ : ∃ n, room' = n + 1 := ⟨room' - 1, by omega⟩
    exact (ih (Nat.le_of_succ_le_succ h)).testWith hl

section Commands

variable {inner : Parse Test} {block : Parse Block} {chain : Parse Chain}
  (ht : Deepens o o' True inner (Parse.test room))
  (hb : Deepens o o' True block (Parse.block room))
  (hc : Deepens o o' True chain (Parse.chain room))
include ht hb hc

theorem branch (f : Test → Block → Chain → Option Location → α) :
    Deepens o o' True
      (inner >>= fun t => block >>= fun b => chain >>= fun c => Parse.span start >>= fun l =>
        Pure.pure (f t b c l))
      (Parse.test room >>= fun t => Parse.block room >>= fun b => Parse.chain room >>= fun c =>
        Parse.span start >>= fun l => Pure.pure (f t b c l)) := by
  have hrest (t : Test) (b : Block) : Onward o' (Parse.chain room >>= fun c =>
      Parse.span start >>= fun l => Pure.pure (f t b c l)) := fun n =>
    (Onward.chain room n).andThen fun _ => (Onward.span n).andThen fun _ => .pure trivial
  refine ht.bind (fun t => hb.bind (fun b => hc.node hl (f t b)) fun _ => hrest t)
    fun _ t n => (Onward.block room n).andThen fun b => hrest t b n

omit hc in
theorem genericCommand {name : String} :
    Deepens o o' True (Parse.genericCommand inner block name start)
      (Parse.genericCommand (Parse.test room) (Parse.block room) name start) := by
  refine (ht.arguments hl).bind (fun as => isAt.after fun _ => .ite ?_ ?_) fun _ _ n => ?_
  · exact hb.node hl (Command.genericBlock name as)
  · exact expect.after fun _ => (span hl).after fun _ => pure
  · refine Gives.isAt.andThen fun _ => .ite ?_ ?_
    · exact (Onward.block room n).andThen fun _ => (Onward.span n).andThen fun _ => .pure trivial
    · exact Gives.expect.andThen fun _ => (Onward.span n).andThen fun _ => .pure trivial

theorem keywordCommand (l : Lexeme) (k : CommandKeyword) :
    Deepens o o' True (Parse.keywordCommand inner block chain l k)
      (Parse.keywordCommand (Parse.test room) (Parse.block room) (Parse.chain room) l k) := by
  cases k with
  | require =>
    exact (stringList hl).after fun _ => expect.after fun _ => (span hl).after fun _ => pure
  | ifTest => exact branch hl ht hb hc Command.ifTest
  | elsif | elseBlock => exact refuse
  | stop | discard => exact expect.after fun _ => (span hl).after fun _ => pure
  | keep =>
    exact (tags hl _).after fun _ => expect.after fun _ => (span hl).after fun _ => pure
  | fileInto | redirect | vacation | notify =>
    exact (tags hl _).after fun _ => (string hl).after fun _ => expect.after fun _ =>
      (span hl).after fun _ => pure
  | reject => exact (string hl).after fun _ => expect.after fun _ => (span hl).after fun _ => pure
  | setVariable =>
    exact (tags hl _).after fun _ => (string hl).after fun _ => (string hl).after fun _ =>
      expect.after fun _ => (span hl).after fun _ => pure
  | setFlag | addFlag | removeFlag =>
    exact (flagArguments hl).after fun _ => expect.after fun _ => (span hl).after fun _ => pure

theorem commandWith :
    Deepens o o' True (Parse.commandWith inner block chain)
      (Parse.commandWith (Parse.test room) (Parse.block room) (Parse.chain room)) := by
  refine note.after fun _ => peek.after fun l => ?_
  obtain ⟨token, location, text⟩ := l
  cases token with
  | word name =>
    refine advance.after fun _ => ?_
    cases CommandKeyword.ofWord? name with
    | some k => exact keywordCommand hl ht hb hc _ k
    | none => exact genericCommand hl ht hb
  | _ => exact fail

end Commands

theorem blockWith {command : Parse Command}
    (hc : Deepens o o' True command (Parse.command room)) :
    Deepens o o' True (Parse.blockWith command start)
      (Parse.blockWith (Parse.command room) start) := by
  have hitem : Deepens o o' True (Parse.commandOrClose command)
      (Parse.commandOrClose (Parse.command room)) :=
    eat.after fun _ => .ite pure (hc.bind (fun _ => pure) fun _ _ _ => .pure trivial)
  have honward : Onward o' (Parse.commandOrClose (Parse.command room)) := fun n =>
    Gives.eat.andThen fun _ => .ite (.pure trivial) ((Onward.command room).some n)
  exact (manyUntil hitem fun _ => honward).node hl Block.mk

omit hl in
theorem chainWith {elsif elsif' elseBlock elseBlock' : Lexeme → Parse Chain}
    (hi : ∀ l, Deepens o o' True (elsif l) (elsif' l))
    (he : ∀ l, Deepens o o' True (elseBlock l) (elseBlock' l)) :
    Deepens o o' True (Parse.chainWith elsif elseBlock) (Parse.chainWith elsif' elseBlock') :=
  peek.after fun l => eatWord.after fun _ => .ite (hi l)
    (eatWord.after fun _ => .ite (he l) pure)

omit hl in
theorem block_zero (room' : Nat) : Deepens o o' True (Parse.block 0) (Parse.block room') := by
  refine of_start (fun c hc => ?_) (.block room')
  obtain ⟨q, hq⟩ : ∃ q, Parse.block room' = Parse.expect .openBrace >>= q := by
    cases room' <;> exact ⟨_, rfl⟩
  have hzero : Parse.block 0 o c = (Parse.expect .openBrace >>= Parse.tooDeep) o c := rfl
  rw [hq, hzero]
  refine stop_after expect (fun l d hd _ => .inr ?_) hc
  rw [expect_current hd]
  rfl

omit hl in
theorem chain_zero (room' : Nat) : Deepens o o' True (Parse.chain 0) (Parse.chain room') := by
  refine of_start (fun c hc => ?_) (.chain room')
  obtain ⟨p, q, hpq⟩ : ∃ p q, Parse.chain room' = Parse.chainWith p q := by
    cases room' <;> exact ⟨_, _, rfl⟩
  have hzero : Parse.chain 0 o c = Parse.chainWith Parse.tooDeep Parse.tooDeep o c := rfl
  rw [hpq, hzero, chainWith_run, chainWith_run]
  refine stop_after eatWord (fun b d _ hd => ?_) hc
  cases b with
  | true => exact .inr rfl
  | false =>
    refine stop_after eatWord (fun b e _ he => ?_) hd
    cases b with
    | true => exact .inr rfl
    | false => exact .inl ⟨rfl, fun h => by cases h; exact he⟩

theorem block_chain {room room' : Nat} (h : room ≤ room') :
    Deepens o o' True (Parse.block room) (Parse.block room')
      ∧ Deepens o o' True (Parse.chain room) (Parse.chain room') := by
  induction room generalizing room' with
  | zero => exact ⟨block_zero room', chain_zero room'⟩
  | succ room ih =>
    obtain ⟨room', rfl⟩ : ∃ n, room' = n + 1 := ⟨room' - 1, by omega⟩
    have hle := Nat.le_of_succ_le_succ h
    obtain ⟨hb, hc⟩ := ih hle
    have ht := test hl hle
    refine ⟨expect.after fun l => blockWith hl (commandWith hl ht hb hc),
      chainWith (fun l => branch hl ht hb hc Chain.elsif) fun l => hb.node hl Chain.otherwise⟩

theorem command {room room' : Nat} (h : room ≤ room') :
    Deepens o o' True (Parse.command room) (Parse.command room') :=
  commandWith hl (test hl h) (block_chain hl h).1 (block_chain hl h).2

theorem script (h : o.maxDepth ≤ o'.maxDepth) : Deepens o o' True Parse.script Parse.script := by
  have hitem : Deepens o o' True (Parse.commandOrEnd (Parse.command o.maxDepth))
      (Parse.commandOrEnd (Parse.command o'.maxDepth)) :=
    note.after fun _ => peek.after fun _ => .ite pure
      ((command hl h).bind (fun _ => pure) fun _ _ _ => .pure trivial)
  have honward : Onward o' (Parse.commandOrEnd (Parse.command o'.maxDepth)) := fun n =>
    Gives.note.andThen fun _ => Gives.peek.andThen fun _ => .ite (.pure trivial)
      ((Onward.command o'.maxDepth).some n)
  intro c hc
  rw [script_run, script_run]
  exact ((manyUntil hitem fun _ => honward).bind
    (fun _ => peek.after fun _ => (located hl).after fun _ => pure)
    fun _ _ _ => Gives.peek.andThen fun _ => (Gives.located trivial trivial).andThen fun _ =>
      .pure trivial) c hc

end Nodes

end Deepens

namespace Script

variable {o o' : ParseOptions} {source : String}

theorem start_ordered {c : Cursor} (h : Cursor.ofReadings (readings source) = .ok c) :
    c.Ordered := by
  rw [Cursor.Ordered, Cursor.ofReadings_remaining (readings_ne_nil source) h]
  exact readingsFrom_ordered _ _

/-- Two readings of a source are the same, or the one with less room is cut off. -/
theorem parse_same_or_cut (hl : o.locations = o'.locations) (h : o.maxDepth ≤ o'.maxDepth) :
    parse o' source = parse o source ∨ ∃ l : Lexeme,
      parse o source = .error (.tooDeep o.maxDepth l.location l.found)
        ∧ ∀ f, parse o' source = .error f →
          l.location.start.offset ≤ f.diagnostic.location.start.offset := by
  cases hc : Cursor.ofReadings (readings source) with
  | error f =>
    refine .inl ?_
    rw [parse, parse, hc]
    rfl
  | ok c =>
    obtain ⟨heq, -⟩ | ⟨-, l, hcut⟩ := Deepens.script hl h c (start_ordered hc)
    · refine .inl ?_
      rw [parse, parse, hc]
      change (Parse.script o' c).bind _ = (Parse.script o c).bind _
      rw [heq]
    · refine .inr ⟨l, parse_error.2 (.inr ⟨c, hc, hcut.cut⟩), fun f hf => ?_⟩
      obtain hf | ⟨d, hd, hf⟩ := parse_error.1 hf
      · cases hc.symm.trans hf
      · cases hc.symm.trans hd
        exact hcut.fault hf

/-- With the limit raised, a script is read as before and a fault stays as it is, unless it is that
of the limit; in its place nothing is reported before the token where the reading was cut off. -/
theorem parse_raised (b : Bool) {n m : Nat} (h : n ≤ m) (source : String) :
    (∀ s, parse ⟨b, n⟩ source = .ok s → parse ⟨b, m⟩ source = .ok s)
      ∧ (∀ f, parse ⟨b, n⟩ source = .error f → (∀ l found, f ≠ .tooDeep n l found) →
        parse ⟨b, m⟩ source = .error f)
      ∧ ∀ l found, parse ⟨b, n⟩ source = .error (.tooDeep n l found) →
        ∀ f, parse ⟨b, m⟩ source = .error f →
          l.start.offset ≤ f.diagnostic.location.start.offset := by
  have hrun : parse ⟨b, m⟩ source = parse ⟨b, n⟩ source ∨ ∃ l : Lexeme,
      parse ⟨b, n⟩ source = .error (.tooDeep n l.location l.found)
        ∧ ∀ f, parse ⟨b, m⟩ source = .error f →
          l.location.start.offset ≤ f.diagnostic.location.start.offset :=
    parse_same_or_cut rfl h
  obtain hsame | ⟨l, hcut, hafter⟩ := hrun
  · rw [hsame]
    refine ⟨fun _ h => h, fun _ h _ => h, fun l found hl f hf => ?_⟩
    rw [hl] at hf
    cases hf
    exact Nat.le_refl _
  · rw [hcut]
    refine ⟨nofun, fun f hf hne => ?_, fun l' found hl f hf => ?_⟩
    · cases hf
      exact (hne _ _ rfl).elim
    · cases hl
      exact hafter f hf

/-- The reading is cut off at the parenthesis, and the fault behind it is met with more room. -/
theorem parse_raised_parenthesis : ∃ l found f,
    parse ⟨true, 2⟩ "if not not (;" = .error (.tooDeep 2 l found)
      ∧ parse ⟨true, 4⟩ "if not not (;" = .error f
      ∧ l.start.offset ≤ f.diagnostic.location.start.offset := by
  obtain ⟨h, hdeeper⟩ : parse ⟨true, 2⟩ "if not not (;" = .error
        (.tooDeep 2 ⟨⟨11, 1, 12⟩, ⟨12, 1, 13⟩⟩ "(")
      ∧ parse ⟨true, 4⟩ "if not not (;" = .error
        (.unexpected ⟨⟨12, 1, 13⟩, ⟨13, 1, 14⟩⟩ (some ";")
          [.literal "(", .tokenClass "identifier"]) :=
    ⟨by decide +kernel, by decide +kernel⟩
  exact ⟨_, _, _, h, hdeeper, (parse_raised true (by decide) _).2.2 _ _ h _ hdeeper⟩

end Script

end MailSieve
