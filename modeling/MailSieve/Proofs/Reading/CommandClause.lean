import MailSieve.Proofs.Reading.TestClause
import MailSieve.Grammar.Command

/-! Commands of fixed shape: the parser of each keyword reads the clauses of that keyword, up to
the semicolon. -/

namespace MailSieve

open Parse Phrase

variable {o : ParseOptions}

theorem FlagAction.keyword_injective {a b : FlagAction} (h : a.keyword = b.keyword) : a = b := by
  cases a <;> cases b <;> first | rfl | cases h

theorem Command.readable_of_clause {c : Command} {k : CommandKeyword} {cl : Clause}
    (h : c.clause? = some (k, cl)) (hk : k ≠ .vacation) : c.Obeys .readable := by
  cases c with
  | ifTest | generic | genericBlock => cases h
  | vacation =>
    cases h
    exact absurd rfl hk
  | _ => simp [Command.Obeys, RequireCommand.Obeys, KeepCommand.Obeys, FileIntoCommand.Obeys,
      RedirectCommand.Obeys, RejectCommand.Obeys, SetCommand.Obeys, FlagCommand.Obeys,
      NotifyCommand.Obeys]

namespace Phrase

/-- A location-free command that has this clause and no tags that exclude each other. -/
def CommandClause (k : CommandKeyword) (cl : Clause) (c : Command) : Prop :=
  c.clause? = some (k, cl) ∧ c.location = none ∧ c.Obeys .readable

abbrev CommandLeaf (k : CommandKeyword) : List Token → Command → Prop :=
  Leaf [.mark .semicolon] (CommandClause k)

theorem semicolon_not_tag {t : Token} (_ : True) :
    isTag ([Token.mark .semicolon].headD t) = false := rfl

end Phrase

namespace Reads

theorem stopCommand (ho : o.locations = false) (start : Position) :
    Reads o (stopCommand start) (CommandLeaf .stop) Free := by
  refine (untagged (commandEnd ho start Command.stop)).leaf fun cl c => ⟨?_, ?_⟩
  · rintro ⟨_, rfl, rfl, rfl⟩
    exact ⟨rfl, rfl, Command.readable_of_clause rfl nofun⟩
  · rintro ⟨hc, hl, -⟩
    cases c with
    | stop l =>
      cases hc
      cases hl
      exact ⟨_, rfl, rfl, rfl⟩
    | flag c => obtain ⟨⟨⟩, _, _, _⟩ := c <;> cases hc
    | _ => cases hc

theorem discardCommand (ho : o.locations = false) (start : Position) :
    Reads o (discardCommand start) (CommandLeaf .discard) Free := by
  refine (untagged (commandEnd ho start Command.discard)).leaf fun cl c => ⟨?_, ?_⟩
  · rintro ⟨_, rfl, rfl, rfl⟩
    exact ⟨rfl, rfl, Command.readable_of_clause rfl nofun⟩
  · rintro ⟨hc, hl, -⟩
    cases c with
    | discard l =>
      cases hc
      cases hl
      exact ⟨_, rfl, rfl, rfl⟩
    | flag c => obtain ⟨⟨⟩, _, _, _⟩ := c <;> cases hc
    | _ => cases hc

theorem rejectCommand (ho : o.locations = false) (start : Position) :
    Reads o (rejectCommand start) (CommandLeaf .reject) Free := by
  refine (untagged (stringThen ho fun reason =>
    commandEnd ho start fun l => Command.reject ⟨reason, l⟩)).leaf fun cl c => ⟨?_, ?_⟩
  · rintro ⟨_, rfl, reason, _, rfl, rfl, rfl⟩
    exact ⟨rfl, rfl, Command.readable_of_clause rfl nofun⟩
  · rintro ⟨hc, hl, -⟩
    cases c with
    | reject c =>
      obtain ⟨reason, l⟩ := c
      cases hc
      cases hl
      exact ⟨_, rfl, reason, _, rfl, rfl, rfl⟩
    | flag c => obtain ⟨⟨⟩, _, _, _⟩ := c <;> cases hc
    | _ => cases hc

theorem keepCommand (ho : o.locations = false) (start : Position) :
    Reads o (keepCommand start) (CommandLeaf .keep) Free := by
  refine (slotThen ho Shape.keep (by decide) (fun flags =>
    commandEnd ho start fun l => Command.keep ⟨flags, l⟩) semicolon_not_tag).leaf
    fun cl c => ⟨?_, ?_⟩
  · rintro ⟨flags, _, rfl, -, rfl, rfl⟩
    exact ⟨rfl, rfl, Command.readable_of_clause rfl nofun⟩
  · rintro ⟨hc, hl, -⟩
    cases c with
    | keep c =>
      obtain ⟨flags, l⟩ := c
      cases hc
      cases hl
      exact ⟨flags, _, rfl, trivial, rfl, rfl⟩
    | flag c => obtain ⟨⟨⟩, _, _, _⟩ := c <;> cases hc
    | _ => cases hc

theorem fileIntoCommand (ho : o.locations = false) (start : Position) :
    Reads o (fileIntoCommand start) (CommandLeaf .fileInto) Free := by
  refine (slotThen ho Shape.fileInto (by decide) (fun a => stringThen ho fun mailbox =>
    commandEnd ho start fun l => Command.fileInto ⟨mailbox, a.1.1, a.1.2, a.2, l⟩)
    semicolon_not_tag).leaf fun cl c => ⟨?_, ?_⟩
  · rintro ⟨a, _, rfl, -, mailbox, _, rfl, rfl, rfl⟩
    exact ⟨rfl, rfl, Command.readable_of_clause rfl nofun⟩
  · rintro ⟨hc, hl, -⟩
    cases c with
    | fileInto c =>
      obtain ⟨mailbox, copy, create, flags, l⟩ := c
      cases hc
      cases hl
      exact ⟨((copy, create), flags), _, rfl, ⟨⟨trivial, trivial, trivial⟩, trivial, trivial⟩,
        mailbox, _, rfl, rfl, rfl⟩
    | flag c => obtain ⟨⟨⟩, _, _, _⟩ := c <;> cases hc
    | _ => cases hc

theorem redirectCommand (ho : o.locations = false) (start : Position) :
    Reads o (redirectCommand start) (CommandLeaf .redirect) Free := by
  refine (slotThen ho Shape.redirect (by decide) (fun copy => stringThen ho fun address =>
    commandEnd ho start fun l => Command.redirect ⟨address, copy, l⟩)
    semicolon_not_tag).leaf fun cl c => ⟨?_, ?_⟩
  · rintro ⟨a, _, rfl, -, address, _, rfl, rfl, rfl⟩
    exact ⟨rfl, rfl, Command.readable_of_clause rfl nofun⟩
  · rintro ⟨hc, hl, -⟩
    cases c with
    | redirect c =>
      obtain ⟨address, copy, l⟩ := c
      cases hc
      cases hl
      exact ⟨copy, _, rfl, trivial, address, _, rfl, rfl, rfl⟩
    | flag c => obtain ⟨⟨⟩, _, _, _⟩ := c <;> cases hc
    | _ => cases hc

theorem vacationCommand (ho : o.locations = false) (start : Position) :
    Reads o (vacationCommand start) (CommandLeaf .vacation) Free := by
  refine (slotThen ho Shape.vacation (by decide) (fun a => stringThen ho fun reason =>
    commandEnd ho start fun l => Command.vacation
      ⟨reason, a.1.1.1.1.1.1, a.1.1.1.1.1.2, a.1.1.1.1.2, a.1.1.1.2, a.1.1.2, a.1.2, a.2, l⟩)
    semicolon_not_tag).leaf fun cl c => ⟨?_, ?_⟩
  · rintro ⟨a, _, rfl, ha, reason, _, rfl, rfl, rfl⟩
    exact ⟨rfl, rfl, (VacationCommand.obeys_readable _).2 ((Shape.vacation_apart a).1 ha)⟩
  · rintro ⟨hc, hl, ht⟩
    cases c with
    | vacation c =>
      obtain ⟨reason, days, seconds, subject, sender, addresses, mime, handle, l⟩ := c
      cases hc
      cases hl
      let a := ((((((days, seconds), subject), sender), addresses), mime), handle)
      have ha := (Shape.vacation_apart a).2 ((VacationCommand.obeys_readable _).1 ht)
      exact ⟨a, _, rfl, ha, reason, _, rfl, rfl, rfl⟩
    | flag c => obtain ⟨⟨⟩, _, _, _⟩ := c <;> cases hc
    | _ => cases hc

theorem notifyCommand (ho : o.locations = false) (start : Position) :
    Reads o (notifyCommand start) (CommandLeaf .notify) Free := by
  refine (slotThen ho Shape.notify (by decide) (fun a => stringThen ho fun method =>
    commandEnd ho start fun l => Command.notify ⟨method, a.1.1.1, a.1.1.2, a.1.2, a.2, l⟩)
    semicolon_not_tag).leaf fun cl c => ⟨?_, ?_⟩
  · rintro ⟨a, _, rfl, -, method, _, rfl, rfl, rfl⟩
    exact ⟨rfl, rfl, Command.readable_of_clause rfl nofun⟩
  · rintro ⟨hc, hl, -⟩
    cases c with
    | notify c =>
      obtain ⟨method, sender, importance, options, message, l⟩ := c
      cases hc
      cases hl
      exact ⟨(((sender, importance), options), message), _, rfl,
        ⟨⟨⟨trivial, trivial, trivial⟩, trivial, trivial⟩, trivial, trivial⟩, method, _, rfl, rfl,
        rfl⟩
    | flag c => obtain ⟨⟨⟩, _, _, _⟩ := c <;> cases hc
    | _ => cases hc

theorem setCommand (ho : o.locations = false) (start : Position) :
    Reads o (setCommand start) (CommandLeaf .setVariable) Free := by
  have hgot (ss : List Setting) (ms : List SetModifier) :
      (∃ uses : TagUses, uses.Admitted TagRules.set ∧ uses.settings = ss ∧ uses.modifiers = ms)
        ↔ (⟨ms.map fun m => ⟨m.word, .none⟩, [], true⟩ : Clause).Arranges ss ∧ True := by
    rw [Clause.arranges_true, Shape.admitted_set, and_true]
  refine (tagsThen ho hgot (fun modifiers => stringThen ho fun name => stringThen ho fun value =>
    commandEnd ho start fun l => Command.setVariable ⟨modifiers, name, value, l⟩)
    semicolon_not_tag).leaf fun cl c => ⟨?_, ?_⟩
  · rintro ⟨modifiers, _, rfl, -, name, _, rfl, value, _, rfl, rfl, rfl⟩
    exact ⟨rfl, rfl, Command.readable_of_clause rfl nofun⟩
  · rintro ⟨hc, hl, -⟩
    cases c with
    | setVariable c =>
      obtain ⟨modifiers, name, value, l⟩ := c
      cases hc
      cases hl
      exact ⟨modifiers, _, rfl, trivial, name, _, rfl, value, _, rfl, rfl, rfl⟩
    | flag c => obtain ⟨⟨⟩, _, _, _⟩ := c <;> cases hc
    | _ => cases hc

/-- Of the list only its strings are kept, and without what tells one string from a list. -/
theorem requireCommand (ho : o.locations = false) (start : Position) :
    Reads o (requireCommand start) (CommandLeaf .require) Free := by
  refine ((stringList ho).andThen fun l => commandEnd (K := fun _ => True) ho start fun p =>
    Command.require ⟨l.values.map (·.value), p⟩).congr fun ts c => ⟨?_, ?_⟩
  · rintro ⟨us, _, l, rfl, hl, vs, _, rfl, hs, rfl, rfl⟩
    cases sequence_nil.1 hs
    exact ⟨us ++ [], _, by simp, clausePhrase_untagged.2 (.cons (.texts hl) .nil), rfl, rfl,
      Command.readable_of_clause rfl nofun⟩
  · rintro ⟨_, cl, rfl, hcl, hc, hl, -⟩
    cases c with
    | require c =>
      obtain ⟨capabilities, l⟩ := c
      cases hc
      cases hl
      obtain ⟨us, vs, rfl, hfirst, hrest⟩ := sequence_cons.1 (clausePhrase_untagged.1 hcl)
      cases sequence_nil.1 hrest
      cases hfirst with
      | texts hl =>
        exact ⟨us, [.mark .semicolon], _, by simp, hl, [], [], rfl, .nil, rfl, rfl⟩
    | flag c => obtain ⟨⟨⟩, _, _, _⟩ := c <;> cases hc
    | _ => cases hc

def FlagPhrase (ts : List Token) (x : Option StringLit × StringList) : Prop :=
  Sequence PositionalPhrase ts (x.1.toList.map .string ++ [.strings x.2])

theorem flagPhrase_iff {ts : List Token} {x : Option StringLit × StringList} :
    FlagPhrase ts x ↔
      (∃ us vs s l, ts = us ++ vs ∧ StringPhrase us s ∧ ListPhrase vs l ∧ x = (some s, l))
      ∨ ∃ l, ListPhrase ts l ∧ x = (none, l) := by
  obtain ⟨v, l⟩ := x
  constructor
  · intro h
    cases v with
    | none =>
      obtain ⟨us, vs, rfl, hl, hs⟩ := sequence_cons.1 h
      rw [sequence_nil.1 hs, List.append_nil]
      exact .inr ⟨l, positionalPhrase_strings.1 hl, rfl⟩
    | some s =>
      obtain ⟨us, vs, rfl, hv, hs⟩ := sequence_cons.1 h
      obtain ⟨vs, ws, rfl, hl, hn⟩ := sequence_cons.1 hs
      rw [sequence_nil.1 hn, List.append_nil]
      exact .inl ⟨us, vs, s, l, rfl, positionalPhrase_string.1 hv,
        positionalPhrase_strings.1 hl, rfl⟩
  · rintro (⟨us, vs, s, l, rfl, hs, hl, hx⟩ | ⟨l, hl, hx⟩)
    · cases hx
      have hseq : Sequence PositionalPhrase (vs ++ []) [.strings l] := .cons (.strings hl) .nil
      rw [List.append_nil] at hseq
      exact .cons (.string hs) hseq
    · cases hx
      have hseq : Sequence PositionalPhrase (ts ++ []) [.strings l] := .cons (.strings hl) .nil
      rw [List.append_nil] at hseq
      exact hseq

theorem flagArguments (ho : o.locations = false) :
    Reads o flagArguments FlagPhrase fun _ t => startsList t = false := by
  have second (s : StringLit) :
      Reads o
        (isAtStringList >>= fun b =>
          if b then do
            let flags ← Parse.stringList
            pure (some s, flags)
          else pure (none, (⟨[s], s.location⟩ : StringList)))
        (fun ts x => (∃ l, ListPhrase ts l ∧ x = (some s, l))
          ∨ ts = [] ∧ x = (none, ⟨[s], s.location⟩))
        (fun _ t => startsList t = false) := by
    refine choice looks_isAtStringList
      (((stringList ho).follow fun _ _ => trivial).map fun l => (some s, l))
      ((result _).follow fun _ _ => trivial) .inl .inr ?_
    rintro _ _ t (⟨l, hl, rfl⟩ | ⟨rfl, rfl⟩) ht
    · exact .inl ⟨hl.starts t, l, hl, rfl⟩
    · exact .inr ⟨ht, rfl, rfl⟩
  refine noteThen (choice looks_isAtString ((string ho).andThen second)
    (((stringList ho).follow fun _ _ => trivial).map fun l => (none, l)) ?_ ?_ ?_)
  · rintro _ _ ⟨us, vs, s, rfl, hs, ⟨l, hl, rfl⟩ | ⟨rfl, rfl⟩⟩
    · exact flagPhrase_iff.2 (.inl ⟨us, vs, s, l, rfl, hs, hl, rfl⟩)
    · cases hs
      exact flagPhrase_iff.2 (.inr ⟨_, .single (.mk _ _), rfl⟩)
  · rintro _ _ ⟨l, hl, rfl⟩
    exact flagPhrase_iff.2 (.inr ⟨l, hl, rfl⟩)
  · intro ts x t h ht
    obtain ⟨us, vs, s, l, rfl, hs, hl, rfl⟩ | ⟨l, hl, rfl⟩ := flagPhrase_iff.1 h
    · refine .inl ⟨?_, us, vs, s, rfl, hs, .inl ⟨l, hl, rfl⟩⟩
      cases hs
      rfl
    · cases hl with
      | single hs =>
        cases hs
        exact .inl ⟨rfl, _, [], _, rfl, .mk _ _, .inr ⟨rfl, rfl⟩⟩
      | brackets hb =>
        cases hb
        exact .inr ⟨rfl, _, .brackets (.mk ‹_›), rfl⟩

theorem flagCommand (ho : o.locations = false) (action : FlagAction) (start : Position) :
    Reads o (flagCommand action start) (CommandLeaf action.keyword) Free := by
  refine ((flagArguments ho).bind (fun x => commandEnd (K := fun _ => True) ho start fun l =>
    Command.flag ⟨action, x.1, x.2, l⟩) ?_).congr fun ts c => ⟨?_, ?_⟩
  · rintro us vs x c t - ⟨ws, ps, rfl, hs, rfl, -⟩ -
    rw [sequence_nil.1 hs]
    rfl
  · rintro ⟨us, _, x, rfl, hx, _, _, rfl, hs, rfl, rfl⟩
    cases sequence_nil.1 hs
    have hk : action.keyword ≠ .vacation := by cases action <;> nofun
    exact ⟨us, _, rfl, clausePhrase_untagged.2 hx, rfl, rfl, Command.readable_of_clause rfl hk⟩
  · rintro ⟨us, cl, rfl, hcl, hc, hl, -⟩
    cases c with
    | flag c =>
      obtain ⟨action', variableName, flags, l⟩ := c
      obtain ⟨hk, rfl⟩ := Prod.mk.inj (Option.some.inj hc)
      cases hl
      cases FlagAction.keyword_injective hk
      exact ⟨us, [.mark .semicolon], (variableName, flags), rfl, clausePhrase_untagged.1 hcl, [],
        [], rfl, .nil, rfl, rfl⟩
    | _ => cases action <;> cases hc

end Reads

end MailSieve
