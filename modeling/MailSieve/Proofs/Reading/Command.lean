import MailSieve.Proofs.Reading.CommandClause
import MailSieve.Proofs.Reading.Test

/-! Commands, blocks and chains.
An `if` takes every link that follows it. No command begins with the keyword of a link, so what
follows a command in a block never goes on with its chain. -/

namespace MailSieve

open Parse Phrase

variable {α β : Type} {o : ParseOptions}

namespace Phrase

/-- What may follow a command: anything but one more link. -/
def NoLink (t : Token) : Prop := t ≠ .word "elsif" ∧ t ≠ .word "else"

section Forms

variable {T : List Token → Test → Prop} {B : List Token → Block → Prop}
variable {C : List Token → Chain → Prop} {ts : List Token} {c : Command}

/-- What stands behind the keyword of a command. -/
def CommandKeywordForm (T : List Token → Test → Prop) (B : List Token → Block → Prop)
    (C : List Token → Chain → Prop) : CommandKeyword → List Token → Command → Prop
  | .ifTest => fun ts c => ∃ us vs ws t b ch, ts = us ++ (vs ++ ws) ∧ T us t ∧ B vs b ∧ C ws ch
      ∧ c = .ifTest t b ch none
  | .elsif | .elseBlock => fun _ _ => False
  | k => CommandLeaf k

def GenericEnd (B : List Token → Block → Prop) (name : String) (arguments : List Argument)
    (ts : List Token) (c : Command) : Prop :=
  (∃ b, B ts b ∧ c = .genericBlock name arguments b none)
    ∨ ts = [.mark .semicolon] ∧ c = .generic name arguments none

def NamedCommandForm (T : List Token → Test → Prop) (B : List Token → Block → Prop)
    (C : List Token → Chain → Prop) (name : String) (ts : List Token) (c : Command) : Prop :=
  match CommandKeyword.ofWord? name with
  | some k => CommandKeywordForm T B C k ts c
  | none => ∃ us vs arguments, ts = us ++ vs ∧ ArgumentsPhrase T us arguments
      ∧ GenericEnd B name arguments vs c

theorem commandKeywordForm_clause {k : CommandKeyword} {cl : Clause} (hc : CommandClause k cl c)
    (h : ClausePhrase ts cl) : CommandKeywordForm T B C k (ts ++ [.mark .semicolon]) c := by
  have hleaf : CommandLeaf k (ts ++ [.mark .semicolon]) c := ⟨ts, cl, rfl, h, hc⟩
  cases k with
  | ifTest | elsif | elseBlock =>
    cases c with
    | flag c => obtain ⟨⟨⟩, _, _, _⟩ := c <;> cases hc.1
    | _ => cases hc.1
  | _ => exact hleaf

theorem commandForm_iff :
    CommandForm T B C ts c
      ↔ ∃ name us, ts = .word name :: us ∧ NamedCommandForm T B C name us c := by
  constructor
  · rintro (⟨hc, hl, hx, hp⟩ | ⟨ht, hb, hch⟩ | ⟨hn, ha⟩ | ⟨hn, ha, hb⟩)
    · refine ⟨_, _, rfl, ?_⟩
      rw [NamedCommandForm, CommandKeyword.ofWord?_word]
      exact commandKeywordForm_clause ⟨hc, hl, hx⟩ hp
    · exact ⟨_, _, rfl, _, _, _, _, _, _, List.append_assoc _ _ _, ht, hb, hch, rfl⟩
    · refine ⟨_, _, rfl, ?_⟩
      rw [NamedCommandForm, hn]
      exact ⟨_, _, _, rfl, ha, .inr ⟨rfl, rfl⟩⟩
    · refine ⟨_, _, rfl, ?_⟩
      rw [NamedCommandForm, hn]
      exact ⟨_, _, _, rfl, ha, .inl ⟨_, hb, rfl⟩⟩
  · rintro ⟨name, us, rfl, h⟩
    rw [NamedCommandForm] at h
    split at h
    · next k hk =>
      rw [← Reads.ofWord_word (fun _ => rfl) hk]
      have hleaf (h : CommandLeaf k us c) : CommandForm T B C (.word k.word :: us) c := by
        obtain ⟨us, cl, rfl, hp, hc, hl, hx⟩ := h
        exact .clause hc hl hx hp
      cases k with
      | ifTest =>
        obtain ⟨us, vs, ws, t, b, ch, rfl, ht, hb, hch, rfl⟩ := h
        rw [← List.append_assoc]
        exact .ifTest ht hb hch
      | elsif | elseBlock => cases h
      | _ => exact hleaf h
    · next hn =>
      obtain ⟨us, vs, arguments, rfl, ha, ⟨b, hb, rfl⟩ | ⟨rfl, rfl⟩⟩ := h
      · exact .genericBlock hn ha hb
      · exact .generic hn ha

theorem commandForm_starts (h : CommandForm T B C ts c) :
    ∃ name us, ts = .word name :: us ∧ NoLink (.word name) := by
  obtain ⟨name, us, rfl, hn⟩ := commandForm_iff.1 h
  refine ⟨name, us, rfl, ?_, ?_⟩
  · rintro ⟨⟩
    exact hn
  · rintro ⟨⟩
    exact hn

end Forms

end Phrase

namespace Reads

variable {test : Parse Test} {block : Parse Block} {chain : Parse Chain}
variable {T : List Token → Test → Prop} {B : List Token → Block → Prop}
variable {C : List Token → Chain → Prop}

theorem linkThen (ho : o.locations = false) (ht : Reads o test T fun _ => Closes)
    (hb : Reads o block B Free) (hch : Reads o chain C fun _ => NoLink)
    (hB : ∀ {ts b}, B ts b → ∃ us, ts = braced us) (start : Position)
    (f : Test → Block → Chain → Option Location → β) :
    Reads o
      (do
        let t ← test
        let body ← block
        let rest ← chain
        pure (f t body rest (← span start)))
      (fun ts x => ∃ us vs ws t b ch, ts = us ++ (vs ++ ws) ∧ T us t ∧ B vs b ∧ C ws ch
        ∧ x = f t b ch none) fun _ => NoLink := by
  refine (ht.bind (fun t => hb.andThen fun b => hch.bind (fun ch => spanThen ho start
    ((result (f t b ch none)).follow fun _ _ => trivial)) ?_) ?_).congr fun ts c => ⟨?_, ?_⟩
  · rintro _ _ _ _ u - ⟨rfl, rfl⟩ hu
    exact hu
  · rintro _ _ _ _ u - ⟨vs, ws, b, rfl, hb, -⟩ -
    obtain ⟨us, rfl⟩ := hB hb
    rfl
  · rintro ⟨us, _, t, rfl, ht, vs, _, b, rfl, hb, ws, _, ch, rfl, hch, rfl, rfl⟩
    exact ⟨us, vs, ws, t, b, ch, by simp, ht, hb, hch, rfl⟩
  · rintro ⟨us, vs, ws, t, b, ch, rfl, ht, hb, hch, rfl⟩
    exact ⟨us, _, t, rfl, ht, vs, _, b, rfl, hb, ws, [], ch, by simp, hch, rfl, rfl⟩

theorem genericCommand (ho : o.locations = false) (ht : Reads o test T fun _ => Closes)
    (hne : ∀ {ts t}, T ts t → ts ≠ []) (hb : Reads o block B Free)
    (hB : ∀ {ts b}, B ts b → ∃ us, ts = braced us) (name : String) (start : Position) :
    Reads o (genericCommand test block name start)
      (fun ts c => ∃ us vs arguments, ts = us ++ vs ∧ ArgumentsPhrase T us arguments
        ∧ GenericEnd B name arguments vs c) fun _ => NoLink := by
  have ending (args : List Argument) :
      Reads o
        (isAt .openBrace >>= fun b =>
          if b then do
            let body ← block
            pure (Command.genericBlock name args body (← span start))
          else do
            let _ ← expect .semicolon
            pure (Command.generic name args (← span start)))
        (GenericEnd B name args) fun _ => NoLink := by
    refine choice (looks_isAt .openBrace)
      (hb.andThen fun b => spanThen ho start
        ((result (Command.genericBlock name args b none)).follow fun _ _ => trivial))
      (expectThen fun _ => spanThen ho start
        ((result (Command.generic name args none)).follow fun _ _ => trivial)) ?_ ?_ ?_
    · rintro _ _ ⟨us, _, b, rfl, hb, rfl, rfl⟩
      exact .inl ⟨b, by simpa using hb, rfl⟩
    · rintro _ _ ⟨_, rfl, rfl, rfl⟩
      exact .inr ⟨rfl, rfl⟩
    · rintro ts _ t (⟨b, hb, rfl⟩ | ⟨rfl, rfl⟩) -
      · obtain ⟨us, rfl⟩ := hB hb
        exact .inl ⟨rfl, _, [], b, by simp, hb, rfl, rfl⟩
      · exact .inr ⟨rfl, [], rfl, rfl, rfl⟩
  refine (arguments ho ht hne).bind ending ?_ |>.congr fun ts c => ⟨?_, ?_⟩
  · rintro us vs args c t - (⟨b, hb, -⟩ | ⟨rfl, -⟩) -
    · obtain ⟨us, rfl⟩ := hB hb
      rfl
    · rfl
  · exact id
  · exact id

theorem keywordCommand (ho : o.locations = false) (ht : Reads o test T fun _ => Closes)
    (hb : Reads o block B Free) (hch : Reads o chain C fun _ => NoLink)
    (hB : ∀ {ts b}, B ts b → ∃ us, ts = braced us) (l : Lexeme) (k : CommandKeyword) :
    Reads o (keywordCommand test block chain l k) (CommandKeywordForm T B C k) fun _ => NoLink := by
  have free {p : Parse Command} {G : List Token → Command → Prop} (h : Reads o p G Free) :
      Reads o p G fun _ => NoLink := h.follow fun _ _ => trivial
  have orphan : Reads o (throw (.orphanBranch k.word l.location) : Parse Command)
      (fun _ _ => False) fun _ => NoLink := never (fun _ _ _ h => throw_ok.1 h) fun _ _ => id
  let start := l.location.start
  cases k with
  | require => exact free (requireCommand ho start)
  | ifTest => exact linkThen ho ht hb hch hB start Command.ifTest
  | elsif | elseBlock => exact orphan
  | stop => exact free (stopCommand ho start)
  | keep => exact free (keepCommand ho start)
  | fileInto => exact free (fileIntoCommand ho start)
  | redirect => exact free (redirectCommand ho start)
  | discard => exact free (discardCommand ho start)
  | reject => exact free (rejectCommand ho start)
  | setVariable => exact free (setCommand ho start)
  | vacation => exact free (vacationCommand ho start)
  | setFlag => exact free (flagCommand ho .set start)
  | addFlag => exact free (flagCommand ho .add start)
  | removeFlag => exact free (flagCommand ho .remove start)
  | notify => exact free (notifyCommand ho start)

theorem commandWith (ho : o.locations = false) (ht : Reads o test T fun _ => Closes)
    (hne : ∀ {ts t}, T ts t → ts ≠ []) (hb : Reads o block B Free)
    (hch : Reads o chain C fun _ => NoLink) (hB : ∀ {ts b}, B ts b → ∃ us, ts = braced us) :
    Reads o (commandWith test block chain) (CommandForm T B C) fun _ => NoLink := by
  refine (wordThen (H := NamedCommandForm T B C) fun name l => ?_).congr
    fun ts c => commandForm_iff.symm
  unfold NamedCommandForm
  cases CommandKeyword.ofWord? name with
  | some k => exact keywordCommand ho ht hb hch hB l k
  | none => exact genericCommand ho ht hne hb hB name l.location.start

section Blocks

variable {command : Parse Command} {G : List Token → Command → Prop}

def CommandOr (ending : List Token) (G : List Token → Command → Prop) (ts : List Token) :
    Option Command → Prop
  | none => ts = ending
  | some c => G ts c

theorem repeated_command {ending ts : List Token} {cs : List Command} :
    Repeated (fun _ => false) (CommandOr ending G) ts cs
      ↔ ∃ us, ts = us ++ ending ∧ Sequence G us cs := by
  constructor
  · intro h
    induction h with
    | stop h => exact ⟨[], h, .nil⟩
    | last _ h => cases h
    | more hg _ _ ih =>
      obtain ⟨us, rfl, hs⟩ := ih
      exact ⟨_, (List.append_assoc _ _ _).symm, .cons hg hs⟩
  · rintro ⟨us, rfl, hs⟩
    induction hs with
    | nil => exact .stop rfl
    | cons hg _ ih =>
      rw [List.append_assoc]
      exact .more hg rfl ih

theorem noLink_next (hG : ∀ {ts c}, G ts c → ∃ name us, ts = .word name :: us ∧ NoLink (.word name))
    {ending ts : List Token} {cs : List Command} {t : Token}
    (h : Repeated (fun _ => false) (CommandOr ending G) ts cs) (ht : NoLink (ending.headD t)) :
    NoLink (ts.headD t) := by
  cases h with
  | stop h =>
    cases h
    exact ht
  | last _ h => cases h
  | more hg _ _ =>
    obtain ⟨name, us, rfl, hn⟩ := hG hg
    exact hn

theorem commandOrClose (hc : Reads o command G fun _ => NoLink)
    (hG : ∀ {ts c}, G ts c → ∃ name us, ts = .word name :: us ∧ NoLink (.word name)) :
    Reads o (commandOrClose command) (CommandOr [.mark .closeBrace] G)
      (fun r t => r.isSome → NoLink t) := by
  have close : Reads o (pure none) (fun ts r => ts = [] ∧ r = (none : Option Command))
      (fun r t => r.isSome → NoLink t) := (result none).follow fun _ _ => trivial
  have go : Reads o (command >>= fun c => pure (some c)) (fun ts r => ∃ c, G ts c ∧ r = some c)
      (fun r t => r.isSome → NoLink t) := by
    refine (hc.map some).follow ?_
    rintro _ _ t ⟨c, -, rfl⟩ ht
    exact ht rfl
  refine (eatThen close go ?_).congr fun ts r => ⟨?_, ?_⟩
  · rintro _ _ _ ⟨c, hg, rfl⟩ -
    obtain ⟨name, us, rfl, -⟩ := hG hg
    simp
  · rintro (⟨_, rfl, rfl, rfl⟩ | ⟨c, hg, rfl⟩)
    · rfl
    · exact hg
  · intro h
    cases r with
    | none => exact .inl ⟨[], h, rfl, rfl⟩
    | some c => exact .inr ⟨c, h, rfl⟩

theorem blockWith (ho : o.locations = false) (hc : Reads o command G fun _ => NoLink)
    (hG : ∀ {ts c}, G ts c → ∃ name us, ts = .word name :: us ∧ NoLink (.word name)) :
    Reads o (expect .openBrace >>= fun l => blockWith command l.location.start) (BlockForm G)
      Free := by
  have commands : Reads o (many (Parse.commandOrClose command))
      (Repeated (fun _ => false) (CommandOr [.mark .closeBrace] G)) Free := by
    refine (commandOrClose hc hG).manyUntil ?_ ?_ ?_ ?_
    · intro ts c hg
      obtain ⟨name, us, rfl, -⟩ := hG hg
      simp
    · exact fun _ _ h => nomatch h
    · exact fun _ h => nomatch h
    · exact fun _ _ hr _ _ => noLink_next hG hr ⟨nofun, nofun⟩
  refine (expectThen fun l => commands.andThen fun cs => spanThen ho l.location.start
    (result (Block.mk cs none))).congr fun ts b => ⟨?_, ?_⟩
  · rintro ⟨_, rfl, us, _, cs, rfl, hr, rfl, rfl⟩
    obtain ⟨us, rfl, hs⟩ := repeated_command.1 hr
    rw [List.append_nil]
    exact .mk hs
  · rintro ⟨hs⟩
    exact ⟨_, rfl, _, [], _, by simp, repeated_command.2 ⟨_, rfl, hs⟩, rfl, rfl⟩

end Blocks

section Chains

variable {K : β → Token → Prop}

theorem eatWordThen {word : String} {p q : Parse β} {G₁ G₂ : List Token → β → Prop}
    (hp : Reads o p G₁ K) (hq : Reads o q G₂ K)
    (hw : ∀ {ts b t}, G₂ ts b → K b t → ts.headD t ≠ .word word) :
    Reads o (eatWord word >>= fun b => if b then p else q)
      (fun ts b => (∃ us, ts = .word word :: us ∧ G₁ us b) ∨ G₂ ts b) K := by
  have hrun : (eatWord word >>= fun b => if b then p else q)
      = note (.literal word) >>= fun _ => peek >>= fun l =>
        if l.token = .word word then advance >>= fun _ => p else q := by
    rw [eatWord]
    simp only [bind_assoc]
    refine congrArg _ (funext fun _ => congrArg _ (funext fun l => ?_))
    split <;> simp
  rw [hrun]
  refine noteThen (peekBy
    (H := fun tok ts b => if tok = .word word then ∃ us, ts = .word word :: us ∧ G₁ us b
      else G₂ ts b) (fun l => ?_) ?_ ?_)
  · obtain ⟨tok, place, text⟩ := l
    by_cases ht : tok = .word word
    · subst ht
      simpa using advanceThen (by simp) fun _ => hp
    · simpa [ht] using at_token hq _
  · intro tok ts b u _ h
    split at h
    · exact .inl h
    · exact .inr h
  · rintro ts b t (⟨us, rfl, h⟩ | h) hk
    · exact (if_pos rfl).mpr ⟨us, rfl, h⟩
    · exact (if_neg (hw h hk)).mpr h

theorem chainWith {elsif elseBlock : Lexeme → Parse Chain} {G₁ G₂ : List Token → Chain → Prop}
    (h₁ : ∀ l, Reads o (elsif l) G₁ fun _ => NoLink)
    (h₂ : ∀ l, Reads o (elseBlock l) G₂ fun _ => NoLink) :
    Reads o (chainWith elsif elseBlock)
      (fun ts c => (∃ us, ts = .word "elsif" :: us ∧ G₁ us c)
        ∨ (∃ us, ts = .word "else" :: us ∧ G₂ us c) ∨ ts = [] ∧ c = .done) fun _ => NoLink := by
  refine peekThen fun l => eatWordThen (h₁ l) (eatWordThen (h₂ l)
    ((result Chain.done).follow fun _ _ => trivial) ?_) ?_
  · rintro _ _ t ⟨rfl, -⟩ ht
    exact ht.2
  · rintro _ _ t (⟨us, rfl, -⟩ | ⟨rfl, -⟩) ht
    · simp
    · exact ht.1

end Chains

theorem chain_zero : Reads o (Parse.chain 0) (ChainPhrase 0) fun _ => NoLink := by
  have deep (l : Lexeme) : Reads o (tooDeep l : Parse Chain) (fun _ _ => False) fun _ => NoLink :=
    never (fun _ _ _ h => nomatch h) fun _ _ => id
  refine (chainWith deep deep).congr fun ts c => ⟨?_, fun h => .inr (.inr h)⟩
  rintro (⟨us, rfl, h⟩ | ⟨us, rfl, h⟩ | h)
  · exact h.elim
  · exact h.elim
  · exact h

theorem blockPhrase_braced {n : Nat} {ts : List Token} {b : Block} (h : BlockPhrase n ts b) :
    ∃ us, ts = braced us := by
  cases n with
  | zero => exact h.elim
  | succ n =>
    obtain ⟨-⟩ := h
    exact ⟨_, rfl⟩

theorem block_chain (ho : o.locations = false) (n : Nat) :
    Reads o (Parse.block n) (BlockPhrase n) Free
      ∧ Reads o (Parse.chain n) (ChainPhrase n) fun _ => NoLink := by
  induction n with
  | zero =>
    refine ⟨never (fun c b d h => ?_) (fun _ _ => id), chain_zero⟩
    obtain ⟨l, e, -, h⟩ := bind_ok.1 h
    cases h
  | succ n ih =>
    obtain ⟨hb, hch⟩ := ih
    constructor
    · exact blockWith ho (commandWith ho (test ho n) testPhrase_ne_nil hb hch blockPhrase_braced)
        commandForm_starts
    · refine (chainWith (fun l => linkThen ho (test ho n) hb hch blockPhrase_braced
        l.location.start Chain.elsif) (fun l => hb.andThen fun b => spanThen ho l.location.start
        ((result (Chain.otherwise b none)).follow fun _ _ => trivial))).congr fun ts c => ⟨?_, ?_⟩
      · rintro (⟨_, rfl, us, vs, ws, t, b, ch, rfl, ht, hb, hch, rfl⟩
          | ⟨_, rfl, us, _, b, rfl, hb, rfl, rfl⟩ | ⟨rfl, rfl⟩)
        · rw [← List.append_assoc]
          exact .elsif ht hb hch
        · rw [List.append_nil]
          exact .otherwise hb
        · exact .done
      · rintro (_ | ⟨ht, hb, hch⟩ | hb)
        · exact .inr (.inr ⟨rfl, rfl⟩)
        · exact .inl ⟨_, rfl, _, _, _, _, _, _, List.append_assoc _ _ _, ht, hb, hch, rfl⟩
        · exact .inr (.inl ⟨_, rfl, _, [], _, by simp, hb, rfl, rfl⟩)

theorem command (ho : o.locations = false) (n : Nat) :
    Reads o (Parse.command n) (CommandPhrase n) fun _ => NoLink :=
  commandWith ho (test ho n) testPhrase_ne_nil (block_chain ho n).1 (block_chain ho n).2
    blockPhrase_braced

end Reads

end MailSieve
