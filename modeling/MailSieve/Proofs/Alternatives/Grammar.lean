import MailSieve.Grammar.Script
import MailSieve.Proofs.Alternatives.Foretold

/-! Every alternative that a parser of the grammar notes it passes over, and no other token.
What is below a token stands less deep than the token is far away, so the limit plays no part. -/

namespace MailSieve

open Parse Expected

namespace Parse

variable {α : Type}

/-- What follows at a tag, and what at any other token. -/
def tagOr (tag : String → Lexeme → Parse α) (other : Parse α) (l : Lexeme) : Parse α :=
  match l.token with
  | .tag name => tag name l
  | _ => other

theorem tagOr_other {tag : String → Lexeme → Parse α} {other : Parse α} {l : Lexeme}
    (h : ∀ name, l.token ≠ .tag name) : tagOr tag other l = other := by
  rw [tagOr]
  split
  · next name hname => exact absurd hname (h name)
  · rfl

def namedTag (rules : List TagRule) (uses : TagUses) (name : String) (l : Lexeme) :
    Parse (Option TagUses) :=
  match rules.find? (·.name == name) with
  | none => throw (.unknownTag name l.location l.found (rules.map (·.name)))
  | some rule =>
    if rule.value = .operator && uses.taken rule then conflict name l else do
      let value ← tagValue rule.value
      if uses.taken rule then conflict name l else pure (some (uses ++ [⟨rule, value⟩]))

def namedTest (inner : Parse Test) (name : String) (start : Position) : Parse Test :=
  match TestKeyword.ofWord? name with
  | some keyword => keywordTest inner start keyword
  | none => genericTest inner name start

def namedCommand (inner : Parse Test) (block : Parse Block) (chain : Parse Chain) (name : String)
    (l : Lexeme) : Parse Command :=
  match CommandKeyword.ofWord? name with
  | some keyword => keywordCommand inner block chain l keyword
  | none => genericCommand inner block name l.location.start

def startsList : Token → Bool
  | .string _ _ => true
  | t => t = .mark .openBracket

end Parse

namespace HaltsAt

variable {o : ParseOptions}

theorem stringList_bracket : HaltsAt o (.mark .openBracket) Parse.stringList :=
  peekThen fun _ _ => eat.bind

theorem stringList_string {value : String} {multiline : Bool} :
    HaltsAt o (.string value multiline) Parse.stringList := by
  refine peekThen fun _ _ c m more hc hm => ?_
  have heat : Parse.eat .openBracket o c = .ok (false, c.note (.literal "[")) := by
    rw [Parse.eat, bind_run, isAt_run, hc]
    rfl
  rw [bind_run, heat]
  exact string.bind _ m more ((congrArg _ (c.current_note _)).trans hc) ((c.ahead_note _).trans hm)

theorem testWith {inner : Parse Test} (name : String) :
    HaltsAt o (.word name) (Parse.testWith inner) := by
  refine isAtElse nofun (noteThen (peekThen fun l hl => ?_))
  obtain ⟨token, location, text⟩ := l
  cases hl
  exact advance.bind

theorem test {room : Nat} (h : 0 < room) (name : String) :
    HaltsAt o (.word name) (Parse.test room) := by
  obtain ⟨room, rfl⟩ := Nat.exists_eq_succ_of_ne_zero (Nat.ne_of_gt h)
  exact testWith name

theorem block (room : Nat) : HaltsAt o (.mark .openBrace) (Parse.block room) := by
  cases room <;> exact expect.bind

end HaltsAt

namespace Expected

variable {t : Token}

theorem bracket_covers : (literal "[").Covers t ↔ t = .mark .openBracket :=
  mark_covers (m := .openBracket)

theorem paren_covers : (literal "(").Covers t ↔ t = .mark .openParen :=
  mark_covers (m := .openParen)

/-- Behind its last tag, a test or command has noted that one more could follow. -/
structure Tagged (es : List Expected) : Prop where
  rounded : Rounded es
  tag : tokenClass "tag" ∈ es

namespace Tagged

variable {es : List Expected} {a : String}

theorem allowed (h : Tagged es) (ha : a = ":over" ∨ a = ":under") (hc : (literal a).Covers t) :
    Allowed es t := ⟨_, h.tag, .inl (sizeTag_kind ha hc).symm⟩

theorem sizeTag (h : Tagged es) (ha : a = ":over" ∨ a = ":under") :
    Tagged (noteAll es [literal a]) where
  rounded := {
    means e he := by
      obtain he | he := mem_noteAll.1 he
      · exact h.rounded.means e he
      · rw [List.mem_singleton.1 he]
        exact sizeTag_means ha
    kind t ht := by
      refine mem_noteAll.2 (.inl ?_)
      obtain ht | ht := allowed_noteAll.1 ht
      · exact h.rounded.kind t ht
      · rw [sizeTag_kind ha (by simpa using ht)]
        exact h.tag }
  tag := mem_noteAll.2 (.inl h.tag)

end Tagged

end Expected

namespace Foretells

variable {ι α : Type} {o : ParseOptions} {n : Nat}
variable {R : α → List Expected → Prop} {M : α → Prop}

def listStart : List Expected := [.literal "[", .tokenClass "string"]

theorem allowed_listStart {t : Token} : Allowed listStart t ↔
    t = .mark .openBracket ∨ ∃ value multiline, t = .string value multiline := by
  simp [listStart, bracket_covers, string_covers]

theorem noteAll_listStart {es : List Expected} (h : Rounded es) : Rounded (noteAll es listStart) :=
  rounded_stable.noteAll h (by simpa [listStart] using ⟨plain_mark .openBracket, plain_string⟩)

section Values

variable (hl : o.locations = false)
include hl

theorem node {I : List Expected → Prop} {s : ι → Position} {f : Option Location → α} :
    Foretells o n I (fun _ => I) Never fun i => Parse.span (s i) >>= fun l => Pure.pure (f l) :=
  (span hl).andThen fun _ => pure

theorem string_takes {value : String} {multiline : Bool} :
    Takes o n (fun _ => Rounded) (.string value multiline) fun _ : ι => Parse.string :=
  .noting [.tokenClass "string"] (.peek (r := fun i => Parse.advance >>= fun _ =>
    Parse.located i.2.1.location >>= fun x => Pure.pure ⟨value, multiline, x⟩)
    (.advance rounded_stable.nil (Nat.le_succ n) ((located hl).andThen fun _ => pure))
    fun _ _ _ => rfl)

theorem string : Foretells o n Rounded (fun _ => Rounded) Always fun _ : ι => Parse.string := by
  refine lookThen [.tokenClass "string"] (by decide) (r := fun _ => Parse.fail)
    (fun es h => rounded_stable.noteAll h (by simpa using plain_string)) (fun _ l h => ?_) fail
    fun t ht => ?_
  · split
    · next h' => exact absurd (by simp [h']) h
    · rfl
  · obtain ⟨value, multiline, rfl⟩ := string_covers.1 (by simpa using ht)
    exact string_takes hl

theorem number_takes {value : UInt64} {quantifier : Option Quantifier} :
    Takes o n (fun _ => Rounded) (.number value quantifier) fun _ : ι => Parse.number :=
  .noting [.tokenClass "number"] (.peek (r := fun i => Parse.advance >>= fun _ =>
    Parse.located i.2.1.location >>= fun x => Pure.pure ⟨value, quantifier, x⟩)
    (.advance rounded_stable.nil (Nat.le_succ n) ((located hl).andThen fun _ => pure))
    fun _ _ _ => rfl)

theorem number : Foretells o n Rounded (fun _ => Rounded) Always fun _ : ι => Parse.number := by
  refine lookThen [.tokenClass "number"] (by decide) (r := fun _ => Parse.fail)
    (fun es h => rounded_stable.noteAll h (by simpa using plain_number)) (fun _ l h => ?_) fail
    fun t ht => ?_
  · split
    · next h' => exact absurd (by simp [h']) h
    · rfl
  · obtain ⟨value, quantifier, rfl⟩ := number_covers.1 (by simpa using ht)
    exact number_takes hl

theorem stringList : Foretells o n Rounded (fun _ => Rounded) Always
    fun _ : ι => Parse.stringList := by
  refine peekThen ((eat rounded_stable).bind fun b => ?_)
  cases b with
  | true =>
    refine .relax (M := Never) ?_ fun _ h => h.1 rfl
    exact (commaSeparated rounded_stable (string hl)).andThen fun _ =>
      expectThen (Nat.le_succ n) (node hl)
  | false => exact (string hl).moved fun _ => node hl

theorem stringList_takes {t : Token} (ht : Allowed listStart t) :
    Takes o n (fun _ => Rounded) t fun _ : ι => Parse.stringList := by
  refine .of_foretells (stringList hl) fun _ _ => ?_
  obtain rfl | ⟨value, multiline, rfl⟩ := allowed_listStart.1 ht
  · exact .stringList_bracket
  · exact .stringList_string

omit hl in
theorem stringList_missing {c : Cursor} (hc : ¬ Allowed listStart c.current.token) :
    Parse.stringList o c = .error (c.noteAll listStart).unexpected := by
  rw [allowed_listStart, not_or] at hc
  have heat : Parse.eat .openBracket o c = .ok (false, c.note (.literal "[")) := by
    rw [Parse.eat, bind_run, isAt_run, decide_eq_false hc.1]
    rfl
  have hstring : Parse.string o (c.note (.literal "["))
      = .error (c.noteAll listStart).unexpected := by
    rw [show Parse.string o _ = _ from look_run [.tokenClass "string"] _]
    rw [c.current_note]
    cases h : c.current.token with
    | string value multiline => exact absurd ⟨value, multiline, h⟩ hc.2
    | _ => rfl
  rw [Parse.stringList, bind_run]
  change Except.bind (Parse.eat .openBracket o c) _ = _
  rw [heat]
  change Except.bind (Parse.string o (c.note (.literal "["))) _ = _
  rw [hstring]
  rfl

theorem chosen {f : String → Location → Fault} {ofWord? : String → Option α}
    (hf : ∀ v l location found es, f v l ≠ .unexpected location found es) :
    Foretells o n Rounded (fun _ => Rounded) Never fun _ : ι => Parse.chosen ofWord? f := by
  refine peekThen ((string hl).andThen fun s => ?_)
  cases ofWord? s.value with
  | none => exact refuse fun _ => hf _ _
  | some a => exact pure

theorem tagValue (kind : TagValueKind) :
    Foretells o n Rounded (fun _ => Rounded) Never fun _ : ι => Parse.tagValue kind := by
  cases kind with
  | none => exact pure
  | string => exact (string hl).andThen fun _ => pure
  | strings => exact (stringList hl).andThen fun _ => pure
  | number => exact (number hl).andThen fun _ => pure
  | operator => exact (chosen hl (f := .badOperator) fun _ _ _ _ _ => nofun).andThen fun _ => pure
  | importance =>
    exact (chosen hl (f := .badImportance) fun _ _ _ _ _ => nofun).andThen fun _ => pure

theorem namedTag (rules : List TagRule) (uses : TagUses) (name : String) {l : ι → Lexeme} :
    Foretells o n Rounded (Repeats Rounded Tagged) Never
      fun i => Parse.namedTag rules uses name (l i) := by
  simp only [Parse.namedTag]
  cases rules.find? (·.name == name) with
  | none => exact refuse fun _ _ _ _ => nofun
  | some rule =>
    refine .ite (refuse fun _ _ _ _ => nofun) ((tagValue hl rule.value).andThen fun value => ?_)
    exact .ite (refuse fun _ _ _ _ => nofun) (result (fun _ h => h) not_false)

theorem tagStep (rules : List TagRule) (uses : TagUses) :
    Foretells o n Rounded (Repeats Rounded Tagged) (·.isSome = true)
      fun _ : ι => Parse.tagStep rules uses := by
  have hstep : Parse.tagStep rules uses = noting [.tokenClass "tag"] (Parse.peek >>=
      tagOr (fun name l => Parse.advance >>= fun _ => Parse.namedTag rules uses name l)
        (Pure.pure none)) := by
    rw [Parse.tagStep, Parse.nextTag]
    simp only [bind_assoc]
    refine congrArg (Parse.note _ >>= ·) (funext fun _ => congrArg (Parse.peek >>= ·) ?_)
    funext l
    rw [tagOr]
    cases l.token with
    | tag name =>
      simp only [bind_assoc, pure_bind]
      rfl
    | _ => rfl
  rw [hstep]
  refine lookThen [.tokenClass "tag"] (by decide) (r := fun _ => Pure.pure none) (J := Tagged)
    (fun es h => ?_) (fun _ l h => ?_) (result (fun _ h => h) Bool.false_ne_true) fun t ht => ?_
  · exact ⟨rounded_stable.noteAll h (by simpa using plain_tag), mem_noteAll.2 (.inr (by simp))⟩
  · exact tagOr_other fun name hname => h (by simp [hname])
  · obtain ⟨name, rfl⟩ := tag_covers.1 (by simpa using ht)
    refine .noting [.tokenClass "tag"] (.peek (r := fun i => Parse.advance >>= fun _ =>
      Parse.namedTag rules uses name i.2) ?_ fun _ _ _ => rfl)
    exact .advance rounded_stable.nil (Nat.le_succ n) (namedTag hl rules uses name)

theorem tags_tagged (rules : List TagRule) :
    Foretells o n Rounded (fun _ => Tagged) Never fun _ : ι => Parse.tags rules :=
  iterate (tagStep hl rules) []

theorem tags (rules : List TagRule) :
    Foretells o n Rounded (fun _ => Rounded) Never fun _ : ι => Parse.tags rules :=
  (tags_tagged hl rules).leave fun _ _ => Tagged.rounded

omit hl in
theorem isAtStringListThen {q : ι → Bool → Parse α}
    (hno : Foretells o n Rounded R M fun i => q i false)
    (hyes : ∀ t, Allowed listStart t → Takes o n R t fun i => q i true) :
    Foretells o n Rounded R M fun i => Parse.isAtStringList >>= q i := by
  have hlook (t : Token) : startsList t = true ↔ Allowed listStart t := by
    rw [allowed_listStart]
    cases t <;> simp [startsList]
  have hrun : Parse.isAtStringList = noting listStart (Parse.peek >>= fun l =>
      Pure.pure (startsList l.token)) := by
    refine congrArg (noting listStart) (congrArg (Parse.peek >>= ·) (funext fun l => ?_))
    cases l.token <;> rfl
  have hthen (i : ι) : Parse.isAtStringList >>= q i = noting listStart (Parse.peek >>= fun l =>
      q i (startsList l.token)) := by
    rw [hrun]
    rfl
  simp only [hthen]
  refine lookThen listStart (by decide) (r := fun i => q i false) (fun es => noteAll_listStart)
    (fun i l h => ?_) hno fun t ht => ?_
  · rw [Bool.eq_false_iff.2 fun h' => h ((hlook _).1 h')]
  · refine .noting listStart (.peek ((hyes t ht).reindex Prod.fst) fun i location text => ?_)
    rw [(hlook t).2 ht]

end Values

section Tests

variable {inner : Parse Test}
variable (hl : o.locations = false)
variable (ht : ∀ {κ : Type}, Foretells o n Rounded (fun _ => Rounded) Always fun _ : κ => inner)

include ht in
theorem testList : Foretells o n Rounded (fun _ => Rounded) Always
    fun _ : ι => Parse.testList inner :=
  expectThen (Nat.le_succ n) ((commaSeparated rounded_stable ht).andThen fun _ =>
    expectThen (Nat.le_succ n) pure)

/-- The two tags of which a test of sizes needs one are no alternatives of their own. -/
theorem sizeMissing : Foretells o n Tagged R M fun _ : ι =>
    Parse.note (.literal ":over") >>= fun _ => Parse.note (.literal ":under") >>= fun _ =>
      (Parse.fail : Parse α) := by
  refine noteKnown (by decide) (fun es h => h.sizeTag (.inl rfl))
    (fun es t h => h.allowed (.inl rfl)) ?_
  refine noteKnown (by decide) (fun es h => h.sizeTag (.inr rfl))
    (fun es t h => h.allowed (.inr rfl)) ?_
  exact fail.enter fun _ => Tagged.rounded

def argumentStart : List Expected :=
  [.tokenClass "tag", .tokenClass "number", .tokenClass "string", .tokenClass "identifier",
    .literal "[", .literal "("]

theorem allowed_argumentStart {t : Token} : Allowed argumentStart t ↔
    (∃ name, t = .tag name) ∨ (∃ value quantifier, t = .number value quantifier)
      ∨ (∃ value multiline, t = .string value multiline) ∨ (∃ name, t = .word name)
      ∨ t = .mark .openBracket ∨ t = .mark .openParen := by
  simp [argumentStart, tag_covers, number_covers, string_covers, word_covers, bracket_covers,
    paren_covers]

include hl ht in
theorem argument_takes (hw : 0 < n → ∀ name, HaltsAt o (.word name) inner) {t : Token}
    (h : Allowed argumentStart t) :
    Takes o n (fun _ => Rounded) t fun _ : ι => Parse.argument inner := by
  have hparen {κ : Type} : Takes o n (fun _ => Rounded) (.mark .openParen)
      fun _ : κ => Parse.testList inner :=
    .of_foretells (testList ht) fun _ _ => HaltsAt.expect.bind
  have hword {κ : Type} (name : String) : Takes o n (fun _ => Rounded) (.word name)
      fun _ : κ => inner := .of_foretells ht fun hn _ => hw hn name
  obtain ⟨name, rfl⟩ | ⟨value, quantifier, rfl⟩ | ⟨value, multiline, rfl⟩ | ⟨name, rfl⟩ | rfl
    | rfl := allowed_argumentStart.1 h
  all_goals refine .noting argumentStart ?_
  · exact .peek (r := fun i => Parse.advance >>= fun _ => Parse.located i.2.1.location >>= fun x =>
      Pure.pure (Option.some (Argument.tag name x))) (.advance rounded_stable.nil (Nat.le_succ n)
        ((located hl).andThen fun _ => pure)) fun _ _ _ => rfl
  · exact .peek ((number_takes hl).bind fun x => pure (a := Option.some (Argument.number x)))
      fun _ _ _ => rfl
  · exact .peek ((string_takes hl).bind fun x => pure (a := Option.some (Argument.string x)))
      fun _ _ _ => rfl
  · exact .peek ((hword name).bind fun t => node hl (s := fun i => i.2.1.location.start)
      (f := fun x => Option.some (Argument.tests [t] x))) fun _ _ _ => rfl
  · exact .peek ((stringList_takes hl (allowed_listStart.2 (.inl rfl))).bind fun x =>
      pure (a := Option.some (Argument.strings x))) fun _ _ _ => rfl
  · exact .peek (hparen.bind fun ts => node hl (s := fun i => i.2.1.location.start)
      (f := fun x => Option.some (Argument.tests ts x))) fun _ _ _ => rfl

include hl ht in
theorem argument (hw : 0 < n → ∀ name, HaltsAt o (.word name) inner) :
    Foretells o n Rounded (fun _ => Rounded) (·.isSome = true)
      fun _ : ι => Parse.argument inner := by
  refine lookThen argumentStart (by decide) (r := fun _ => Pure.pure none)
    (fun es h => rounded_stable.noteAll h ?_) (fun i l h => ?_)
    (result (fun _ h => h) Bool.false_ne_true) fun t => argument_takes hl ht hw
  · simpa [argumentStart] using ⟨plain_tag, plain_number, plain_string, plain_word,
      plain_mark .openBracket, plain_mark .openParen⟩
  · rw [allowed_argumentStart] at h
    obtain ⟨token, location, text⟩ := l
    cases token with
    | mark m =>
      cases m with
      | openBracket | openParen => simp at h
      | _ => rfl
    | endOfInput => rfl
    | _ => simp at h

include hl ht in
theorem arguments (hw : 0 < n → ∀ name, HaltsAt o (.word name) inner) :
    Foretells o n Rounded (fun _ => Rounded) Never fun _ : ι => Parse.arguments inner :=
  manyUntil (argument hl ht hw)

include hl ht in
theorem keywordTest (start : ι → Position) (k : TestKeyword) :
    Foretells o n Rounded (fun _ => Rounded) Never
      fun i => Parse.keywordTest inner (start i) k := by
  cases k with
  | always | never => exact node hl
  | negation => exact ht.andThen fun _ => node hl
  | allOf | anyOf => exact (testList ht).andThen fun _ => node hl
  | address | envelope | header | string =>
    exact (tags hl _).andThen fun _ => (stringList hl).andThen fun _ =>
      (stringList hl).andThen fun _ => node hl
  | headerExists | ihave => exact (stringList hl).andThen fun _ => node hl
  | size =>
    refine (tags_tagged hl _).andThen fun _ => .ite sizeMissing ?_
    exact ((number hl).andThen fun _ => node hl).enter fun _ => Tagged.rounded
  | body => exact (tags hl _).andThen fun _ => (stringList hl).andThen fun _ => node hl
  | date =>
    exact (tags hl _).andThen fun _ => (string hl).andThen fun _ => (string hl).andThen fun _ =>
      (stringList hl).andThen fun _ => node hl
  | currentDate =>
    exact (tags hl _).andThen fun _ => (string hl).andThen fun _ =>
      (stringList hl).andThen fun _ => node hl
  | hasFlag =>
    exact (tags hl _).andThen fun _ => (stringList hl).andThen fun _ =>
      isAtStringListThen (node hl) fun t ht => (stringList_takes hl ht).bind fun _ => node hl
  | duplicate => exact (tags hl _).andThen fun _ => node hl

include hl ht in
theorem testWith (hw : 0 < n → ∀ name, HaltsAt o (.word name) inner) :
    Foretells o (n + 1) Rounded (fun _ => Rounded) Always
      fun _ : ι => Parse.testWith inner := by
  refine isAtThen rounded_stable ?_ ?_
  · refine lookThen [.tokenClass "identifier"] (by decide) (r := fun _ => Parse.fail)
      (fun es h => rounded_stable.noteAll h (by simpa using plain_word)) (fun _ l h => ?_) fail
      fun t ht' => ?_
    · split
      · next h' => exact absurd (by simp [h']) h
      · rfl
    · obtain ⟨name, rfl⟩ := word_covers.1 (by simpa using ht')
      refine .noting [.tokenClass "identifier"] (.peek (r := fun i => Parse.advance >>= fun _ =>
        Parse.namedTest inner name i.2.1.location.start) ?_ fun _ _ _ => rfl)
      refine .advance rounded_stable.nil (Nat.le_refl _) ?_
      simp only [Parse.namedTest]
      cases TestKeyword.ofWord? name with
      | some k => exact keywordTest hl ht _ k
      | none => exact (arguments hl ht hw).andThen fun _ => node hl
  · exact .advance rounded_stable.nil (Nat.le_refl _) (ht.andThen fun _ =>
      expectThen (Nat.le_succ n) pure)

include hl in
omit ht in
theorem test (room : Nat) : Foretells o room Rounded (fun _ => Rounded) Always
    fun _ : ι => Parse.test room := by
  induction room generalizing ι with
  | zero => exact zero
  | succ room ih => exact testWith hl ih fun h => HaltsAt.test h

end Tests

section Commands

variable {inner : Parse Test} {block : Parse Block} {chain : Parse Chain}
variable (hl : o.locations = false)
variable (ht : ∀ {κ : Type}, Foretells o n Rounded (fun _ => Rounded) Always fun _ : κ => inner)
variable (hw : 0 < n → ∀ name, HaltsAt o (.word name) inner)
variable (hb : ∀ {κ : Type}, Foretells o n Rounded (fun _ => Loose) Always fun _ : κ => block)
variable (hbrace : HaltsAt o (.mark .openBrace) block)
variable (hc : ∀ {κ : Type}, Foretells o n Loose (fun _ => Loose) Never fun _ : κ => chain)

omit hl in
theorem flagArguments_run (c : Cursor) : Parse.flagArguments o c = (match c.current.token with
    | .string _ _ => Parse.string >>= fun first => Parse.isAtStringList >>= fun b =>
      if b then Parse.stringList >>= fun flags => Pure.pure (Option.some first, flags)
      else Pure.pure (none, ⟨[first], first.location⟩)
    | _ => Parse.stringList >>= fun flags => Pure.pure (none, flags) :
      Parse (Option StringLit × StringList)) o (c.note (.literal "[")) := by
  rw [← c.current_note (.literal "["), Parse.flagArguments, bind_run]
  change (Parse.isAtString >>= _) o (c.note (.literal "[")) = _
  rw [bind_run, Parse.isAtString, bind_run]
  change Except.bind ((match (c.note (.literal "[")).current.token with
    | .string _ _ => Pure.pure true
    | _ => Pure.pure false : Parse Bool) o (c.note (.literal "["))) _ = _
  cases (c.note (.literal "[")).current.token <;> rfl

include hl in
theorem flagArguments : Foretells o n Rounded (fun _ => Rounded) Never
    fun _ : ι => Parse.flagArguments := by
  refine choose listStart (by decide) (r := fun _ => Parse.fail) (fun _ c hc => ?_)
    (fun es => noteAll_listStart) fail fun t ht => ?_
  · have hmissing : Parse.stringList o (c.note (.literal "["))
        = .error (c.noteAll listStart).unexpected :=
      (stringList_missing (by rwa [c.current_note])).trans (congrArg
        (fun d : Cursor => Except.error (d.note (.tokenClass "string")).unexpected)
        (c.note_note (.literal "[")))
    rw [flagArguments_run]
    cases h : c.current.token with
    | string value multiline =>
      exact absurd (allowed_listStart.2 (.inr ⟨value, multiline, h⟩)) hc
    | _ =>
      change (Parse.stringList >>= _) o (c.note (.literal "[")) = _
      rw [bind_run, hmissing]
      rfl
  · obtain rfl | ⟨value, multiline, rfl⟩ := allowed_listStart.1 ht
    · refine .of_run [.literal "["] ((stringList_takes hl ht).bind fun flags =>
        pure (a := (none, flags))) fun _ c hc => ?_
      rw [flagArguments_run, hc]
      rfl
    · refine .of_run [.literal "["] ((string_takes hl).bind fun first =>
        isAtStringListThen (q := fun _ b => if b then Parse.stringList >>= fun flags =>
          Pure.pure (Option.some first, flags) else Pure.pure (none, ⟨[first], first.location⟩))
          pure fun t ht => (stringList_takes hl ht).bind fun _ => pure) fun _ c hc => ?_
      rw [flagArguments_run, hc]
      rfl

include hl in
theorem flagCommand {action : FlagAction} {start : ι → Position} :
    Foretells o n Rounded (fun _ => Rounded) Never
      fun i => Parse.flagCommand action (start i) :=
  (flagArguments hl).andThen fun _ => expectThen (Nat.le_succ n) (node hl)

/-- Behind a command more words may have been noted than its own alternatives. -/
theorem loosely {p : ι → Parse α} {I : List Expected → Prop}
    (h : Foretells o n I (fun _ => Rounded) M p) : Foretells o n I (fun _ => Loose) M p :=
  h.leave fun _ _ => Rounded.loose

include hl ht hw hb hbrace in
theorem genericCommand {name : String} {start : ι → Position} :
    Foretells o n Rounded (fun _ => Loose) Never
      fun i => Parse.genericCommand inner block name (start i) := by
  refine (arguments hl ht hw).andThen fun _ => isAtThen rounded_stable ?_ ?_
  · exact expectThen (Nat.le_succ n) (node hl).loosely
  · exact (Takes.of_foretells hb fun _ _ => hbrace).bind fun _ => node hl

include hl ht hb hc in
theorem keywordCommand (l : ι → Lexeme) (k : CommandKeyword) :
    Foretells o n Rounded (fun _ => Loose) Never
      fun i => Parse.keywordCommand inner block chain (l i) k := by
  cases k with
  | ifTest =>
    exact ht.andThen fun _ => hb.andThen fun _ => hc.andThen fun _ => node hl
  | elsif | elseBlock => exact refuse fun _ _ _ _ => nofun
  | require =>
    exact ((stringList hl).andThen fun _ => expectThen (Nat.le_succ n) (node hl)).loosely
  | stop | discard => exact (expectThen (Nat.le_succ n) (node hl)).loosely
  | keep => exact ((tags hl _).andThen fun _ => expectThen (Nat.le_succ n) (node hl)).loosely
  | fileInto | redirect | vacation | notify =>
    exact ((tags hl _).andThen fun _ => (string hl).andThen fun _ =>
      expectThen (Nat.le_succ n) (node hl)).loosely
  | reject => exact ((string hl).andThen fun _ => expectThen (Nat.le_succ n) (node hl)).loosely
  | setVariable =>
    exact ((tags hl _).andThen fun _ => (string hl).andThen fun _ => (string hl).andThen fun _ =>
      expectThen (Nat.le_succ n) (node hl)).loosely
  | setFlag | addFlag | removeFlag => exact (flagCommand hl).loosely

include hl ht hw hb hbrace hc in
theorem commandWith : Foretells o n Loose (fun _ => Loose) Always
    fun _ : ι => Parse.commandWith inner block chain := by
  refine lookThen [.tokenClass "identifier"] (by decide) (r := fun _ => Parse.fail) (J := Rounded)
    (fun es h => (h.noteAll (rounded_of_plain (by simpa using plain_word)).loose).rounded
      (mem_noteAll.2 (.inr (by simp)))) (fun _ l h => ?_) fail fun t ht' => ?_
  · split
    · next h' => exact absurd (by simp [h']) h
    · rfl
  · obtain ⟨name, rfl⟩ := word_covers.1 (by simpa using ht')
    refine .noting [.tokenClass "identifier"] (.peek (r := fun i => Parse.advance >>= fun _ =>
      Parse.namedCommand inner block chain name i.2.1) ?_ fun _ _ _ => rfl)
    refine .advance rounded_stable.nil (Nat.le_succ n) ?_
    simp only [Parse.namedCommand]
    cases CommandKeyword.ofWord? name with
    | some k => exact keywordCommand hl ht hb hc _ k
    | none => exact genericCommand hl ht hw hb hbrace

include hl in
theorem blockWith {command : Parse Command} {start : ι → Position}
    (hcommand : ∀ {κ : Type}, Foretells o n Loose (fun _ => Loose) Always fun _ : κ => command) :
    Foretells o n Loose (fun _ => Loose) Never fun i => Parse.blockWith command (start i) := by
  have hitem {κ : Type} : Foretells o n Loose (fun _ => Loose) (·.isSome = true)
      fun _ : κ => Parse.commandOrClose command :=
    (eat loose_stable).andThen fun _ => .ite (result (fun _ h => h) Bool.false_ne_true)
      (hcommand.some fun _ _ h => h)
  exact (manyUntil hitem).andThen fun _ => node hl

theorem chainWith {elsif elseBlock : Lexeme → Parse Chain}
    (hi : ∀ {κ : Type} (l : κ → Lexeme), Foretells o n Rounded (fun _ => Loose) Never
      fun i => elsif (l i))
    (he : ∀ {κ : Type} (l : κ → Lexeme), Foretells o n Rounded (fun _ => Loose) Never
      fun i => elseBlock (l i)) :
    Foretells o (n + 1) Loose (fun _ => Loose) Never
      fun _ : ι => Parse.chainWith elsif elseBlock :=
  peekThen (eatWordThen (Nat.le_refl _) (.inl rfl)
    (eatWordThen (Nat.le_refl _) (.inr rfl) pure (he _)) (hi _))

include hl in
theorem block_chain (room : Nat) :
    (∀ {κ : Type}, Foretells o room Rounded (fun _ => Loose) Always
      fun _ : κ => Parse.block room)
    ∧ ∀ {κ : Type}, Foretells o room Loose (fun _ => Loose) Never
      fun _ : κ => Parse.chain room := by
  induction room with
  | zero => exact ⟨zero, zero⟩
  | succ room ih =>
    obtain ⟨hb, hc⟩ := ih
    have ht {κ : Type} := test (ι := κ) hl room
    have hcommand {κ : Type} := commandWith (ι := κ) hl ht (fun h => HaltsAt.test h) hb
      (.block room) hc
    refine ⟨expectThen (Nat.le_refl _) ?_, chainWith (fun l => ?_) fun l => ?_⟩
    · exact (blockWith hl hcommand).enter fun _ => Rounded.loose
    · exact ht.andThen fun _ => hb.andThen fun _ => hc.andThen fun _ => node hl
    · exact hb.andThen fun _ => node hl

include hl in
theorem command (room : Nat) : Foretells o room Loose (fun _ => Loose) Always
    fun _ : ι => Parse.command room :=
  commandWith hl (test hl room) (fun h => HaltsAt.test h) (block_chain hl room).1 (.block room)
    (block_chain hl room).2

end Commands

end Foretells

end MailSieve
