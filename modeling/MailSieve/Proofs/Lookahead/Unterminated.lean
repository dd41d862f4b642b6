import MailSieve.Proofs.Alternatives.Exact
import MailSieve.Proofs.Lexing.Blanked
import MailSieve.Proofs.Located.Lays
import MailSieve.Proofs.Lookahead.Missing

/-! Commands without their semicolon.
What a command of fixed shape has between its keyword and its semicolon is read alike before any
token that may follow a command. So without the semicolon that very token is reported, and the
report comes through all blocks and chains around the command. -/

namespace MailSieve

open Parse Phrase

section Nodes

variable {n : Node} {x : Command} {t : Test} {b : Block} {ch : Chain}

namespace Node

def Inner : Node → Prop
  | command _ | block _ | link _ | script _ => False
  | _ => True

theorem inner_positional (p : Positional) : ∀ m ∈ p.nodes, m.Inner := by
  cases p <;> simp [Positional.nodes, Inner]

theorem inner_setting (s : Setting) : ∀ m ∈ s.nodes, m.Inner := by
  obtain ⟨name, value⟩ := s
  cases value <;> simp [Setting.nodes, TagValue.nodes, Inner]

theorem inner_clause (c : Clause) : ∀ m ∈ c.nodes, m.Inner := by
  intro m hm
  obtain hm | hm := List.mem_append.1 hm
  · obtain ⟨s, -, hs⟩ := List.mem_flatMap.1 hm
    exact inner_setting s m hs
  · obtain ⟨p, -, hp⟩ := List.mem_flatMap.1 hm
    exact inner_positional p m hp

theorem inner_argument (a : Argument) : ∀ m ∈ a.nodes, m.Inner := by
  cases a <;> simp [Argument.nodes, Inner]

theorem inner_test (t : Test) : ∀ m ∈ t.nodes, m.Inner := by
  cases t with
  | negation | allOf | anyOf | generic => simp [Test.nodes, Inner]
  | _ => exact inner_clause _

theorem inner_command (h : x.clause? ≠ none) : ∀ m ∈ x.nodes, m.Inner := by
  cases x with
  | ifTest | generic | genericBlock => exact absurd rfl h
  | _ => exact inner_clause _

theorem Inner.children (h : n.Inner) : ∀ m ∈ n.children, m.Inner := by
  cases n with
  | string | number => exact nofun
  | strings l => simp [Node.children, Inner]
  | argument a => exact inner_argument a
  | test t => exact inner_test t
  | command | block | link | script => exact h.elim

theorem Inner.not_finishes (h : n.Inner) : ¬ n.Finishes x := by
  rintro ⟨hholds, -⟩
  have hall (m : Node) (hm : n.Holds m) : m.Inner := by
    induction hm with
    | refl => exact h
    | tail _ hm ih => exact ih.children _ hm
  exact hall _ hholds

theorem finishes_iff : n.Finishes x ↔
    (n = .command x ∧ x.clause? ≠ none) ∨ ∃ m ∈ n.children, m.Finishes x := by
  rw [Finishes, Holds, Relation.ReflTransGen.cases_head_iff]
  constructor
  · rintro ⟨h | ⟨m, hm, h⟩, hx⟩
    · exact .inl ⟨h, hx⟩
    · exact .inr ⟨m, hm, h, hx⟩
  · rintro (⟨h, hx⟩ | ⟨m, hm, h, hx⟩)
    · exact ⟨.inl h, hx⟩
    · exact ⟨.inr ⟨m, hm, h⟩, hx⟩

theorem eq_of_finishes {y : Command} (hy : y.clause? ≠ none) (h : (command y).Finishes x) :
    x = y := by
  obtain ⟨h, -⟩ | ⟨m, hm, h⟩ := finishes_iff.1 h
  · exact (Node.command.inj h).symm
  · exact absurd h (inner_command hy m hm).not_finishes

theorem finishes_chain {m : Node} (hm : m ∈ ch.nodes) : m = link ch := by
  cases ch with
  | done => cases hm
  | elsif | otherwise => exact List.mem_singleton.1 hm

theorem not_finishes_branch (hn : ∀ y, n = command y → y.clause? = none)
    (hc : n.children = .test t :: .block b :: ch.nodes) (hb : ¬ (block b).Finishes x)
    (hch : ¬ (link ch).Finishes x) : ¬ n.Finishes x := by
  intro h
  obtain ⟨rfl, hx⟩ | ⟨m, hm, h⟩ := finishes_iff.1 h
  · exact hx (hn x rfl)
  · rw [hc] at hm
    obtain rfl | hm := List.mem_cons.1 hm
    · exact Inner.not_finishes (n := .test t) trivial h
    · obtain rfl | hm := List.mem_cons.1 hm
      · exact hb h
      · exact hch (finishes_chain hm ▸ h)

theorem not_finishes_generic {name : String} {as : List Argument} {l : Option Location} :
    ¬ (command (.generic name as l)).Finishes x := by
  intro h
  obtain ⟨h, hx⟩ | ⟨m, hm, h⟩ := finishes_iff.1 h
  · cases h
    exact hx rfl
  · obtain ⟨a, -, rfl⟩ := List.mem_map.1 hm
    exact Inner.not_finishes (n := .argument a) trivial h

theorem not_finishes_genericBlock {name : String} {as : List Argument} {l : Option Location}
    (hb : ¬ (block b).Finishes x) : ¬ (command (.genericBlock name as b l)).Finishes x := by
  intro h
  obtain ⟨h, hx⟩ | ⟨m, hm, h⟩ := finishes_iff.1 h
  · cases h
    exact hx rfl
  · obtain hm | hm := List.mem_append.1 hm
    · obtain ⟨a, -, rfl⟩ := List.mem_map.1 hm
      exact Inner.not_finishes (n := .argument a) trivial h
    · rw [List.mem_singleton.1 hm] at h
      exact hb h

theorem finishes_commands {cs : List Command} (hn : ∀ y, n ≠ command y)
    (hc : n.children = cs.map .command) : n.Finishes x ↔ ∃ y ∈ cs, (command y).Finishes x := by
  rw [finishes_iff, hc]
  constructor
  · rintro (⟨h, -⟩ | ⟨_, hm, h⟩)
    · exact absurd h (hn x)
    · obtain ⟨y, hy, rfl⟩ := List.mem_map.1 hm
      exact ⟨y, hy, h⟩
  · rintro ⟨y, hy, h⟩
    exact .inr ⟨_, List.mem_map_of_mem hy, h⟩

end Node

end Nodes

section Stems

variable {α : Type} {limit : Nat} {p : Parse α} {t : Token}

theorem Trailing.not_tag (h : Trailing t) : isTag t = false := by
  cases h <;> rfl

theorem Trailing.not_list (h : Trailing t) : Reads.startsList t = false := by
  cases h <;> rfl

theorem Trailing.ne_semicolon (h : Trailing t) : t ≠ .mark .semicolon := by
  cases h <;> exact nofun

/-- What stands between the keyword of a command and its semicolon, and can stand before anything
that follows a command. -/
structure Stem (limit : Nat) (p : Parse α) : Prop where
  tracks : ∃ M, Tracks ⟨true, limit⟩ M p
  erases : ∃ f : α → α, Erases f p p
  reads : ∃ G, Reads ⟨false, limit⟩ p G fun _ t => Trailing t

namespace Stem

theorem nothing : Stem limit (Pure.pure ()) where
  tracks := ⟨_, .pure⟩
  erases := ⟨id, .pure rfl⟩
  reads := ⟨_, (Reads.result ()).follow fun _ _ => trivial⟩

theorem string : Stem limit Parse.string where
  tracks := ⟨_, .string⟩
  erases := ⟨_, .string⟩
  reads := ⟨_, (Reads.string rfl).follow fun _ _ => trivial⟩

theorem stringList : Stem limit Parse.stringList where
  tracks := ⟨_, .stringList⟩
  erases := ⟨_, .stringList⟩
  reads := ⟨_, (Reads.stringList rfl).follow fun _ _ => trivial⟩

theorem flagArguments : Stem limit Parse.flagArguments where
  tracks := ⟨_, .flagArguments⟩
  erases := ⟨_, .flagArguments⟩
  reads := ⟨_, (Reads.flagArguments rfl).follow fun _ h => h.not_list⟩

theorem tags (rules : List TagRule) : Stem limit (Parse.tags rules) where
  tracks := ⟨_, .tags rules⟩
  erases := ⟨_, .tags rules⟩
  reads := ⟨_, (Reads.tags rfl rules).follow fun _ h => h.not_tag⟩

theorem tagged (rules : List TagRule) {M : α → Prop} {f : α → α} {G : List Token → α → Prop}
    (ht : Tracks ⟨true, limit⟩ M p) (he : Erases f p p)
    (hr : Reads ⟨false, limit⟩ p G fun _ t => Trailing t)
    (hG : ∀ {ts a t}, G ts a → isTag (ts.headD t) = false) :
    Stem limit (Parse.tags rules >>= fun uses => p >>= fun a => pure (uses, a)) where
  tracks := ⟨Never, (Tracks.tags rules).andThen fun _ => ht.andThen fun _ => .pure⟩
  erases := ⟨Prod.map TagUses.erase f,
    (Erases.tags rules).bind fun _ => he.bind fun _ => .pure rfl⟩
  reads := by
    refine ⟨_, (Reads.tags rfl rules).bind (fun uses => hr.map (uses, ·)) ?_⟩
    rintro _ _ _ _ _ - ⟨a, hg, -⟩ -
    exact hG hg

theorem tagsString (rules : List TagRule) :
    Stem limit (Parse.tags rules >>= fun uses => Parse.string >>= fun s => pure (uses, s)) := by
  refine tagged rules .string .string ((Reads.string rfl).follow fun _ _ => trivial) ?_
  rintro _ _ _ ⟨⟩
  rfl

theorem tagsStrings (rules : List TagRule) :
    Stem limit (Parse.tags rules >>= fun uses =>
      (Parse.string >>= fun s => Parse.string >>= fun v => pure (s, v)) >>= fun a =>
        pure (uses, a)) := by
  refine tagged rules (M := Never) (f := Prod.map StringLit.erase StringLit.erase)
    (Tracks.string.moved fun _ => Tracks.string.moved fun _ => .pure)
    (Erases.string.bind fun _ => Erases.string.bind fun _ => .pure rfl)
    ((Reads.string rfl).andThen fun s => ((Reads.string rfl).follow fun _ _ => trivial).map (s, ·))
    ?_
  rintro _ _ _ ⟨us, vs, s, rfl, ⟨⟩, -⟩
  rfl

theorem reread (h : Stem limit p) {c c' d : Cursor} {a : α} {ls : List Lexeme} {l : Lexeme}
    {more : List Lexeme} (hc : c.Ended) (hrun : p ⟨true, limit⟩ c = .ok (a, d))
    (hls : c.remaining = ls.map .ok ++ d.remaining)
    (hc' : c'.remaining = (ls ++ l :: more).map .ok) (hl : Trailing l.token) :
    ∃ b d', p ⟨true, limit⟩ c' = .ok (b, d') ∧ d'.remaining = (l :: more).map .ok := by
  obtain ⟨f, he⟩ := h.erases
  obtain ⟨G, hr⟩ := h.reads
  obtain ⟨M, ht⟩ := h.tracks
  have hbare : p ⟨false, limit⟩ c = .ok (f a, d) := by
    rw [he limit c, hrun]
    rfl
  obtain ⟨_, ⟨ms, hms, rfl⟩, hg⟩ := hr.sound hc hbare
  obtain rfl : ls = ms := lexemes_inj (List.append_cancel_right (hls.symm.trans hms))
  have hshows : c'.Shows (ls.map (·.token) ++ l.token :: more.map (·.token)) :=
    ⟨_, hc', by simp⟩
  obtain ⟨d', hd', ks, hks, hkl⟩ := hr.complete hg hl hshows
  rw [he limit c'] at hd'
  cases hp : p ⟨true, limit⟩ c' with
  | error g =>
    rw [hp] at hd'
    cases hd'
  | ok r =>
    obtain ⟨b, e⟩ := r
    rw [hp] at hd'
    simp only [Except.map, Except.ok.injEq, Prod.mk.injEq] at hd'
    obtain ⟨-, rfl⟩ := hd'
    obtain ⟨front, hfront⟩ := (ht.stays c').within hp
    refine ⟨b, e, rfl, ?_⟩
    rw [hc', List.map_append] at hfront
    have hlength : ((l :: more).map (.ok : Lexeme → Reading)).length = e.remaining.length := by
      have hk := congrArg List.length hkl
      rw [List.length_map, List.length_cons, List.length_map] at hk
      rw [hks, List.length_map, List.length_map, hk, List.length_cons]
    exact (List.append_inj_right' hfront hlength).symm

end Stem

end Stems

section Fixed

variable {α : Type} {limit : Nat} {p : Parse α} {o : ParseOptions} {c d : Cursor} {m : Punctuation}
  {l : Lexeme} {start : Position}

namespace Cursor

theorem Whole.ahead (h : c.Whole) : ∃ ls : List Lexeme, c.ahead = ls.map .ok := by
  obtain ⟨_ | ⟨l, ls⟩, hls⟩ := h.tokens
  · cases hls
  · exact ⟨ls, (List.cons.inj hls).2⟩

theorem next_ok (h : c.next = .ok d) (hc : c.ahead ≠ []) :
    c.ahead = d.remaining ∧ d.lastStop = c.current.location.stop := by
  rw [next] at h
  split at h
  · contradiction
  · cases h
  · next hahead =>
    cases h
    exact ⟨hahead, rfl⟩

theorem exists_next {ls : List Lexeme} (h : c.ahead = ls.map .ok) (hc : c.ahead ≠ []) :
    ∃ d, c.next = .ok d ∧ d.remaining = ls.map .ok := by
  cases ls with
  | nil => exact absurd h hc
  | cons l ls =>
    rw [List.map_cons] at h
    exact ⟨_, by rw [next, h], rfl⟩

theorem mem_noted_note (c : Cursor) (e : Expected) : e ∈ (c.note e).noted := by
  rw [note]
  split
  · assumption
  · exact List.mem_append_right _ List.mem_cons_self

end Cursor

namespace Parse

theorem expect_ok (h : expect m o c = .ok (l, d)) : c.current.token = .mark m
    ∧ (c.ahead ≠ [] → c.ahead = d.remaining ∧ d.lastStop = c.current.location.stop) := by
  obtain ⟨b, e, hb, he⟩ := bind_ok.1 h
  obtain ⟨hbt, rfl⟩ := isAt_ok.1 hb
  cases b with
  | false => cases he
  | true =>
    have hadvance : advance o (c.note (.literal (String.singleton m.char))) = .ok (l, d) := he
    obtain ⟨hnext, -⟩ := advance_ok.1 hadvance
    refine ⟨of_decide_eq_true hbt, fun hc => ?_⟩
    have hd := Cursor.next_ok hnext (by rwa [Cursor.ahead_note])
    rwa [Cursor.ahead_note, Cursor.current_note] at hd

theorem expect_error (h : c.current.token ≠ .mark m) : expect m o c
    = .error (c.current.missing (c.note (.literal (String.singleton m.char))).noted) := by
  have hat := (isAt_ok (o := o) (p := m)).2 ⟨decide_eq_false h, rfl⟩
  refine bind_error.2 (.inr ⟨false, _, hat, ?_⟩)
  have hcurrent := c.current_note (.literal (String.singleton m.char))
  change Except.error (Cursor.unexpected _) = _
  rw [Cursor.unexpected, hcurrent]
  rfl

end Parse

def closing (p : Parse α) (start : Position) (mk : α → Option Location → Command) :
    Parse Command := do
  let a ← p
  let _ ← expect .semicolon
  pure (mk a (← span start))

theorem closing_ok {M : α → Prop} {mk : α → Option Location → Command} {y : Command}
    (ht : Tracks ⟨true, limit⟩ M p) (hc : c.Whole)
    (h : closing p start mk ⟨true, limit⟩ c = .ok (y, d)) :
    ∃ a e, p ⟨true, limit⟩ c = .ok (a, e) ∧ Reaches c.remaining e.remaining
      ∧ e.current.token = .mark .semicolon ∧ e.ahead = d.remaining
      ∧ d.lastStop = e.current.location.stop ∧ y = mk a (some ⟨start, d.lastStop⟩) := by
  obtain ⟨a, e, hp, hend⟩ := bind_ok.1 h
  obtain ⟨_, g, hexpect, hend⟩ := bind_ok.1 hend
  obtain ⟨hsemicolon, hbehind⟩ := expect_ok hexpect
  have hreaches := (ht.stays c).within hp
  have hahead := (hc.of_reaches hreaches).ahead_ne_nil (by rw [hsemicolon]; exact nofun)
  cases hend
  obtain ⟨hremaining, hstop⟩ := hbehind hahead
  exact ⟨a, e, hp, hreaches, hsemicolon, hremaining, hstop, rfl⟩

theorem closing_error (start : Position) (mk : α → Option Location → Command) {a : α}
    (hp : p o c = .ok (a, d)) (h : d.current.token ≠ .mark .semicolon) : ∃ es, .literal ";" ∈ es
      ∧ closing p start mk o c = .error (d.current.missing es) := by
  refine ⟨_, d.mem_noted_note (.literal ";"), bind_error.2 (.inr ⟨a, d, hp, ?_⟩)⟩
  exact bind_error.2 (.inl (expect_error h))

/-- Behind the keyword, the semicolon is missed at the token that follows it. -/
theorem Stem.breaks (h : Stem limit p) {mk : α → Option Location → Command}
    (hfixed : ∀ a l, (mk a l).clause?.isSome) (hlocation : ∀ a l, (mk a l).location = l) :
    Breaks ⟨true, limit⟩ Trailing (fun y => (Node.command y).Finishes)
      (advance >>= fun _ => closing p start mk) where
  run {c y d x} hc hrun hd hx := by
    obtain ⟨M, ht⟩ := h.tracks
    obtain ⟨_, c₂, hadvance, hclosing⟩ := bind_ok.1 hrun
    have hmoved := (Tracks.advance.stays c).within hadvance
    have hc₂ := hc.of_reaches hmoved
    obtain ⟨a, e, hp, ⟨ls, hls⟩, hsemicolon, hed, hstop, rfl⟩ := closing_ok ht hc₂ hclosing
    obtain rfl := Node.eq_of_finishes (Option.isSome_iff_ne_none.1 (hfixed _ _)) hx
    have hpassed : Reaches e.remaining d.remaining := ⟨[e.current], by rw [← hed]; rfl⟩
    obtain ⟨more, hmore⟩ := ((hc₂.of_reaches ⟨ls, hls⟩).of_reaches hpassed).ahead
    have hahead : c.ahead ≠ [] := by
      intro hnil
      have hle := (hmoved.trans ⟨ls, hls⟩).length_le
      simp [Cursor.remaining, hnil, hed] at hle
    obtain ⟨hcahead, -⟩ := Cursor.next_ok (advance_ok.1 hadvance).1 hahead
    -- The stem is read again from the same tokens without the semicolon.
    let c' : Cursor := { c with ahead := (ls ++ d.current :: more).map .ok }
    obtain ⟨d', hnext, hd'⟩ := c'.exists_next rfl (by simp [c'])
    obtain ⟨b, e', hp', he'⟩ := h.reread hc₂.ended hp hls hd' hd
    obtain ⟨hcurrent, -⟩ := List.cons.inj he'
    obtain hcurrent : e'.current = d.current := Except.ok.inj hcurrent
    obtain ⟨es, hes, herror⟩ := closing_error start mk hp' (hcurrent ▸ hd.ne_semicolon)
    refine ⟨c', _, ⟨e.current, d.current, d.ahead, es, ⟨ls, ?_, ?_⟩, hsemicolon,
      ⟨_, hlocation _ _, hstop⟩, hes, rfl⟩, ?_⟩
    · rw [hcahead, hls, Cursor.remaining, hed, Cursor.remaining]
    · simp only [c', hmore, List.map_append, List.map_cons]
    · rw [hcurrent] at herror
      exact bind_error.2 (.inr ⟨c'.current, d', advance_ok.2 ⟨hnext, rfl⟩, herror⟩)

end Fixed

section Grammar

variable {limit : Nat} {inner : Parse Test} {block : Parse Block} {chain : Parse Chain}
  {start : Position}

abbrev BreaksWithin {α : Type} (limit : Nat) (H : Token → Prop) (node : α → Node) (p : Parse α) :
    Prop := Breaks ⟨true, limit⟩ H (fun a => (node a).Finishes) p

namespace Breaks

theorem closes {α : Type} {p : Parse α} {q : Parse Command} (h : Stem limit p) (start : Position)
    (mk : α → Option Location → Command) (hq : q = closing p start mk)
    (hfixed : ∀ a l, (mk a l).clause?.isSome) (hlocation : ∀ a l, (mk a l).location = l) :
    BreaksWithin limit Trailing .command (advance >>= fun _ => q) :=
  hq ▸ h.breaks hfixed hlocation

theorem flagCommand (action : FlagAction) :
    BreaksWithin limit Trailing .command (advance >>= fun _ => Parse.flagCommand action start) :=
  closes .flagArguments start (fun r l => .flag ⟨action, r.1, r.2, l⟩) rfl (fun _ _ => rfl)
    fun _ _ => rfl

theorem keywordCommand (ht : Tracks ⟨true, limit⟩ Always inner)
    (hb : Tracks ⟨true, limit⟩ Always block) (hc : Tracks ⟨true, limit⟩ Never chain)
    (kb : BreaksWithin limit (fun _ => True) .block block)
    (kc : BreaksWithin limit (fun _ => True) .link chain) (l : Lexeme) (k : CommandKeyword) :
    BreaksWithin limit Trailing .command
      (advance >>= fun _ => Parse.keywordCommand inner block chain l k) := by
  cases k with
  | require =>
    exact closes .stringList l.location.start
      (fun r l => .require ⟨r.values.map (·.value), l⟩) rfl (fun _ _ => rfl) fun _ _ => rfl
  | ifTest =>
    refine after Tracks.advance fun _ => after ht fun t => bind hb kb fun b => bind hc kc fun ch =>
      after Tracks.span fun l => pure fun x hx => ?_
    exact Node.not_finishes_branch (by rintro _ ⟨⟩; rfl) rfl hx.1.2 hx.2 hx.1.1
  | elsif | elseBlock => exact after Tracks.advance fun _ => throw
  | stop =>
    exact closes .nothing l.location.start (fun _ l => .stop l) rfl (fun _ _ => rfl) fun _ _ => rfl
  | keep =>
    exact closes (.tags TagRules.keep) l.location.start
      (fun uses l => .keep ⟨uses.strings? "flags", l⟩) rfl (fun _ _ => rfl) fun _ _ => rfl
  | fileInto =>
    refine closes (.tagsString TagRules.fileInto) l.location.start (fun r l => .fileInto
      ⟨r.2, r.1.has "copy", r.1.has "create", r.1.strings? "flags", l⟩) ?_ (fun _ _ => rfl)
      fun _ _ => rfl
    simp only [Parse.keywordCommand, Parse.fileIntoCommand, closing, bind_assoc, pure_bind]
  | redirect =>
    refine closes (.tagsString TagRules.redirect) l.location.start
      (fun r l => .redirect ⟨r.2, r.1.has "copy", l⟩) ?_ (fun _ _ => rfl) fun _ _ => rfl
    simp only [Parse.keywordCommand, Parse.redirectCommand, closing, bind_assoc, pure_bind]
  | discard =>
    exact closes .nothing l.location.start (fun _ l => .discard l) rfl (fun _ _ => rfl)
      fun _ _ => rfl
  | reject =>
    exact closes .string l.location.start (fun reason l => .reject ⟨reason, l⟩) rfl
      (fun _ _ => rfl) fun _ _ => rfl
  | setVariable =>
    refine closes (.tagsStrings TagRules.set) l.location.start
      (fun r l => .setVariable ⟨r.1.modifiers, r.2.1, r.2.2, l⟩) ?_ (fun _ _ => rfl) fun _ _ => rfl
    simp only [Parse.keywordCommand, Parse.setCommand, closing, bind_assoc, pure_bind]
  | vacation =>
    refine closes (.tagsString TagRules.vacation) l.location.start (fun r l => .vacation
      ⟨r.2, r.1.number? "days", r.1.number? "seconds", r.1.string? "subject", r.1.string? "from",
        r.1.strings? "addresses", r.1.has "mime", r.1.string? "handle", l⟩) ?_ (fun _ _ => rfl)
      fun _ _ => rfl
    simp only [Parse.keywordCommand, Parse.vacationCommand, closing, bind_assoc, pure_bind]
  | setFlag | addFlag | removeFlag => exact flagCommand _
  | notify =>
    refine closes (.tagsString TagRules.notify) l.location.start (fun r l => .notify
      ⟨r.2, r.1.string? "from", r.1.importance? "importance", r.1.strings? "options",
        r.1.string? "message", l⟩) ?_ (fun _ _ => rfl) fun _ _ => rfl
    simp only [Parse.keywordCommand, Parse.notifyCommand, closing, bind_assoc, pure_bind]

theorem genericCommand (ht : Tracks ⟨true, limit⟩ Always inner)
    (hb : Tracks ⟨true, limit⟩ Always block)
    (kb : BreaksWithin limit (fun _ => True) .block block) (name : String) :
    BreaksWithin limit Trailing .command (Parse.genericCommand inner block name start) := by
  refine after (Tracks.arguments ht) fun as => after Tracks.isAt fun _ => .ite ?_ ?_
  · exact bind hb kb fun b => after Tracks.span fun l => pure fun x hx =>
      Node.not_finishes_genericBlock hx.2 hx.1
  · exact after Tracks.expect fun _ => after Tracks.span fun l => pure fun x hx =>
      Node.not_finishes_generic hx

theorem commandWith (ht : Tracks ⟨true, limit⟩ Always inner)
    (hb : Tracks ⟨true, limit⟩ Always block) (hc : Tracks ⟨true, limit⟩ Never chain)
    (kb : BreaksWithin limit (fun _ => True) .block block)
    (kc : BreaksWithin limit (fun _ => True) .link chain) :
    BreaksWithin limit Trailing .command (Parse.commandWith inner block chain) := by
  refine after Tracks.note fun _ => after Tracks.peek fun l => ?_
  obtain ⟨token, location, text⟩ := l
  cases token with
  | word name =>
    dsimp only
    cases CommandKeyword.ofWord? name with
    | some k => exact keywordCommand ht hb hc kb kc _ k
    | none => exact after Tracks.advance fun _ => genericCommand ht hb kb name
  | _ => exact fail

theorem word_of_command {o : ParseOptions} {c d : Cursor} {y : Command}
    (h : Parse.commandWith inner block chain o c = .ok (y, d)) :
    ∃ name, c.current.token = .word name := by
  obtain ⟨_, c', hnote, h⟩ := bind_ok.1 h
  cases hnote
  obtain ⟨l, c', hpeek, h⟩ := bind_ok.1 h
  cases hpeek
  rw [Cursor.current_note] at h
  cases ht : c.current.token with
  | word name => exact ⟨name, rfl⟩
  | _ =>
    rw [ht] at h
    cases h

/-- In a block or a script, an item is a command, or there is none since its end stands there. -/
theorem commands {item : Parse (Option Command)} {e : Token} (he : Trailing e)
    (ht : Tracks ⟨true, limit⟩ (·.isSome = true) item)
    (k : Breaks ⟨true, limit⟩ Trailing (fun r x => ∃ y ∈ r, (Node.command y).Finishes x) item)
    (hitem : ∀ {c r d}, item ⟨true, limit⟩ c = .ok (r, d) →
      (r = none ∧ c.current.token = e) ∨ ∃ name, c.current.token = .word name) :
    Breaks ⟨true, limit⟩ (fun _ => True) (fun ys x => ∃ y ∈ ys, (Node.command y).Finishes x)
      (Parse.many item) := by
  refine many ht k fun h => ?_
  obtain ⟨rfl, hend⟩ | ⟨name, hword⟩ := hitem h
  · exact ⟨hend ▸ he, nofun⟩
  · exact ⟨hword ▸ .word name, fun _ => by rw [hword]; exact nofun⟩

theorem start_of_commandOrClose {command : Parse Command} {o : ParseOptions} {c d : Cursor}
    {r : Option Command}
    (hword : ∀ {c y d}, command o c = .ok (y, d) → ∃ name, c.current.token = .word name)
    (h : Parse.commandOrClose command o c = .ok (r, d)) :
    (r = none ∧ c.current.token = .mark .closeBrace) ∨ ∃ name, c.current.token = .word name := by
  obtain ⟨b, e, heat, h⟩ := bind_ok.1 h
  obtain ⟨b', e', hat, heat⟩ := bind_ok.1 heat
  obtain ⟨hb', rfl⟩ := isAt_ok.1 hat
  cases b' with
  | true =>
    obtain ⟨_, _, -, hpure⟩ := bind_ok.1 heat
    obtain ⟨rfl, rfl⟩ := pure_ok.1 hpure
    exact .inl ⟨(pure_ok.1 h).1.symm, of_decide_eq_true hb'⟩
  | false =>
    obtain ⟨rfl, rfl⟩ := pure_ok.1 heat
    obtain ⟨y, _, hy, -⟩ := bind_ok.1 h
    exact .inr (Cursor.current_note _ _ ▸ hword hy)

theorem start_of_commandOrEnd {command : Parse Command} {o : ParseOptions} {c d : Cursor}
    {r : Option Command}
    (hword : ∀ {c y d}, command o c = .ok (y, d) → ∃ name, c.current.token = .word name)
    (h : Parse.commandOrEnd command o c = .ok (r, d)) :
    (r = none ∧ c.current.token = .endOfInput) ∨ ∃ name, c.current.token = .word name := by
  obtain ⟨_, e, hnote, h⟩ := bind_ok.1 h
  cases hnote
  obtain ⟨l, e, hpeek, h⟩ := bind_ok.1 h
  cases hpeek
  rw [Cursor.current_note] at h
  split at h
  · next hend => exact .inl ⟨(pure_ok.1 h).1.symm, hend⟩
  · obtain ⟨y, _, hy, -⟩ := bind_ok.1 h
    exact .inr (Cursor.current_note _ _ ▸ hword hy)

theorem blockWith {command : Parse Command} (ht : Tracks ⟨true, limit⟩ Always command)
    (k : BreaksWithin limit Trailing .command command)
    (hword : ∀ {c y d}, command ⟨true, limit⟩ c = .ok (y, d) →
      ∃ name, c.current.token = .word name) :
    BreaksWithin limit (fun _ => True) .block (Parse.blockWith command start) := by
  have hitem : Tracks ⟨true, limit⟩ (·.isSome = true) (Parse.commandOrClose command) :=
    Tracks.eat.andThen fun _ => .ite .none ht.some
  have hbreaks : Breaks ⟨true, limit⟩ Trailing (fun r x => ∃ y ∈ r, (Node.command y).Finishes x)
      (Parse.commandOrClose command) :=
    after Tracks.eat fun _ => .ite (pure (by simp)) (map k (by simp))
  exact bind (Tracks.manyUntil hitem)
    (commands .close hitem hbreaks (start_of_commandOrClose hword)) fun cs =>
      after Tracks.span fun l => pure fun x hx =>
        hx.2 ((Node.finishes_commands (n := .block (.mk cs l)) nofun rfl).1 hx.1)

theorem chainWith {elsif elseBlock : Lexeme → Parse Chain}
    (ki : ∀ l, BreaksWithin limit (fun _ => True) .link (elsif l))
    (ke : ∀ l, BreaksWithin limit (fun _ => True) .link (elseBlock l)) :
    BreaksWithin limit (fun _ => True) .link (Parse.chainWith elsif elseBlock) := by
  refine after Tracks.peek fun l => after Tracks.eatWord fun _ => .ite (ki l)
    (after Tracks.eatWord fun _ => .ite (ke l) (pure fun x hx => ?_))
  obtain ⟨h, -⟩ | ⟨m, hm, -⟩ := Node.finishes_iff.1 hx
  · cases h
  · cases hm

theorem tooDeep {α : Type} {H : Token → Prop} {F : α → Command → Prop} {l : Lexeme} :
    Breaks ⟨true, limit⟩ H F (Parse.tooDeep l) where
  run _ h := nomatch h

theorem block_chain (room : Nat) :
    BreaksWithin limit (fun _ => True) .block (Parse.block room)
      ∧ BreaksWithin limit (fun _ => True) .link (Parse.chain room) := by
  induction room with
  | zero =>
    exact ⟨after Tracks.expect fun _ => tooDeep, chainWith (fun _ => tooDeep) fun _ => tooDeep⟩
  | succ room ih =>
    obtain ⟨kb, kc⟩ := ih
    obtain ⟨hb, hc⟩ := Tracks.block_chain (o := ⟨true, limit⟩) room
    have ht := Tracks.test (o := ⟨true, limit⟩) room
    refine ⟨after Tracks.expect fun _ => blockWith (Tracks.command room)
      (commandWith ht hb hc kb kc) word_of_command, chainWith (fun l => ?_) fun l => ?_⟩
    · refine after ht fun t => bind hb kb fun b => bind hc kc fun ch =>
        after Tracks.span fun l => pure fun x hx => ?_
      exact Node.not_finishes_branch (n := .link (.elsif t b ch l)) nofun rfl hx.1.2 hx.2 hx.1.1
    · refine bind hb kb fun b => after Tracks.span fun l => pure fun x hx => ?_
      obtain ⟨h, -⟩ | ⟨m, hm, h⟩ := Node.finishes_iff.1 hx.1
      · cases h
      · exact hx.2 (List.mem_singleton.1 hm ▸ h)

theorem command (room : Nat) : BreaksWithin limit Trailing .command (Parse.command room) :=
  commandWith (Tracks.test room) (Tracks.block_chain room).1 (Tracks.block_chain room).2
    (block_chain room).1 (block_chain room).2

theorem script : BreaksWithin limit (fun _ => True) .script Parse.script := by
  refine after Tracks.options fun options => ?_
  have hitem : Tracks ⟨true, limit⟩ (·.isSome = true)
      (Parse.commandOrEnd (Parse.command options.maxDepth)) :=
    Tracks.note.andThen fun _ => Tracks.peek.andThen fun _ => .ite .none (Tracks.command _).some
  have hbreaks : Breaks ⟨true, limit⟩ Trailing (fun r x => ∃ y ∈ r, (Node.command y).Finishes x)
      (Parse.commandOrEnd (Parse.command options.maxDepth)) :=
    after Tracks.note fun _ => after Tracks.peek fun _ =>
      .ite (pure (by simp)) (map (command _) (by simp))
  exact bind (Tracks.manyUntil hitem)
    (commands .atEnd hitem hbreaks (start_of_commandOrEnd word_of_command)) fun cs =>
      after Tracks.peek fun _ => after Tracks.located fun l => pure fun x hx =>
        hx.2 ((Node.finishes_commands (n := .script ⟨cs, l⟩) nofun rfl).1 hx.1)

end Breaks

end Grammar

namespace Script

variable {limit : Nat} {source : String} {s : Script} {x : Command}

theorem whole_of_parse {c : Cursor} (h : parse ⟨true, limit⟩ source = .ok s)
    (hc : Cursor.ofReadings (readings source) = .ok c) : c.Whole := by
  have hbare : parse ⟨false, limit⟩ source = .ok s.erase := by
    rw [parse_erase, h]
    rfl
  obtain ⟨ts, ⟨ls, hls, -⟩, -⟩ := (parse_iff rfl).1 hbare
  exact ⟨(Cursor.ofReadings_stands hc).ended, ls,
    (Cursor.ofReadings_remaining (readings_ne_nil source) hc).trans hls⟩

/-- A semicolon that is missing is reported at the token behind it, whatever stands before the
command and around it. -/
theorem parse_unterminated (h : parse ⟨true, limit⟩ source = .ok s)
    (hx : (Node.script s).Holds (.command x)) (hfixed : x.clause? ≠ none) :
    ∃ l before semicolon next more, x.location = some l
      ∧ readings source = before ++ .ok semicolon :: .ok next :: more
      ∧ semicolon.token = .mark .semicolon ∧ semicolon.location.stop = l.stop
      ∧ textBetween source (l.stop.offset - 1) l.stop.offset = ";"
      ∧ ∀ locations, ∃ f, parse ⟨locations, limit⟩ (blanked source l.stop.offset) = .error f
        ∧ f.diagnostic.kind = .grammatical ∧ f.diagnostic.location = next.location
        ∧ f.diagnostic.found = (if next.token = .endOfInput then none else some next.found)
        ∧ .literal ";" ∈ f.diagnostic.expected := by
  obtain ⟨c, d, hc, hrun⟩ := parse_ok.1 h
  obtain ⟨c', f, ⟨semicolon, next, more, es, ⟨ls, hahead, rfl⟩, hsemicolon, ⟨l, hl, hstop⟩, hes,
    rfl⟩, herror⟩ := Breaks.script.run (whole_of_parse h hc) hrun trivial ⟨hx, hfixed⟩
  have hread : readings source
      = (c.current :: ls).map .ok ++ .ok semicolon :: .ok next :: more := by
    rw [← Cursor.ofReadings_remaining (readings_ne_nil source) hc, Cursor.remaining, hahead]
    rfl
  obtain ⟨lead, rest, hsource, hend, -, hblanked⟩ := readingsFrom_blanked hread hsemicolon
  rw [← hstop] at hend
  obtain ⟨hchar, hgap⟩ := blanked_after hsource
  rw [← hend] at hchar hgap
  have hreadings : readings (blanked source l.stop.offset)
      = .ok c.current :: (ls.map .ok ++ .ok next :: more) := by
    rw [hgap, readings, String.toList_ofList]
    exact hblanked
  have hstart : Cursor.ofReadings (readings (blanked source l.stop.offset))
      = .ok { c with ahead := ls.map .ok ++ .ok next :: more } := by
    rw [hread] at hc
    have hstop := congrArg Cursor.lastStop (Except.ok.inj hc)
    have hnoted := congrArg Cursor.noted (Except.ok.inj hc)
    rw [hreadings, ← hstop, ← hnoted]
    rfl
  have hparse : parse ⟨true, limit⟩ (blanked source l.stop.offset) = .error (next.missing es) :=
    parse_error.2 (.inr ⟨_, hstart, herror⟩)
  have hbare := parse_error_bare.1 hparse
  exact ⟨l, _, semicolon, next, more, hl, hread, hsemicolon, hstop.symm, hchar, fun locations =>
    ⟨next.missing es, (parse_error_bare (o := ⟨locations, limit⟩)).2 hbare, rfl, rfl, rfl,
      Expected.mem_arrange.2 hes⟩⟩

/-- The token behind the semicolon closes the block that the command stands in. -/
theorem parse_unterminated_stop : ∃ next : Lexeme, .ok next ∈ readings "if true{stop;}"
    ∧ next.location = ⟨⟨13, 1, 14⟩, ⟨14, 1, 15⟩⟩
    ∧ parse ⟨true, 2⟩ "if true{stop }"
      = .error (.unexpected next.location (some "\x7d") [.literal ";"]) := by
  let t : Test := .always (some ⟨⟨3, 1, 4⟩, ⟨7, 1, 8⟩⟩)
  let x : Command := .stop (some ⟨⟨8, 1, 9⟩, ⟨13, 1, 14⟩⟩)
  let b : Block := .mk [x] (some ⟨⟨7, 1, 8⟩, ⟨14, 1, 15⟩⟩)
  let y : Command := .ifTest t b .done (some ⟨⟨0, 1, 1⟩, ⟨14, 1, 15⟩⟩)
  let s : Script := ⟨[y], some ⟨⟨0, 1, 1⟩, ⟨14, 1, 15⟩⟩⟩
  have h : parse ⟨true, 2⟩ "if true{stop;}" = .ok s := by decide +kernel
  have hmissing : parse ⟨true, 2⟩ "if true{stop }"
      = .error (.unexpected ⟨⟨13, 1, 14⟩, ⟨14, 1, 15⟩⟩ (some "\x7d") [.literal ";"]) := by
    decide +kernel
  have hy : Node.command y ∈ (Node.script s).children := List.mem_cons_self
  have hb : Node.block b ∈ (Node.command y).children := List.mem_cons_of_mem _ List.mem_cons_self
  have hx : Node.command x ∈ (Node.block b).children := List.mem_cons_self
  obtain ⟨_, before, semicolon, next, more, ⟨⟩, hread, -, -, -, hreport⟩ :=
    parse_unterminated h (.head hy (.head hb (.head hx .refl)))
      (Option.some_ne_none _)
  obtain ⟨f, hf, -, hlocation, -⟩ := hreport true
  have hblanked : blanked "if true{stop;}" 13 = "if true{stop }" := by decide
  rw [hblanked, hmissing] at hf
  cases hf
  refine ⟨next, ?_, hlocation.symm, ?_⟩
  · rw [hread]
    simp
  · rw [← hlocation]
    exact hmissing

end Script

end MailSieve
