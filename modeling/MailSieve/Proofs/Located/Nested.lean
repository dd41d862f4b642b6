import MailSieve.Proofs.Located.Lays
import MailSieve.Proofs.Located.Script
import MailSieve.Script.Equality

/-! How the nodes of a script lie in its source.
Every parser lays its nodes one behind the other; so the location of a node holds those of the nodes
within it, which are not empty and follow each other as the nodes do. The script as a whole reaches
over the whole source. -/

namespace MailSieve

open Parse

namespace TagUses

def nodes (uses : TagUses) : List Node := uses.flatMap (·.value.nodes)

variable {uses : TagUses} {name : String}

theorem nodes_value? {v : TagValue} (h : uses.value? name = some v) : v.nodes ⊆ uses.nodes := by
  obtain ⟨u, hu, rfl⟩ := Option.map_eq_some_iff.1 h
  exact fun n hn => List.mem_flatMap.2 ⟨u, List.mem_of_find?_eq_some hu, hn⟩

@[simp] theorem nodes_string? : (uses.string? name).toList.map Node.string ⊆ uses.nodes := by
  cases h : uses.string? name with
  | none => exact List.nil_subset _
  | some s => exact nodes_value? (string?_eq_some.1 h)

@[simp] theorem nodes_strings? : (uses.strings? name).toList.map Node.strings ⊆ uses.nodes := by
  cases h : uses.strings? name with
  | none => exact List.nil_subset _
  | some l => exact nodes_value? (strings?_eq_some.1 h)

@[simp] theorem nodes_number? : (uses.number? name).toList.map Node.number ⊆ uses.nodes := by
  cases h : uses.number? name with
  | none => exact List.nil_subset _
  | some n => exact nodes_value? (number?_eq_some.1 h)

@[simp] theorem nodes_transform? :
    uses.transform?.toList.flatMap BodyTransform.nodes ⊆ uses.nodes := by
  rw [transform?]
  split
  · exact List.nil_subset _
  · split
    · exact List.nil_subset _
    · have hnodes : ((uses.strings? "content").map BodyTransform.content).toList.flatMap
          BodyTransform.nodes = (uses.strings? "content").toList.map Node.strings := by
        cases uses.strings? "content" <;> rfl
      rw [hnodes]
      exact nodes_strings?

end TagUses

def Chain.EndsAt (c : Chain) (p : Position) : Prop :=
  ∀ k ∈ c.links, ∃ l, k.location = some l ∧ l.stop = p

theorem Completes.endsAt {source : String} {limit : Nat} {b d : Cursor} {c : Chain}
    (h : Completes source limit b (.link c) d) : c.EndsAt d.lastStop := by
  intro k hk
  have hrest (hk : k ∈ (Node.link c).links) : ∃ l, k.location = some l ∧ l.stop = d.lastStop := by
    obtain ⟨l, l', hl, hl', hstop⟩ := h.nested.ends k hk
    rw [h.location, Option.some.injEq] at hl'
    exact ⟨l, hl, by rw [hstop, ← hl']⟩
  cases c with
  | done => cases hk
  | elsif t body rest x =>
    obtain rfl | hk := List.mem_cons.1 hk
    · exact ⟨_, h.location, rfl⟩
    · exact hrest hk
  | otherwise body x =>
    rw [List.mem_singleton.1 hk]
    exact ⟨_, h.location, rfl⟩

/-- Links are laid one within the other, and all end where the parser ends. -/
structure LaysChain (source : String) (limit : Nat) (p : Parse Chain) : Prop where
  lays : Lays source limit Chain.nodes p
  ends : ∀ {c a d}, c.Stands source → p ⟨true, limit⟩ c = .ok (a, d) → a.EndsAt d.lastStop

namespace Lays

variable {source : String} {limit : Nat} {b c d : Cursor}

section Values

theorem token {α : Type} {mk : Option Location → α} (node : Option Location → Node) {l : Lexeme}
    {a : α} (hb : b.Stands source) (hl : b.current = l) (hne : l.token ≠ .endOfInput)
    (h : (Parse.advance >>= fun _ => Parse.located l.location >>= fun x => Pure.pure (mk x))
      ⟨true, limit⟩ b = .ok (a, d))
    (hlocation : ∀ x, (node x).location = x) (hlinks : ∀ x, (node x).links = [])
    (hchildren : ∀ x, (node x).children = []) :
    a = mk (some l.location) ∧ Completes source limit b (node (some l.location)) d := by
  subst hl
  obtain ⟨_, e, he, h⟩ := bind_ok.1 h
  obtain ⟨hsince, hstop⟩ := advance_since hb he hne
  cases h
  refine ⟨rfl, hsince.completes ?_ (.inl (hchildren _)) ?_⟩
  · rw [hlocation, hstop]
  · rw [hlinks]
    exact nofun

theorem string : Lays source limit (fun s => [.string s]) Parse.string := by
  refine note.andThen fun _ => atCurrent fun {b a d} l hb hl h => ?_
  obtain ⟨token, location, text⟩ := l
  cases token with
  | string value multiline =>
    obtain ⟨rfl, hcompletes⟩ := Lays.token (.string ⟨value, multiline, ·⟩) hb hl
      nofun h (fun _ => rfl) (fun _ => rfl) fun _ => rfl
    exact hcompletes.result trivial
  | _ => cases h

theorem number : Lays source limit (fun n => [.number n]) Parse.number := by
  refine note.andThen fun _ => atCurrent fun {b a d} l hb hl h => ?_
  obtain ⟨token, location, text⟩ := l
  cases token with
  | number value quantifier =>
    obtain ⟨rfl, hcompletes⟩ := Lays.token (.number ⟨value, quantifier, ·⟩) hb hl
      nofun h (fun _ => rfl) (fun _ => rfl) fun _ => rfl
    exact hcompletes.result trivial
  | _ => cases h

theorem stringList : Lays source limit (fun l => [.strings l]) Parse.stringList := by
  refine start (fun _ => trivial) fun b => .skip eat fun _ => .ite ?_ ?_
  · exact .step (commaSeparated string) fun values => .expect fun _ =>
      .whole id (fun _ => rfl) (fun _ => rfl) fun _ => rfl
  · exact .step string fun s => .moves (List.cons_ne_nil _ _)
      (.whole id (fun _ => rfl) (fun _ => rfl) fun _ => rfl)

theorem chosen {α : Type} {ofWord? : String → Option α} {refusal : String → Location → Fault} :
    Lays source limit Bare (Parse.chosen ofWord? refusal) := by
  refine peek.andThen fun l => string.forget.andThen fun s => ?_
  cases ofWord? s.value with
  | none => exact refuse
  | some a => exact pure rfl

theorem tagValue (kind : TagValueKind) :
    Lays source limit TagValue.nodes (Parse.tagValue kind) := by
  cases kind with
  | none => exact pure rfl
  | string => exact string.map fun _ => rfl
  | strings => exact stringList.map fun _ => rfl
  | number => exact number.map fun _ => rfl
  | operator | importance => exact chosen.map fun _ => rfl

theorem tags (rules : List TagRule) : Lays source limit TagUses.nodes (Parse.tags rules) := by
  have hstep (uses : TagUses) (b : Cursor) (ns : List Node) :
      Extends source limit false b (ns ++ uses.nodes) (tagStep rules uses) fun r =>
        Since source limit false b (ns ++ TagUses.nodes (r.getD uses)) := by
    refine .skip nextTag fun r => ?_
    obtain _ | ⟨name, l⟩ := r
    · exact .pure id
    · dsimp only
      cases rules.find? (·.name == name) with
      | none => exact .refuse
      | some rule =>
        refine .ite .refuse (.step (tagValue rule.value) fun value => .ite .refuse (.pure ?_))
        intro e he
        have hnodes : TagUses.nodes (uses ++ [⟨rule, value⟩]) = uses.nodes ++ value.nodes := by
          simp [TagUses.nodes]
        rw [Option.getD_some, hnodes, ← List.append_assoc]
        exact he
  refine of_extends fun b => ⟨fun {c a d} hc h => ?_⟩
  exact (loop hstep c.remaining [] b []).run hc h

end Values

section Tests

variable {inner : Parse Test}

theorem testList_since (ht : Lays source limit (fun t => [.test t]) inner) (moved : Bool)
    (b : Cursor) : Extends source limit moved b [] (Parse.testList inner) fun ts =>
      Since source limit true b (ts.map .test) :=
  .expect fun _ => .step (commaSeparated ht) fun _ => .skip expect fun _ => .pure id

theorem testList (ht : Lays source limit (fun t => [.test t]) inner) :
    Lays source limit (fun ts => ts.map .test) (Parse.testList inner) :=
  of_extends fun b => ⟨fun hc h =>
    have hsince := (testList_since ht false b).run hc h
    ⟨hsince.reaches, nofun, hsince.row⟩⟩

theorem wrapped {α : Type} {p : Parse α} {node : α → Node} {argument : α → Argument}
    (hp : Lays source limit (fun a => [node a]) p)
    (hlocation : ∀ a, (argument a).location = (node a).location)
    (hnodes : ∀ a, (argument a).nodes = [node a]) :
    Lays source limit (fun r => r.toList.map .argument)
      (p >>= fun a => Pure.pure (some (argument a))) where
  run hc h := by
    obtain ⟨a, e, ha, h⟩ := bind_ok.1 h
    obtain ⟨rfl, rfl⟩ := pure_ok.1 h
    obtain ⟨hreaches, hrow⟩ := hp.run hc ha
    have hfits := hrow.fits (node a) List.mem_cons_self
    exact ⟨hreaches, .single (hfits.wrap (hlocation a) (hnodes a) rfl trivial)⟩

theorem argument (ht : Lays source limit (fun t => [.test t]) inner) :
    Lays source limit (fun r => r.toList.map .argument) (Parse.argument inner) := by
  refine note.andThen fun _ => note.andThen fun _ => note.andThen fun _ => note.andThen fun _ =>
    note.andThen fun _ => note.andThen fun _ => atCurrent fun {b a d} l hb hl h => ?_
  have hstart : b.current.location.start = l.location.start := by rw [hl]
  obtain ⟨token, location, text⟩ := l
  cases token with
  | tag name =>
    obtain ⟨rfl, hcompletes⟩ := Lays.token (fun x => .argument (.tag name x)) hb hl nofun h
      (fun _ => rfl) (fun _ => rfl) fun _ => rfl
    exact hcompletes.result trivial
  | number value quantifier => exact (wrapped number (fun _ => rfl) fun _ => rfl).run hb h
  | string value multiline => exact (wrapped string (fun _ => rfl) fun _ => rfl).run hb h
  | word name =>
    have hextends : Extends source limit false b [] (inner >>= fun t =>
        Parse.span b.current.location.start >>= fun x => Pure.pure (some (.tests [t] x)))
        fun r d => b.Reaches source d ∧ Row source limit (r.toList.map .argument) b d :=
      .step ht fun t => .moves (List.cons_ne_nil _ _)
        (.whole (fun {x e} (he : Completes source limit b (.argument (.tests [t] x)) e) =>
          he.result trivial) (fun _ => rfl) (fun _ => rfl) fun _ => rfl)
    rw [hstart] at hextends
    exact hextends.run ⟨hb.reaches, nofun, .nil⟩ h
  | mark p =>
    cases p with
    | openBracket => exact (wrapped stringList (fun _ => rfl) fun _ => rfl).run hb h
    | openParen =>
      have hextends : Extends source limit false b [] (Parse.testList inner >>= fun ts =>
          Parse.span b.current.location.start >>= fun x => Pure.pure (some (.tests ts x)))
          fun r d => b.Reaches source d ∧ Row source limit (r.toList.map .argument) b d :=
        .andThen (testList_since ht false b) fun ts =>
          .whole (fun {x e} (he : Completes source limit b (.argument (.tests ts x)) e) =>
            he.result trivial) (fun _ => rfl) (fun _ => rfl) fun _ => rfl
      rw [hstart] at hextends
      exact hextends.run ⟨hb.reaches, nofun, .nil⟩ h
    | _ =>
      obtain ⟨rfl, rfl⟩ := pure_ok.1 h
      exact ⟨hb.reaches, .nil⟩
  | endOfInput =>
    obtain ⟨rfl, rfl⟩ := pure_ok.1 h
    exact ⟨hb.reaches, .nil⟩

theorem arguments (ht : Lays source limit (fun t => [.test t]) inner) :
    Lays source limit (fun as => as.map .argument) (Parse.arguments inner) :=
  manyUntil (argument ht)

/-- The tags of a fixed shape stand in any order, and before the other values. -/
theorem keywordTest (ht : Lays source limit (fun t => [.test t]) inner) (b : Cursor)
    (k : TestKeyword) :
    Extends source limit true b [] (Parse.keywordTest inner b.current.location.start k) fun t =>
      Completes source limit b (.test t) := by
  cases k with
  | always | never =>
    exact .fixed id (fun _ => rfl) (fun _ => nofun) fun _ => List.nil_subset _
  | negation => exact .step ht fun t => .whole id (fun _ => rfl) (fun _ => rfl) fun _ => rfl
  | allOf | anyOf =>
    exact .step (testList ht) fun ts => .whole id (fun _ => rfl) (fun _ => rfl) fun _ => rfl
  | address | envelope | header | string =>
    refine .step (tags _) fun uses => .step stringList fun _ => .step stringList fun _ =>
      .fixed id (fun _ => rfl) (fun _ => nofun) fun x => ?_
    simp [Node.children, Test.nodes, Test.clause?, TagUses.matchOptions,
      List.subset_append_of_subset_left]
  | headerExists | ihave =>
    exact .step stringList fun _ => .fixed id (fun _ => rfl) (fun _ => nofun) fun x =>
      List.Subset.refl _
  | size =>
    refine .step (tags _) fun uses => .ite (.skip note fun _ => .skip note fun _ => .fail) ?_
    exact .step number fun _ => .fixed id (fun _ => rfl) (fun _ => nofun) fun x => by
      simp [Node.children, Test.nodes, Test.clause?]
  | body =>
    refine .step (tags _) fun uses => .step stringList fun _ =>
      .fixed id (fun _ => rfl) (fun _ => nofun) fun x => ?_
    simp [Node.children, Test.nodes, Test.clause?, TagUses.matchOptions,
      List.subset_append_of_subset_left]
  | date =>
    refine .step (tags _) fun uses => .step string fun _ => .step string fun _ =>
      .step stringList fun _ => .fixed id (fun _ => rfl) (fun _ => nofun) fun x => ?_
    simp [Node.children, Test.nodes, Test.clause?, TagUses.matchOptions,
      List.subset_append_of_subset_left]
  | currentDate =>
    refine .step (tags _) fun uses => .step string fun _ => .step stringList fun _ =>
      .fixed id (fun _ => rfl) (fun _ => nofun) fun x => ?_
    simp [Node.children, Test.nodes, Test.clause?, TagUses.matchOptions,
      List.subset_append_of_subset_left]
  | hasFlag =>
    refine .step (tags _) fun uses => .step stringList fun _ => .skip isAtStringList fun _ =>
      .ite (.step stringList fun _ => .fixed id (fun _ => rfl) (fun _ => nofun) fun x => ?_)
        (.fixed id (fun _ => rfl) (fun _ => nofun) fun x => ?_)
    all_goals simp [Node.children, Test.nodes, Test.clause?, TagUses.matchOptions,
      List.subset_append_of_subset_left]
  | duplicate =>
    refine .step (tags _) fun uses => .fixed id (fun _ => rfl) (fun _ => nofun) fun x => ?_
    simp [Node.children, Test.nodes, Test.clause?]

theorem testWith (ht : Lays source limit (fun t => [.test t]) inner) {t : Test}
    (hc : c.Stands source) (h : Parse.testWith inner ⟨true, limit⟩ c = .ok (t, d)) :
    (c.Reaches source d ∧ Row source limit [.test t] c d)
      ∨ Completes source limit c (.test t) d := by
  obtain ⟨paren, _, hp, h⟩ := bind_ok.1 h
  obtain ⟨-, rfl⟩ := isAt_ok.1 hp
  have hnote := hc.note (.literal (String.singleton Punctuation.openParen.char))
  split at h
  · left
    have hpasses : Lays source limit (fun t => [.test t]) (Parse.advance >>= fun _ =>
        inner >>= fun t => Parse.expect .closeParen >>= fun _ => Pure.pure t) :=
      advance.andThen fun _ => ht.bind (fun _ => expect.andThen fun _ => pure rfl) fun h => by
        obtain ⟨_, _, -, h⟩ := bind_ok.1 h
        rw [(pure_ok.1 h).1]
    obtain ⟨hreaches, hrow⟩ := hpasses.run hnote.stands h
    exact ⟨hnote.trans hreaches, hrow.weaken hnote.here_le (Nat.le_refl _)⟩
  · right
    obtain ⟨name, e, hsince, h⟩ := word_since hnote.stands h
    have hbegin := hsince.after hnote
    rw [Cursor.current_note] at h
    cases hk : TestKeyword.ofWord? name with
    | some k =>
      rw [hk] at h
      exact (keywordTest ht c k).run hbegin h
    | none =>
      rw [hk] at h
      have hgeneric : Extends source limit true c []
          (Parse.genericTest inner name c.current.location.start) fun t =>
            Completes source limit c (.test t) :=
        .step (arguments ht) fun _ => .whole id (fun _ => rfl) (fun _ => rfl) fun _ => rfl
      exact hgeneric.run hbegin h

theorem test {m : Nat} (hm : m ≤ limit) :
    Lays source limit (fun t => [.test t]) (Parse.test m) := by
  induction m with
  | zero => exact ⟨nofun⟩
  | succ m ih =>
    refine ⟨fun {c t d} hc h => ?_⟩
    obtain hrow | hcompletes := testWith (ih (Nat.le_of_succ_le hm)) hc h
    · exact hrow
    · exact hcompletes.result ⟨m + 1, c, d, hm, hc, h, hcompletes.location⟩

end Tests

section Commands

variable {inner : Parse Test} {block : Parse Block} {chain : Parse Chain}

theorem flagArguments :
    Lays source limit (fun r => r.1.toList.map .string ++ [.strings r.2]) Parse.flagArguments := by
  refine note.andThen fun _ => isAtString.andThen fun _ => .ite ?_ (stringList.map fun _ => rfl)
  refine of_extends fun b => .step string fun s => .skip isAtStringList fun _ =>
    .ite (.step stringList fun _ => .pure id) (.pure fun h => ⟨h.reaches, h.moved, ?_⟩)
  have hfits := h.row.fits (.string s) List.mem_cons_self
  exact .single (hfits.wrap rfl rfl rfl trivial)

theorem branch {α : Type} {mk : Test → Block → Chain → Option Location → α}
    {node : Test → Block → Chain → Option Location → Node} {K : α → Cursor → Prop}
    (ht : Lays source limit (fun t => [.test t]) inner)
    (hb : Lays source limit (fun b => [.block b]) block) (hc : LaysChain source limit chain)
    (hK : ∀ {t body rest x d}, Completes source limit b (node t body rest x) d →
      K (mk t body rest x) d)
    (hlocation : ∀ t body rest x, (node t body rest x).location = x)
    (hlinks : ∀ t body rest x, (node t body rest x).links = rest.links)
    (hchildren : ∀ t body rest x,
      (node t body rest x).children = .test t :: .block body :: rest.nodes) :
    Extends source limit true b [] (inner >>= fun t => block >>= fun body => chain >>= fun rest =>
      Parse.span b.current.location.start >>= fun x => Pure.pure (mk t body rest x)) K := by
  refine .step ht fun t => .step hb fun body => ⟨fun {c a d} hs h => ?_⟩
  obtain ⟨rest, e, he, h⟩ := bind_ok.1 h
  have hsince := hs.step hc.lays he
  cases h
  refine hK (hsince.completes (hlocation _ _ _ _) (.inl (hchildren _ _ _ _)) ?_)
  rw [hlinks]
  exact hc.ends hs.reaches.stands he

theorem keywordCommand (ht : Lays source limit (fun t => [.test t]) inner)
    (hb : Lays source limit (fun b => [.block b]) block) (hc : LaysChain source limit chain)
    (b : Cursor) (k : CommandKeyword) :
    Extends source limit true b [] (Parse.keywordCommand inner block chain b.current k) fun c =>
      Completes source limit b (.command c) := by
  cases k with
  | require =>
    exact .step stringList fun _ => .expect fun _ => .fixed id (fun _ => rfl) (fun _ => nofun)
      fun _ => List.nil_subset _
  | ifTest => exact branch ht hb hc id (fun _ _ _ _ => rfl) (fun _ _ _ _ => rfl) fun _ _ _ _ => rfl
  | elsif | elseBlock => exact .refuse
  | stop | discard =>
    exact .expect fun _ => .fixed id (fun _ => rfl) (fun _ => nofun) fun _ => List.nil_subset _
  | keep =>
    refine .step (tags _) fun uses => .expect fun _ =>
      .fixed id (fun _ => rfl) (fun _ => nofun) fun x => ?_
    simp [Node.children, Command.nodes, Command.clause?]
  | fileInto | redirect | vacation | notify =>
    refine .step (tags _) fun uses => .step string fun _ => .expect fun _ =>
      .fixed id (fun _ => rfl) (fun _ => nofun) fun x => ?_
    simp [Node.children, Command.nodes, Command.clause?, List.subset_append_of_subset_left]
  | reject =>
    exact .step string fun _ => .expect fun _ => .fixed id (fun _ => rfl) (fun _ => nofun)
      fun _ => List.Subset.refl _
  | setVariable =>
    refine .step (tags _) fun uses => .step string fun _ => .step string fun _ => .expect fun _ =>
      .fixed id (fun _ => rfl) (fun _ => nofun) fun x => ?_
    simp [Node.children, Command.nodes, Command.clause?]
  | setFlag | addFlag | removeFlag =>
    refine .step flagArguments fun r => ?_
    obtain ⟨variableName, flags⟩ := r
    refine .expect fun _ => .fixed id (fun _ => rfl) (fun _ => nofun) fun x => ?_
    cases variableName <;> exact List.Subset.refl _

theorem genericCommand (ht : Lays source limit (fun t => [.test t]) inner)
    (hb : Lays source limit (fun b => [.block b]) block) (b : Cursor) (name : String) :
    Extends source limit true b []
      (Parse.genericCommand inner block name b.current.location.start) fun c =>
        Completes source limit b (.command c) := by
  refine .step (arguments ht) fun as => .skip isAt fun _ => .ite ?_ ?_
  · exact .step hb fun _ => .whole id (fun _ => rfl) (fun _ => rfl) fun _ => rfl
  · exact .expect fun _ => .whole id (fun _ => rfl) (fun _ => rfl) fun _ => rfl

theorem commandWith (ht : Lays source limit (fun t => [.test t]) inner)
    (hb : Lays source limit (fun b => [.block b]) block) (hch : LaysChain source limit chain)
    {x : Command} (hc : c.Stands source)
    (h : Parse.commandWith inner block chain ⟨true, limit⟩ c = .ok (x, d)) :
    Completes source limit c (.command x) d := by
  obtain ⟨name, e, hsince, h⟩ := word_since hc h
  cases hk : CommandKeyword.ofWord? name with
  | some k =>
    rw [hk] at h
    exact (keywordCommand ht hb hch c k).run hsince h
  | none =>
    rw [hk] at h
    exact (genericCommand ht hb c name).run hsince h

def LaysLink (source : String) (limit : Nat) (link : Lexeme → Parse Chain) : Prop :=
  ∀ b, Extends source limit true b [] (link b.current) fun a d =>
    Completes source limit b (.link a) d ∧ a.nodes = [.link a]

theorem eatWord_since {word : String} {r : Bool} (hc : c.Stands source)
    (h : Parse.eatWord word ⟨true, limit⟩ c = .ok (r, d)) : Since source limit r c [] d := by
  obtain ⟨_, _, hn, h⟩ := bind_ok.1 h
  obtain rfl := note_ok.1 hn
  obtain ⟨l, _, hpeek, h⟩ := bind_ok.1 h
  obtain ⟨hl, rfl⟩ := peek_ok.1 hpeek
  have hnote := hc.note (.literal word)
  split at h
  · next hword =>
    obtain ⟨_, e, he, h⟩ := bind_ok.1 h
    obtain ⟨rfl, rfl⟩ := pure_ok.1 h
    have hne : (c.note (.literal word)).current.token ≠ .endOfInput := by
      rw [hl, hword]
      exact nofun
    exact (advance_since hnote.stands he hne).1.after hnote
  · obtain ⟨rfl, rfl⟩ := pure_ok.1 h
    exact ⟨hnote, nofun, .nil⟩

theorem chainWith {elsif elseBlock : Lexeme → Parse Chain} (hi : LaysLink source limit elsif)
    (he : LaysLink source limit elseBlock) :
    LaysChain source limit (Parse.chainWith elsif elseBlock) := by
  have hlink {c : Cursor} {a : Chain} {d : Cursor}
      (h : Completes source limit c (.link a) d ∧ a.nodes = [.link a]) :
      (c.Reaches source d ∧ Row source limit a.nodes c d) ∧ a.EndsAt d.lastStop := by
    rw [h.2]
    exact ⟨h.1.result trivial, h.1.endsAt⟩
  have hrun {c : Cursor} {a : Chain} {d : Cursor} (hc : c.Stands source)
      (h : Parse.chainWith elsif elseBlock ⟨true, limit⟩ c = .ok (a, d)) :
      (c.Reaches source d ∧ Row source limit a.nodes c d) ∧ a.EndsAt d.lastStop := by
    obtain ⟨l, _, hpeek, h⟩ := bind_ok.1 h
    obtain ⟨rfl, rfl⟩ := peek_ok.1 hpeek
    obtain ⟨r, e, hr, h⟩ := bind_ok.1 h
    have hsince := eatWord_since hc hr
    cases r with
    | true => exact hlink ((hi c).run hsince h)
    | false =>
      obtain ⟨r, f, hr, h⟩ := bind_ok.1 h
      have hsince := (eatWord_since hsince.reaches.stands hr).after hsince.reaches
      cases r with
      | true => exact hlink ((he c).run hsince h)
      | false =>
        obtain ⟨rfl, rfl⟩ := pure_ok.1 h
        exact ⟨⟨hsince.reaches, .nil⟩, nofun⟩
  exact ⟨⟨fun hc h => (hrun hc h).1⟩, fun hc h => (hrun hc h).2⟩

theorem commandAt {m : Nat} (hm : m ≤ limit)
    (hb : Lays source limit (fun b => [.block b]) (Parse.block m))
    (hch : LaysChain source limit (Parse.chain m)) :
    Lays source limit (fun c => [.command c]) (Parse.command m) where
  run {c _ d} hc h :=
    have hcompletes := commandWith (test hm) hb hch hc h
    hcompletes.result ⟨m, c, d, hm, hc, h, hcompletes.location⟩

theorem block_chain {m : Nat} (hm : m ≤ limit) :
    Lays source limit (fun b => [.block b]) (Parse.block m)
      ∧ LaysChain source limit (Parse.chain m) := by
  induction m with
  | zero =>
    refine ⟨⟨fun {c a d} hc h => ?_⟩, chainWith (fun b => ⟨nofun⟩) fun b => ⟨nofun⟩⟩
    obtain ⟨_, _, -, h⟩ := bind_ok.1 h
    cases h
  | succ m ih =>
    have hm' := Nat.le_of_succ_le hm
    obtain ⟨hb, hch⟩ := ih hm'
    have hcommand := commandAt hm' hb hch
    have hitem : Lays source limit (fun r => r.toList.map .command)
        (Parse.commandOrClose (Parse.command m)) :=
      eat.andThen fun _ => .ite (pure rfl) (hcommand.map fun _ => rfl)
    refine ⟨⟨fun {c a d} hc h => ?_⟩, chainWith (fun b => ?_) fun b => ?_⟩
    · obtain ⟨l, e, he, h⟩ := bind_ok.1 h
      obtain ⟨rfl, hsince⟩ := expect_since hc he
      have hblock : Extends source limit true c []
          (Parse.blockWith (Parse.command m) c.current.location.start) fun b =>
            Completes source limit c (.block b) :=
        .step (manyUntil hitem) fun _ => .whole id (fun _ => rfl) (fun _ => rfl) fun _ => rfl
      exact (hblock.run hsince h).result trivial
    · exact branch (test hm') hb hch (fun h => ⟨h, rfl⟩) (fun _ _ _ _ => rfl)
        (fun _ _ _ _ => rfl) fun _ _ _ _ => rfl
    · exact .step hb fun _ => .whole (fun h => ⟨h, rfl⟩) (fun _ => rfl) (fun _ => rfl) fun _ => rfl

theorem command {m : Nat} (hm : m ≤ limit) :
    Lays source limit (fun c => [.command c]) (Parse.command m) :=
  commandAt hm (block_chain hm).1 (block_chain hm).2

end Commands

end Lays

namespace Script

variable {source : String} {limit : Nat} {s : Script}

/-- The commands of a script are laid from its start up to the end of the input. -/
theorem parse_laid (h : parse ⟨true, limit⟩ source = .ok s) :
    s.location = some ⟨.origin, .after .origin source.toList⟩
      ∧ (Node.script s).Laid source limit := by
  obtain ⟨c, d, hc, hs⟩ := parse_ok.1 h
  have hstands := Cursor.ofReadings_stands hc
  rw [Parse.script_run] at hs
  obtain ⟨cs, _, hcs, hs⟩ := bind_ok.1 hs
  cases hs
  have hitem : Lays source limit (fun r => r.toList.map .command)
      (Parse.commandOrEnd (Parse.command limit)) :=
    Lays.note.andThen fun _ => Lays.peek.andThen fun _ => .ite (.pure rfl)
      ((Lays.command (Nat.le_refl _)).map fun _ => rfl)
  obtain ⟨hreaches, hrow⟩ := (Lays.manyUntil hitem).run hstands hcs
  have herased : Parse.many (Parse.commandOrEnd (Parse.command limit)) ⟨false, limit⟩ c
      = .ok (cs.map Command.erase, d) := by
    rw [Erases.many (Erases.commandOrEnd limit) limit c, hcs]
    rfl
  have hend := Reads.commands_ended rfl hstands.ended herased
  have hbehind := hreaches.stands.behind_le
  have hhere := hreaches.stands.here_le_stop
  rw [← hreaches.stands.stop_of_end hend]
  refine ⟨rfl, Node.laid_iff.2 ⟨⟨fun m hm => ?_, fun _ => hrow.ordered, nofun⟩, trivial,
    fun m hm => ?_⟩⟩
  · obtain ⟨k, hk, -, hne, hstop⟩ := (hrow.fits m hm).between
    exact ⟨k, _, hk, rfl, hne, Nat.zero_le _, Nat.le_trans hstop (Nat.le_trans hbehind hhere)⟩
  · exact (hrow.fits m hm).laid

/-- The locations of a script form a tree: that of the script is the whole source, and every node
holds its children, which follow each other in the order of the source. -/
theorem parse_nested (h : parse ⟨true, limit⟩ source = .ok s) :
    (∃ l, s.location = some l ∧ l.start.offset = 0 ∧ l.stop.offset = source.utf8ByteSize)
      ∧ ∀ n, (Node.script s).Holds n → n.Nested := by
  obtain ⟨hlocation, hlaid⟩ := parse_laid h
  have hsize : (Position.origin.after source.toList).offset = source.utf8ByteSize := by
    rw [Position.offset_after, String.ofList_toList]
    exact Nat.zero_add _
  exact ⟨⟨_, hlocation, rfl, hsize⟩, fun n hn => (hlaid n hn).1⟩

/-- A chain with one link, which ends where the whole command ends. -/
theorem parse_nested_chain :
    let link : Chain := .elsif (.never (some ⟨⟨15, 1, 16⟩, ⟨20, 1, 21⟩⟩))
      (.mk [] (some ⟨⟨20, 1, 21⟩, ⟨22, 1, 23⟩⟩)) .done (some ⟨⟨9, 1, 10⟩, ⟨22, 1, 23⟩⟩)
    let s : Script := ⟨[.ifTest (.always (some ⟨⟨3, 1, 4⟩, ⟨7, 1, 8⟩⟩))
      (.mk [] (some ⟨⟨7, 1, 8⟩, ⟨9, 1, 10⟩⟩)) link (some ⟨⟨0, 1, 1⟩, ⟨22, 1, 23⟩⟩)],
      some ⟨⟨0, 1, 1⟩, ⟨22, 1, 23⟩⟩⟩
    parse ⟨true, 2⟩ "if true{}elsif false{}" = .ok s
      ∧ (∃ l, s.location = some l ∧ l.start.offset = 0 ∧ l.stop.offset = 22)
      ∧ ∀ n, (Node.script s).Holds n → n.Nested := by
  intro link s
  have h : parse ⟨true, 2⟩ "if true{}elsif false{}" = .ok s := by decide +kernel
  exact ⟨h, parse_nested h⟩

end Script

end MailSieve
