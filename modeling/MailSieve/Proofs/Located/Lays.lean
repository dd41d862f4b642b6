import MailSieve.Proofs.Lexing.Order
import MailSieve.Proofs.Located.Node

/-! Where parsers lay their nodes.
A parser that goes from one cursor to another results in nodes that stand between the two, one
behind the other: behind what was passed over before, and before what is read next. `Lays` says so
of parsers, with the nodes that are laid. `Extends` follows a parser from the start of a node, with
the nodes that were laid since. -/

namespace MailSieve

open Parse

namespace Cursor

def here (c : Cursor) : Nat := c.current.location.start.offset

def behind (c : Cursor) : Nat := c.lastStop.offset

/-- The cursor stands at a place of the source, and at what is read from there. -/
structure Stands (source : String) (c : Cursor) : Prop where
  remaining : ∃ lead rest, source.toList = lead ++ rest
    ∧ c.remaining = readingsFrom (.after .origin lead) rest
  suffix : c.remaining <:+ readings source
  behind_le : c.behind ≤ c.here

/-- From `c` on the tokens `ls` are passed over, which leads to `d`. -/
def PassesOver (c : Cursor) (ls : List Lexeme) (d : Cursor) : Prop :=
  c.remaining = ls.map .ok ++ d.remaining
    ∧ d.lastStop = (ls.getLast?.map (·.location.stop)).getD c.lastStop

/-- The cursor is moved on, or left where it is. -/
structure Reaches (source : String) (c d : Cursor) : Prop where
  stands : d.Stands source
  here_le : c.here ≤ d.here
  behind_le : c.behind ≤ d.behind
  passes : ∃ ls, c.PassesOver ls d

variable {source : String} {c d e : Cursor}

theorem PassesOver.refl (c : Cursor) : c.PassesOver [] c := ⟨rfl, rfl⟩

theorem PassesOver.trans {ls ms : List Lexeme} (h : c.PassesOver ls d) (k : d.PassesOver ms e) :
    c.PassesOver (ls ++ ms) e := by
  obtain ⟨hremaining, hstop⟩ := h
  obtain ⟨kremaining, kstop⟩ := k
  refine ⟨by rw [hremaining, kremaining, List.map_append, List.append_assoc], ?_⟩
  rw [kstop, hstop, List.getLast?_append]
  cases ms.getLast? <;> rfl

theorem Stands.reaches (h : c.Stands source) : c.Reaches source c :=
  ⟨h, Nat.le_refl _, Nat.le_refl _, [], .refl c⟩

theorem Reaches.trans (h : c.Reaches source d) (k : d.Reaches source e) : c.Reaches source e where
  stands := k.stands
  here_le := Nat.le_trans h.here_le k.here_le
  behind_le := Nat.le_trans h.behind_le k.behind_le
  passes := by
    obtain ⟨ls, hls⟩ := h.passes
    obtain ⟨ms, hms⟩ := k.passes
    exact ⟨ls ++ ms, hls.trans hms⟩

theorem lastStop_note (c : Cursor) (x : Expected) : (c.note x).lastStop = c.lastStop := by
  rw [note]
  split <;> rfl

theorem here_note (c : Cursor) (x : Expected) : (c.note x).here = c.here := by
  rw [here, current_note, here]

theorem behind_note (c : Cursor) (x : Expected) : (c.note x).behind = c.behind := by
  rw [behind, lastStop_note, behind]

theorem Stands.note (h : c.Stands source) (x : Expected) : c.Reaches source (c.note x) where
  stands := by
    refine ⟨?_, ?_, ?_⟩
    · rw [remaining_note]
      exact h.remaining
    · rw [remaining_note]
      exact h.suffix
    · rw [here_note, behind_note]
      exact h.behind_le
  here_le := Nat.le_of_eq (here_note c x).symm
  behind_le := Nat.le_of_eq (behind_note c x).symm
  passes := ⟨[], (remaining_note c x).symm, lastStop_note c x⟩

theorem Stands.next (h : c.Stands source) (hd : c.next = .ok d) : c.Reaches source d
    ∧ (c.current.token ≠ .endOfInput →
      c.here < d.behind ∧ d.lastStop = c.current.location.stop) := by
  obtain ⟨lead, rest, hsource, hremaining⟩ := h.remaining
  by_cases hend : (scan rest).atEnd = true
  · rw [readingsFrom_atEnd hend] at hremaining
    obtain ⟨hcurrent, hahead⟩ := List.cons.inj hremaining
    rw [Cursor.next, hahead] at hd
    cases hd
    refine ⟨h.reaches, fun hne => absurd ?_ hne⟩
    exact Except.ok.inj ((reading_ok hcurrent.symm).symm.trans (atEnd_iff.1 hend))
  · rw [readingsFrom_more hend] at hremaining
    obtain ⟨hcurrent, hahead⟩ := List.cons.inj hremaining
    have hlocation : c.current.location = (scan rest).locate (.after .origin lead) :=
      location_of_reading hcurrent.symm
    have hne : c.current.token ≠ .endOfInput := by
      intro he
      have hout := reading_ok hcurrent.symm
      rw [he] at hout
      exact hend (atEnd_iff.2 hout)
    have hforward : c.here < c.current.location.stop.offset :=
      reading_forward hcurrent.symm hne
    rw [Cursor.next] at hd
    split at hd
    · next hnil =>
      rw [hnil] at hahead
      obtain ⟨before, l, hl, -⟩ := readingsFrom_eq ((scan rest).locate (.after .origin lead)).stop
        (scan rest).rest
      simp [hl] at hahead
    · cases hd
    · next l more hmore =>
      cases hd
      have hstart : c.current.location.stop.offset ≤ l.location.start.offset := by
        rw [hlocation]
        have hmem : .ok l ∈ c.ahead := hmore ▸ List.mem_cons_self
        exact readingsFrom_start_le (hahead ▸ hmem)
      have hforward' := Nat.le_of_lt hforward
      have hnext : c.remaining = .ok c.current :: .ok l :: more := by rw [Cursor.remaining, hmore]
      refine ⟨⟨⟨⟨lead ++ ((scan rest).before ++ (scan rest).text), (scan rest).rest, ?_, ?_⟩, ?_,
        hstart⟩, Nat.le_trans hforward' hstart, Nat.le_trans h.behind_le hforward', [c.current],
        hnext, rfl⟩, fun _ => ⟨hforward, rfl⟩⟩
      · rw [hsource, List.append_assoc, List.append_assoc]
        exact congrArg (lead ++ ·) (scan_append rest).symm
      · rw [Cursor.remaining, ← hmore, hahead, Position.after_append, Position.after_append]
        rfl
      · have hsuffix := h.suffix
        rw [hnext] at hsuffix
        exact (List.suffix_cons _ _).trans hsuffix

theorem Stands.reading (h : c.Stands source) : ∃ lead rest, source.toList = lead ++ rest
    ∧ (scan rest).reading (.after .origin lead) = .ok c.current := by
  obtain ⟨lead, rest, hsource, hremaining⟩ := h.remaining
  exact ⟨lead, rest, hsource, reading_of_readingsFrom hremaining.symm⟩

theorem Stands.here_le_stop (h : c.Stands source) : c.here ≤ c.current.location.stop.offset := by
  obtain ⟨lead, rest, -, hcurrent⟩ := h.reading
  rw [here, location_of_reading hcurrent]
  exact Position.offset_le_after _ _

theorem Stands.stop_of_end (h : c.Stands source) (hend : c.current.token = .endOfInput) :
    c.current.location.stop = .after .origin source.toList := by
  obtain ⟨lead, rest, hsource, hcurrent⟩ := h.reading
  obtain ⟨-, hrest⟩ := scan_end (atEnd_iff.2 (hend ▸ reading_ok hcurrent))
  have hall := scan_append rest
  rw [Scan.all, hrest, List.append_nil] at hall
  rw [location_of_reading hcurrent, hsource, Position.after_append, ← hall, Position.after_append,
    hall]
  rfl

theorem Stands.ended (h : c.Stands source) : c.Ended := by
  obtain ⟨lead, rest, -, hremaining⟩ := h.remaining
  obtain ⟨before, l, hl, hend, -⟩ := readingsFrom_eq (.after .origin lead) rest
  refine ⟨l, ?_, hend⟩
  rw [hremaining, hl, List.getLast?_concat]

theorem ofReadings_stands (h : ofReadings (readings source) = .ok c) : c.Stands source where
  remaining := ⟨[], source.toList, rfl, ofReadings_remaining (readings_ne_nil source) h⟩
  suffix := ofReadings_remaining (readings_ne_nil source) h ▸ List.suffix_refl _
  behind_le := by
    rw [behind, ofReadings_lastStop h]
    exact Nat.zero_le _

end Cursor

section Rows

def Node.Parsed (source : String) (limit : Nat) : Node → Prop
  | .test t => ∃ m c d, m ≤ limit ∧ c.Stands source
    ∧ Parse.test m ⟨true, limit⟩ c = .ok (t, d)
    ∧ t.location = some ⟨c.current.location.start, d.lastStop⟩
  | .command x => ∃ m c d, m ≤ limit ∧ c.Stands source
    ∧ Parse.command m ⟨true, limit⟩ c = .ok (x, d)
    ∧ x.location = some ⟨c.current.location.start, d.lastStop⟩
  | _ => True

/-- What holds of a node and of everything within it. -/
def Node.Laid (source : String) (limit : Nat) (n : Node) : Prop :=
  ∀ m, n.Holds m → m.Nested ∧ m.Parsed source limit

variable (source : String) (limit : Nat)

/-- The node stands between two cursors. -/
structure Node.Fits (c d : Cursor) (n : Node) : Prop where
  between : ∃ l, n.location = some l ∧ c.here ≤ l.start.offset ∧ l.start.offset < l.stop.offset
    ∧ l.stop.offset ≤ d.behind
  laid : n.Laid source limit

/-- The nodes stand between two cursors, one behind the other. -/
structure Row (ns : List Node) (c d : Cursor) : Prop where
  fits : ∀ n ∈ ns, n.Fits source limit c d
  ordered : ns.Pairwise Node.Before

variable {source limit} {ns ms : List Node} {n : Node} {b c d e : Cursor}

theorem Node.laid_iff : n.Laid source limit ↔ n.Nested ∧ n.Parsed source limit
    ∧ ∀ m ∈ n.children, m.Laid source limit := by
  rw [Laid, forall_holds, and_assoc]
  rfl

theorem Node.Fits.weaken (h : n.Fits source limit c d) (hc : b.here ≤ c.here)
    (hd : d.behind ≤ e.behind) : n.Fits source limit b e where
  between := by
    obtain ⟨l, hl, hstart, hne, hstop⟩ := h.between
    exact ⟨l, hl, Nat.le_trans hc hstart, hne, Nat.le_trans hstop hd⟩
  laid := h.laid

theorem Node.Fits.wrap {m : Node} (h : m.Fits source limit c d) (hl : n.location = m.location)
    (hc : n.children = [m]) (hk : n.links = []) (hp : n.Parsed source limit) :
    n.Fits source limit c d := by
  obtain ⟨l, hm, hstart, hne, hstop⟩ := h.between
  have hn : n.location = some l := hl.trans hm
  refine ⟨⟨l, hn, hstart, hne, hstop⟩, Node.laid_iff.2 ⟨⟨?_, fun _ => ?_, ?_⟩, hp, ?_⟩⟩
  · rw [hc]
    intro k hk
    rw [List.mem_singleton.1 hk]
    exact ⟨l, l, hm, hn, hne, Nat.le_refl _, Nat.le_refl _⟩
  · rw [hc]
    exact List.pairwise_singleton _ _
  · rw [hk]
    exact nofun
  · rw [hc]
    simpa using h.laid

theorem Row.nil : Row source limit [] c d := ⟨nofun, .nil⟩

theorem Row.single (h : n.Fits source limit c d) : Row source limit [n] c d :=
  ⟨by simpa using h, List.pairwise_singleton _ _⟩

theorem Row.weaken (h : Row source limit ns c d) (hc : b.here ≤ c.here)
    (hd : d.behind ≤ e.behind) : Row source limit ns b e :=
  ⟨fun n hn => (h.fits n hn).weaken hc hd, h.ordered⟩

theorem Row.append (h : Row source limit ns b c) (hbc : b.Reaches source c)
    (k : Row source limit ms c d) (hcd : c.Reaches source d) :
    Row source limit (ns ++ ms) b d where
  fits := by
    refine List.forall_mem_append.2 ⟨fun n hn => ?_, fun m hm => ?_⟩
    · exact (h.fits n hn).weaken (Nat.le_refl _) hcd.behind_le
    · exact (k.fits m hm).weaken hbc.here_le (Nat.le_refl _)
  ordered := by
    refine List.pairwise_append.2 ⟨h.ordered, k.ordered, fun n hn m hm x hx y hy => ?_⟩
    obtain ⟨x', hx', -, -, hstop⟩ := (h.fits n hn).between
    obtain ⟨y', hy', hstart, -⟩ := (k.fits m hm).between
    have hbehind := hbc.stands.behind_le
    rw [hx', Option.mem_some_iff] at hx
    rw [hy', Option.mem_some_iff] at hy
    subst hx hy
    omega

theorem Row.moved (h : Row source limit ns b c) (hne : ns ≠ []) : b.here < c.behind := by
  obtain ⟨n, ns, rfl⟩ := List.exists_cons_of_ne_nil hne
  obtain ⟨l, -, hstart, hl, hstop⟩ := (h.fits n List.mem_cons_self).between
  omega

end Rows

section Lays

variable (source : String) (limit : Nat)

/-- From wherever a cursor can stand, `p` lays the nodes `f` of its result. -/
structure Lays {α : Type} (f : α → List Node) (p : Parse α) : Prop where
  run : ∀ {c a d}, c.Stands source → p ⟨true, limit⟩ c = .ok (a, d) →
    c.Reaches source d ∧ Row source limit (f a) c d

abbrev Bare {α : Type} : α → List Node := fun _ => []

/-- The nodes `ns` were laid since `b`, and if `moved`, some token was passed over. -/
structure Since (moved : Bool) (b : Cursor) (ns : List Node) (c : Cursor) : Prop where
  reaches : b.Reaches source c
  moved : moved = true → b.here < c.behind
  row : Row source limit ns b c

/-- From where the nodes `ns` were laid since `b`, `p` goes on to `K`. -/
structure Extends {α : Type} (moved : Bool) (b : Cursor) (ns : List Node) (p : Parse α)
    (K : α → Cursor → Prop) : Prop where
  run : ∀ {c a d}, Since source limit moved b ns c → p ⟨true, limit⟩ c = .ok (a, d) → K a d

/-- All of a node was laid since `b`, but for what its own parser is. -/
structure Completes (b : Cursor) (n : Node) (d : Cursor) : Prop where
  reaches : b.Reaches source d
  moved : b.here < d.behind
  location : n.location = some ⟨b.current.location.start, d.lastStop⟩
  nested : n.Nested
  laid : ∀ m ∈ n.children, m.Laid source limit

variable {source limit} {α β : Type} {f : α → List Node} {g : β → List Node} {p : Parse α}
variable {ns : List Node} {n : Node} {moved : Bool} {b c d : Cursor}

theorem Completes.result (h : Completes source limit b n d) (hn : n.Parsed source limit) :
    b.Reaches source d ∧ Row source limit [n] b d :=
  ⟨h.reaches, .single ⟨⟨_, h.location, Nat.le_refl _, h.moved, Nat.le_refl _⟩,
    Node.laid_iff.2 ⟨h.nested, hn, h.laid⟩⟩⟩

theorem Since.step (h : Since source limit moved b ns c) (hp : Lays source limit f p) {a : α}
    (ha : p ⟨true, limit⟩ c = .ok (a, d)) : Since source limit moved b (ns ++ f a) d := by
  obtain ⟨hreaches, hrow⟩ := hp.run h.reaches.stands ha
  refine ⟨h.reaches.trans hreaches, fun hm => ?_, h.row.append h.reaches hrow hreaches⟩
  exact Nat.lt_of_lt_of_le (h.moved hm) hreaches.behind_le

theorem Since.completes (h : Since source limit true b ns d)
    (hlocation : n.location = some ⟨b.current.location.start, d.lastStop⟩)
    (hchildren : n.children = ns ∨ n.Fixed ∧ n.children ⊆ ns)
    (hends : ∀ c ∈ n.links, ∃ k, c.location = some k ∧ k.stop = d.lastStop) :
    Completes source limit b n d := by
  have hsub : n.children ⊆ ns := by
    obtain rfl | ⟨-, hsub⟩ := hchildren
    · exact List.Subset.refl _
    · exact hsub
  refine ⟨h.reaches, h.moved rfl, hlocation, ⟨fun m hm => ?_, fun hfree => ?_, fun c hc => ?_⟩,
    fun m hm => (h.row.fits m (hsub hm)).laid⟩
  · obtain ⟨k, hk, hstart, hne, hstop⟩ := (h.row.fits m (hsub hm)).between
    exact ⟨k, _, hk, hlocation, hne, hstart, hstop⟩
  · obtain rfl | ⟨hfixed, -⟩ := hchildren
    · exact h.row.ordered
    · exact absurd hfixed hfree
  · obtain ⟨k, hk, hstop⟩ := hends c hc
    exact ⟨k, _, hk, hlocation, by rw [hstop]⟩

theorem Since.after (h : Since source limit moved c ns d) (hb : b.Reaches source c) :
    Since source limit moved b ns d where
  reaches := hb.trans h.reaches
  moved hm := Nat.lt_of_le_of_lt hb.here_le (h.moved hm)
  row := h.row.weaken hb.here_le (Nat.le_refl _)

theorem advance_since {l : Lexeme} (hc : c.Stands source)
    (h : Parse.advance ⟨true, limit⟩ c = .ok (l, d)) (hne : c.current.token ≠ .endOfInput) :
    Since source limit true c [] d ∧ d.lastStop = c.current.location.stop := by
  obtain ⟨hreaches, hmoved⟩ := hc.next (advance_ok.1 h).1
  obtain ⟨hpast, hstop⟩ := hmoved hne
  exact ⟨⟨hreaches, fun _ => hpast, .nil⟩, hstop⟩

theorem expect_since {m : Punctuation} {l : Lexeme} (hc : c.Stands source)
    (h : Parse.expect m ⟨true, limit⟩ c = .ok (l, d)) :
    l = c.current ∧ Since source limit true c [] d := by
  obtain ⟨x, e, hx, h⟩ := bind_ok.1 h
  obtain ⟨rfl, rfl⟩ := isAt_ok.1 hx
  split at h
  · next hat =>
    have hnote := hc.note (.literal (String.singleton m.char))
    have hne : (c.note (.literal (String.singleton m.char))).current.token ≠ .endOfInput := by
      rw [Cursor.current_note, of_decide_eq_true hat]
      exact nofun
    obtain ⟨hsince, -⟩ := advance_since hnote.stands h hne
    refine ⟨?_, hsince.after hnote⟩
    rw [← (advance_ok.1 h).2, Cursor.current_note]
  · cases h

theorem word_since {q : Lexeme → String → Parse α} {x : Expected} {a : α} (hc : c.Stands source)
    (h : (Parse.note x >>= fun _ => Parse.peek >>= fun l =>
      match l.token with
      | .word name => Parse.advance >>= fun _ => q l name
      | _ => Parse.fail) ⟨true, limit⟩ c = .ok (a, d)) :
    ∃ name e, Since source limit true c [] e ∧ q c.current name ⟨true, limit⟩ e = .ok (a, d) := by
  obtain ⟨_, _, hn, h⟩ := bind_ok.1 h
  obtain rfl := note_ok.1 hn
  obtain ⟨l, _, hpeek, h⟩ := bind_ok.1 h
  obtain ⟨hl, rfl⟩ := peek_ok.1 hpeek
  have hcurrent : c.current = l := by rw [← hl, Cursor.current_note]
  have hnote := hc.note x
  obtain ⟨token, location, text⟩ := l
  cases token with
  | word name =>
    obtain ⟨_, e, he, h⟩ := bind_ok.1 h
    obtain ⟨hsince, -⟩ := advance_since hnote.stands he (by rw [hl]; exact nofun)
    exact ⟨name, e, hsince.after hnote, hcurrent ▸ h⟩
  | _ => cases h

namespace Extends

variable {K : β → Cursor → Prop}

theorem step {q : α → Parse β} (hp : Lays source limit f p)
    (hq : ∀ a, Extends source limit moved b (ns ++ f a) (q a) K) :
    Extends source limit moved b ns (p >>= q) K where
  run h hr := by
    obtain ⟨x, e, hx, hr⟩ := bind_ok.1 hr
    exact (hq x).run (h.step hp hx) hr

theorem skip {q : α → Parse β} (hp : Lays source limit Bare p)
    (hq : ∀ a, Extends source limit moved b ns (q a) K) :
    Extends source limit moved b ns (p >>= q) K := by
  refine step hp fun a => ?_
  rw [List.append_nil]
  exact hq a

theorem ite {x : Prop} [Decidable x] {p p' : Parse β}
    (h : Extends source limit moved b ns p K) (h' : Extends source limit moved b ns p' K) :
    Extends source limit moved b ns (if x then p else p') K := by
  by_cases hx : x
  · rwa [if_pos hx]
  · rwa [if_neg hx]

theorem refuse {x : Fault} : Extends source limit moved b ns (throw x) K := ⟨nofun⟩

theorem fail : Extends source limit moved b ns Parse.fail K := ⟨nofun⟩

theorem pure {a : β} (h : ∀ {c}, Since source limit moved b ns c → K a c) :
    Extends source limit moved b ns (Pure.pure a) K where
  run := by
    rintro c _ _ hc ⟨⟩
    exact h hc

theorem andThen {q : α → Parse β} {moved' : Bool} {ms : α → List Node}
    (hp : Extends source limit moved b ns p fun a => Since source limit moved' b (ms a))
    (hq : ∀ a, Extends source limit moved' b (ms a) (q a) K) :
    Extends source limit moved b ns (p >>= q) K where
  run h hr := by
    obtain ⟨x, e, hx, hr⟩ := bind_ok.1 hr
    exact (hq x).run (hp.run h hx) hr

theorem moves {p : Parse β} (hne : ns ≠ []) (h : Extends source limit true b ns p K) :
    Extends source limit moved b ns p K where
  run hc hr := h.run ⟨hc.reaches, fun _ => hc.row.moved hne, hc.row⟩ hr

theorem expect {m : Punctuation} {q : Lexeme → Parse β}
    (hq : ∀ l, Extends source limit true b ns (q l) K) :
    Extends source limit moved b ns (Parse.expect m >>= q) K where
  run h hr := by
    obtain ⟨l, e, he, hr⟩ := bind_ok.1 hr
    obtain ⟨hcurrent, hsince⟩ := expect_since h.reaches.stands he
    refine (hq l).run ⟨h.reaches.trans hsince.reaches, fun _ => ?_, ?_⟩ hr
    · exact Nat.lt_of_le_of_lt h.reaches.here_le (hsince.moved rfl)
    · exact h.row.weaken (Nat.le_refl _) hsince.reaches.behind_le

section Close

variable {mk : Option Location → β} {node : Option Location → Node}

theorem close (hK : ∀ {x d}, Completes source limit b (node x) d → K (mk x) d)
    (hlocation : ∀ x, (node x).location = x) (hlinks : ∀ x, (node x).links = [])
    (hchildren : ∀ x, (node x).children = ns ∨ (node x).Fixed ∧ (node x).children ⊆ ns) :
    Extends source limit true b ns
      (Parse.span b.current.location.start >>= fun x => Pure.pure (mk x)) K where
  run := by
    rintro c _ _ hc ⟨⟩
    refine hK (hc.completes (hlocation _) (hchildren _) ?_)
    rw [hlinks]
    exact nofun

theorem whole (hK : ∀ {x d}, Completes source limit b (node x) d → K (mk x) d)
    (hlocation : ∀ x, (node x).location = x) (hlinks : ∀ x, (node x).links = [])
    (hchildren : ∀ x, (node x).children = ns) :
    Extends source limit true b ns
      (Parse.span b.current.location.start >>= fun x => Pure.pure (mk x)) K :=
  close hK hlocation hlinks fun x => .inl (hchildren x)

theorem fixed (hK : ∀ {x d}, Completes source limit b (node x) d → K (mk x) d)
    (hlocation : ∀ x, (node x).location = x) (hfixed : ∀ x, (node x).Fixed)
    (hchildren : ∀ x, (node x).children ⊆ ns) :
    Extends source limit true b ns
      (Parse.span b.current.location.start >>= fun x => Pure.pure (mk x)) K :=
  close hK hlocation (fun x => Node.links_of_fixed (hfixed x)) fun x =>
    .inr ⟨hfixed x, hchildren x⟩

end Close

end Extends

namespace Lays

theorem pure {a : α} (h : f a = []) : Lays source limit f (Pure.pure a) where
  run := by
    rintro c _ _ hc ⟨⟩
    exact ⟨hc.reaches, h ▸ .nil⟩

theorem andThen {q : α → Parse β} (hp : Lays source limit Bare p)
    (hq : ∀ a, Lays source limit g (q a)) : Lays source limit g (p >>= q) where
  run hc h := by
    obtain ⟨a, e, ha, hb⟩ := bind_ok.1 h
    obtain ⟨he, -⟩ := hp.run hc ha
    obtain ⟨hd, hrow⟩ := (hq a).run he.stands hb
    exact ⟨he.trans hd, hrow.weaken he.here_le (Nat.le_refl _)⟩

theorem bind {q : α → Parse β} (hp : Lays source limit f p) (hq : ∀ a, Lays source limit Bare (q a))
    (hg : ∀ {a b c d}, q a ⟨true, limit⟩ c = .ok (b, d) → g b = f a) :
    Lays source limit g (p >>= q) where
  run hc h := by
    obtain ⟨a, e, ha, hb⟩ := bind_ok.1 h
    obtain ⟨he, hrow⟩ := hp.run hc ha
    obtain ⟨hd, -⟩ := (hq a).run he.stands hb
    rw [hg hb]
    exact ⟨he.trans hd, hrow.weaken (Nat.le_refl _) hd.behind_le⟩

theorem map {k : α → β} (hp : Lays source limit f p) (h : ∀ a, g (k a) = f a) :
    Lays source limit g (p >>= fun a => Pure.pure (k a)) :=
  hp.bind (fun _ => pure rfl) fun hr => (pure_ok.1 hr).1 ▸ h _

theorem forget (hp : Lays source limit f p) : Lays source limit Bare p where
  run hc h := ⟨(hp.run hc h).1, .nil⟩

theorem ite {x : Prop} [Decidable x] {p' : Parse α} (h : Lays source limit f p)
    (h' : Lays source limit f p') : Lays source limit f (if x then p else p') := by
  by_cases hx : x
  · rwa [if_pos hx]
  · rwa [if_neg hx]

theorem refuse {x : Fault} : Lays source limit f (throw x) := ⟨nofun⟩

theorem fail : Lays source limit f Parse.fail := ⟨nofun⟩

theorem of_extends
    (h : ∀ b, Extends source limit false b [] p fun a => Since source limit false b (f a)) :
    Lays source limit f p where
  run hc hr := by
    have hsince := (h _).run ⟨hc.reaches, nofun, .nil⟩ hr
    exact ⟨hsince.reaches, hsince.row⟩

theorem atCurrent {q : Lexeme → Parse α}
    (h : ∀ {b a d} (l : Lexeme), b.Stands source → b.current = l →
      q l ⟨true, limit⟩ b = .ok (a, d) → b.Reaches source d ∧ Row source limit (f a) b d) :
    Lays source limit f (Parse.peek >>= q) where
  run hb hr := by
    obtain ⟨l, _, hpeek, hr⟩ := bind_ok.1 hr
    obtain ⟨hl, rfl⟩ := peek_ok.1 hpeek
    exact h l hb hl hr

theorem start {node : α → Node} {q : Lexeme → Parse α}
    (hn : ∀ a, (node a).Parsed source limit)
    (h : ∀ b, Extends source limit false b [] (q b.current) fun a =>
      Completes source limit b (node a)) :
    Lays source limit (fun a => [node a]) (Parse.peek >>= q) := by
  refine atCurrent fun {b a d} l hb hl hr => ?_
  subst hl
  exact ((h b).run ⟨hb.reaches, nofun, .nil⟩ hr).result (hn a)

theorem loop {σ : Type} {step : σ → Parse (Option σ)} {nodes : σ → List Node}
    (h : ∀ s b ns, Extends source limit false b (ns ++ nodes s) (step s) fun r =>
      Since source limit false b (ns ++ nodes (r.getD s))) (turns : List Reading) (s : σ)
    (b : Cursor) (ns : List Node) :
    Extends source limit false b (ns ++ nodes s) (Parse.loop step turns s) fun a =>
      Since source limit false b (ns ++ nodes a) := by
  induction turns generalizing s with
  | nil => exact .pure id
  | cons _ more ih =>
    refine ⟨fun hc hr => ?_⟩
    obtain ⟨r, e, he, hr⟩ := bind_ok.1 hr
    have hsince := (h s b ns).run hc he
    cases r with
    | none =>
      obtain ⟨rfl, rfl⟩ := pure_ok.1 hr
      exact hsince
    | some s' => exact (ih s').run hsince hr

theorem collect {node : α → Node} {isLast : α → Bool} {item : Parse (Option α)}
    (h : Lays source limit (fun r => r.toList.map node) item) (turns : List Reading) :
    Lays source limit (fun as => as.map node) (Parse.collect isLast item turns) := by
  induction turns with
  | nil => exact pure rfl
  | cons _ more ih =>
    refine of_extends fun b => .step h fun r => ?_
    cases r with
    | none => exact .pure id
    | some a => exact .ite (.pure id) (.step ih fun as => .pure id)

theorem manyUntil {node : α → Node} {isLast : α → Bool} {item : Parse (Option α)}
    (h : Lays source limit (fun r => r.toList.map node) item) :
    Lays source limit (fun as => as.map node) (Parse.manyUntil isLast item) :=
  ⟨fun hc => (collect h _).run hc⟩

section Tokens

variable {x : Expected} {m : Punctuation} {word : String}

theorem note : Lays source limit Bare (Parse.note x) where
  run := by
    rintro c _ _ hc ⟨⟩
    exact ⟨hc.note x, .nil⟩

theorem peek : Lays source limit Bare Parse.peek where
  run := by
    rintro c _ _ hc ⟨⟩
    exact ⟨hc.reaches, .nil⟩

theorem advance : Lays source limit Bare Parse.advance where
  run hc h := ⟨(hc.next (advance_ok.1 h).1).1, .nil⟩

theorem isAt : Lays source limit Bare (Parse.isAt m) :=
  note.andThen fun _ => peek.andThen fun _ => pure rfl

theorem eat : Lays source limit Bare (Parse.eat m) :=
  isAt.andThen fun _ => .ite (advance.andThen fun _ => pure rfl) (pure rfl)

theorem expect : Lays source limit Bare (Parse.expect m) :=
  isAt.andThen fun _ => .ite advance fail

theorem nextTag : Lays source limit Bare Parse.nextTag := by
  refine note.andThen fun _ => peek.andThen fun l => ?_
  obtain ⟨token, location, text⟩ := l
  cases token with
  | tag name => exact advance.andThen fun _ => pure rfl
  | _ => exact pure rfl

theorem isAtString : Lays source limit Bare Parse.isAtString := by
  refine peek.andThen fun l => ?_
  obtain ⟨token, location, text⟩ := l
  cases token <;> exact pure rfl

theorem isAtStringList : Lays source limit Bare Parse.isAtStringList := by
  refine note.andThen fun _ => note.andThen fun _ => peek.andThen fun l => ?_
  obtain ⟨token, location, text⟩ := l
  cases token <;> exact pure rfl

theorem commaSeparated {node : α → Node} (h : Lays source limit (fun a => [node a]) p) :
    Lays source limit (fun as => as.map node) (Parse.commaSeparated p) := by
  have hitem : Lays source limit (fun r => r.toList.map node) (afterComma p) :=
    eat.andThen fun _ => .ite (h.map fun _ => rfl) (pure rfl)
  exact of_extends fun b => .step h fun a => .step (manyUntil hitem) fun as => .pure id

end Tokens

end Lays

end Lays

end MailSieve
