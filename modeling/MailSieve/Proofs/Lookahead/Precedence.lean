import MailSieve.Proofs.Lexing.Place
import MailSieve.Proofs.Lexing.Prefix
import MailSieve.Proofs.Lookahead.Grammar
import MailSieve.Script.Equality

/-! Which of two faults is reported.
A source whose report is a place that is no token is compared with its text before that place. A
missing alternative in that text would have been reported instead, but some causes are found only
after the parser has moved on, and it may have moved on to the place. -/

namespace MailSieve

/-- Such a cause can be found after moving on from what it reports. -/
def Fault.Delayed : Fault → Prop
  | lexical _ | unexpected _ _ _ => False
  | _ => True

section Text

/-- As many whole characters as fit into `n` bytes. -/
def firstBytes : (n : Nat) → List Char → List Char
  | _, [] => []
  | n, c :: cs => if c.utf8Size ≤ n then c :: firstBytes (n - c.utf8Size) cs else []

theorem firstBytes_append (p : Position) (cs ds : List Char) :
    firstBytes ((p.after cs).offset - p.offset) (cs ++ ds) = cs := by
  induction cs generalizing p with
  | nil =>
    cases ds with
    | nil => rfl
    | cons d ds =>
      have hd := d.utf8Size_pos
      rw [Position.after_nil, Nat.sub_self, List.nil_append, firstBytes, if_neg (by omega)]
  | cons c cs ih =>
    have hle := Position.offset_le_after (p.next c) cs
    have hcs := ih (p.next c)
    rw [Position.offset_next] at hle hcs
    rw [Position.after_cons, List.cons_append, firstBytes, if_pos (by omega), Nat.sub_sub, hcs]

/-- The text before byte `n`. -/
def Script.upTo (source : String) (n : Nat) : String := String.ofList (firstBytes n source.toList)

end Text

section Tokens

variable {p : Position} {cs : List Char} {l : Lexeme}

/-- The tokens up to the end of the input or to the first place that is none. -/
def leadingTokens : List Reading → List Lexeme
  | .ok l :: rs => if l.token = .endOfInput then [] else l :: leadingTokens rs
  | _ => []

theorem mem_of_mem_leadingTokens {rs : List Reading} (h : l ∈ leadingTokens rs) : .ok l ∈ rs := by
  fun_induction leadingTokens rs with
  | case1 => cases h
  | case2 k rs _ ih =>
    obtain rfl | h := List.mem_cons.1 h
    · exact List.mem_cons_self
    · exact List.mem_cons_of_mem _ (ih h)
  | case3 => cases h

/-- Where the last of the tokens ends. -/
def lastTokenStop (source : String) : Nat :=
  ((leadingTokens (readings source)).getLast?.map (·.location.stop.offset)).getD 0

theorem readingsFrom_stop_le (h : .ok l ∈ readingsFrom p cs) :
    l.location.stop.offset ≤ (p.after cs).offset := by
  refine (readingsFrom_spanned (P := fun q => q.offset ≤ (p.after cs).offset) ?_ h).2
  rintro lead rest rfl
  rw [Position.after_append]
  exact Position.offset_le_after _ _

theorem lastTokenStop_le (source : String) :
    lastTokenStop source ≤ (Position.origin.after source.toList).offset := by
  rw [lastTokenStop]
  cases hl : (leadingTokens (readings source)).getLast? with
  | none => exact Nat.zero_le _
  | some l => exact readingsFrom_stop_le (mem_of_mem_leadingTokens (List.mem_of_getLast? hl))

end Tokens

section Halted

variable {o : ParseOptions} {source : String} {f : Fault}

namespace Script

theorem parse_error : parse o source = .error f ↔
    Cursor.ofReadings (readings source) = .error f
      ∨ ∃ c, Cursor.ofReadings (readings source) = .ok c ∧ Parse.script o c = .error f := by
  rw [parse]
  cases Cursor.ofReadings (readings source) with
  | error g => simp [bind, Except.bind]
  | ok c => cases hs : Parse.script o c <;> simp [bind, Except.bind, pure, Except.pure, hs]

theorem parse_fault {rs : List Reading} (hrs : readings source = rs) (hne : rs ≠ [])
    (h : parse o source = .error f) : f.From rs := by
  obtain h | ⟨c, hc, h⟩ := parse_error.1 h
  · match rs, hne with
    | .error m :: more, _ =>
      rw [hrs] at h
      cases h
      exact ⟨more, .refl⟩
    | .ok l :: more, _ =>
      rw [hrs] at h
      cases h
  · match rs, hne with
    | .error m :: more, _ =>
      rw [hrs] at hc
      cases hc
    | .ok l :: more, _ =>
      rw [hrs] at hc
      cases hc
      exact (Tracks.script.stays _).fault h

/-- A reading that halts at a misreading stays within whatever stands in its place. -/
theorem parse_halts {m : Misreading} (h : parse o source = .error (.lexical m)) :
    ∃ (ls : List Lexeme) (more : List Reading),
      readings source = ls.map .ok ++ .error m :: more
      ∧ ∀ {source' : String} {tail : List Reading} {f : Fault}, tail ≠ [] →
        readings source' = ls.map .ok ++ tail → parse o source' = .error f → f.From tail := by
  obtain ⟨more, ls, hrs⟩ : (Fault.lexical m).From (readings source) :=
    parse_fault rfl (readings_ne_nil source) h
  cases ls with
  | nil =>
    obtain h | ⟨c, hc, -⟩ := parse_error.1 h
    · exact ⟨[], more, hrs, fun ht htail => parse_fault htail ht⟩
    · rw [hrs] at hc
      cases hc
  | cons l ls =>
    obtain h | ⟨c, hc, h⟩ := parse_error.1 h
    · rw [hrs] at h
      cases h
    · rw [hrs] at hc
      cases hc
      refine ⟨l :: ls, more, hrs, fun {source' tail f} ht htail hf => ?_⟩
      obtain hf | ⟨d, hd, hf⟩ := parse_error.1 hf
      · rw [htail] at hf
        cases hf
      · rw [htail] at hd
        cases hd
        exact ((Tracks.script.beside _ _).halts ht ⟨ls, rfl, rfl⟩ (Nat.le_refl _)
          (Nat.le_refl _) h).fault hf

/-- The text before byte `n` has no grammatical report before the end of its last token. -/
def Precedes (o : ParseOptions) (source : String) (n : Nat) : Prop :=
  ∀ f, parse o (upTo source n) = .error f → f.diagnostic.kind = .grammatical →
    lastTokenStop (upTo source n) ≤ f.diagnostic.location.start.offset

theorem unexpected_upTo {m : Misreading} (h : parse o source = .error (.lexical m))
    {location : Location} {found : Option String} {expected : List Expected}
    (hf : parse o (upTo source m.location.start.offset)
      = .error (.unexpected location found expected)) :
    lastTokenStop (upTo source m.location.start.offset) ≤ location.start.offset := by
  obtain ⟨ls, more, hrs, htail⟩ := parse_halts h
  obtain ⟨lead, rest, tail, hsource, hstart, hlead, ht⟩ := readingsFrom_lead hrs
  have hupTo : upTo source m.location.start.offset = String.ofList lead := by
    rw [upTo, hsource, hstart]
    exact congrArg String.ofList (firstBytes_append .origin lead rest)
  have hreadings : readings (String.ofList lead) = ls.map .ok ++ tail := by
    rw [readings, String.toList_ofList]
    exact hlead
  rw [hupTo] at hf ⊢
  obtain rfl | ⟨n, more, rfl⟩ := ht
  · obtain ⟨l, more, hl, rfl⟩ := htail (List.cons_ne_nil _ _) hreadings hf
    have hle := lastTokenStop_le (String.ofList lead)
    rw [String.toList_ofList, ← hstart] at hle
    rwa [hl.last]
  · obtain ⟨l, more, hl, -⟩ := htail (List.cons_ne_nil _ _) hreadings hf
    exact (Reaches.not_ok hl).elim

/-- A misreading hides nothing but the causes that are found too late. -/
theorem precedes_iff {m : Misreading} (h : parse o source = .error (.lexical m)) :
    Precedes o source m.location.start.offset ↔
      ∀ f, parse o (upTo source m.location.start.offset) = .error f → f.Delayed →
        lastTokenStop (upTo source m.location.start.offset)
          ≤ f.diagnostic.location.start.offset := by
  constructor
  · intro hp f hf hd
    refine hp f hf ?_
    cases f with
    | lexical | unexpected => exact hd.elim
    | _ => rfl
  · intro hp f hf hk
    cases f with
    | lexical n => cases hk
    | unexpected location found expected => exact unexpected_upTo h hf
    | _ => exact hp _ hf trivial

theorem precedes_keep : ∃ m, parse .standard "keep @" = .error (.lexical m)
    ∧ Precedes .standard "keep @" m.location.start.offset := by
  obtain ⟨h, hbefore⟩ : parse .standard "keep @" = .error (.lexical
        ⟨.unexpectedCharacter '@', ⟨⟨5, 1, 6⟩, ⟨6, 1, 7⟩⟩⟩)
      ∧ parse .standard "keep " = .error
        (.unexpected ⟨⟨5, 1, 6⟩, ⟨5, 1, 6⟩⟩ none [.tokenClass "tag", .literal ";"]) :=
    ⟨by decide +kernel, by decide +kernel⟩
  have hupTo : upTo "keep @" 5 = "keep " := rfl
  refine ⟨_, h, (precedes_iff h).2 fun f hf hd => ?_⟩
  rw [hupTo, hbefore] at hf
  cases hf
  exact hd.elim

/-- The tag is refused only after the parser has moved on. -/
theorem not_precedes_unknown_tag : ∃ m, parse .standard "keep :foo @" = .error (.lexical m)
    ∧ ¬ Precedes .standard "keep :foo @" m.location.start.offset := by
  obtain ⟨hbefore, hstop⟩ : parse .standard "keep :foo " = .error
        (.unknownTag "foo" ⟨⟨5, 1, 6⟩, ⟨9, 1, 10⟩⟩ ":foo" ["flags"])
      ∧ lastTokenStop "keep :foo " = 9 := ⟨by decide +kernel, by decide +kernel⟩
  refine ⟨⟨.unexpectedCharacter '@', ⟨⟨10, 1, 11⟩, ⟨11, 1, 12⟩⟩⟩, by decide +kernel, fun h => ?_⟩
  have hupTo : upTo "keep :foo @" 10 = "keep :foo " := rfl
  have hle := h _ (hupTo ▸ hbefore) rfl
  rw [hupTo, hstop] at hle
  exact absurd hle (by decide)

end Script

end Halted

end MailSieve
