import Mathlib.Data.List.DropRight
import MailSieve.Proofs.Lexing.Slice
import MailSieve.Proofs.Located.Recorded
import MailSieve.Proofs.Lookahead.Precedence

/-! Every place that is reported is counted right.
The places in tokens, reports and trees are all reached character by character. Each of them is what
one gets by counting the text before it anew: its bytes, its line feeds, and the characters behind
the last of these. -/

namespace MailSieve

def textBefore (source : String) (offset : Nat) : List Char :=
  (textBetween source 0 offset).toList

theorem textBefore_after {source : String} {lead rest : List Char}
    (h : source.toList = lead ++ rest) :
    textBefore source (Position.origin.after lead).offset = lead := by
  rw [textBefore, textBetween_before h, String.toList_ofList]

namespace Position

/-- A place of the source: it stands between two characters, its line is one more than the line
feeds before it, and its column one more than the characters behind the last of them. -/
structure In (source : String) (p : Position) : Prop where
  boundary : (String.Pos.Raw.mk p.offset).IsValid source
  line : p.line = 1 + (textBefore source p.offset).count '\n'
  column : p.column = 1 + ((textBefore source p.offset).rtakeWhile (· ≠ '\n')).length

theorem In.offset_le {source : String} {p : Position} (h : p.In source) :
    p.offset ≤ source.utf8ByteSize := h.boundary.le_rawEndPos

theorem line_after (p : Position) (cs : List Char) :
    (p.after cs).line = p.line + cs.count '\n' := by
  induction cs generalizing p with
  | nil => rfl
  | cons c cs ih =>
    rw [after_cons, ih, next]
    by_cases hc : c = '\n'
    · rw [if_pos hc, hc, List.count_cons_self]
      dsimp only
      omega
    · rw [if_neg hc, List.count_cons_of_ne hc]

theorem column_after_origin (cs : List Char) :
    (origin.after cs).column = 1 + (cs.rtakeWhile (· ≠ '\n')).length := by
  induction cs using List.reverseRecOn with
  | nil => rfl
  | append_singleton cs c ih =>
    rw [after_append, after_cons, after_nil, next, List.rtakeWhile_concat]
    by_cases hc : c = '\n'
    · simp [hc]
    · have hkeep : decide (c ≠ '\n') = true := decide_eq_true hc
      rw [if_neg hc, if_pos hkeep, List.length_append]
      dsimp only
      rw [ih, List.length_singleton, Nat.add_assoc]

theorem in_after {source : String} {lead rest : List Char} (h : source.toList = lead ++ rest) :
    (origin.after lead).In source := by
  have hbefore := textBefore_after h
  refine ⟨?_, ?_, ?_⟩
  · rw [String.Pos.Raw.isValid_iff_exists_append]
    refine ⟨String.ofList lead, String.ofList rest, ?_, ?_⟩
    · rw [← String.ofList_append, ← h, String.ofList_toList]
    · rw [offset_origin_after]
      rfl
  · rw [hbefore, line_after]
    rfl
  · rw [hbefore, column_after_origin]

end Position

namespace Location

def In (source : String) (l : Location) : Prop := l.start.In source ∧ l.stop.In source

end Location

theorem readings_in {source : String} {r : Reading} (h : r ∈ readings source) :
    r.location.In source :=
  readingsFrom_spanned (fun _ _ => Position.in_after) h

namespace Places

def among (o : ParseOptions) (source : String) : Places o where
  reading r := r ∈ readings source
  opens _ := True
  closes _ := True
  location _ := True
  start _ := trivial
  stop _ := trivial
  records _ _ _ := trivial

/-- The places of a source, which are recorded wherever something is. -/
def inside (o : ParseOptions) (source : String) : Places o :=
  spanned (·.In source) (∀ l ∈ ·, l.In source) fun l hstart hstop => by
    by_cases hl : o.locations = true
    · rw [if_pos hl]
      rintro _ ⟨⟩
      exact ⟨hstart, hstop⟩
    · rw [if_neg hl]
      nofun

end Places

namespace Script

variable {o : ParseOptions} {source : String} {f : Fault} {s : Script}

theorem origin_in (source : String) : Position.origin.In source := by
  have hnil : source.toList = [] ++ source.toList := rfl
  exact Position.in_after hnil

theorem parse_cites (h : parse o source = .error f) : f.Cites (· ∈ readings source) := by
  obtain h | ⟨c, hc, h⟩ := parse_error.1 h
  · cases hr : readings source with
    | nil => exact absurd hr (readings_ne_nil source)
    | cons r rs =>
      rw [hr] at h
      cases r with
      | error m =>
        cases h
        exact List.mem_cons_self
      | ok l => cases h
  · have hcontains : (Places.among o source).Contains c := by
      refine ⟨fun r hr => ?_, trivial⟩
      rwa [Cursor.ofReadings_remaining (readings_ne_nil source) hc] at hr
    exact (Gives.script (R := .among o source) trivial).fault hcontains h

theorem parse_fault_in (h : parse o source = .error f) : f.diagnostic.location.In source := by
  obtain ⟨r, hr, hlocation⟩ := (parse_cites h).location
  exact hlocation ▸ readings_in hr

theorem parse_in (h : parse o source = .ok s) : s.Obeys (Places.inside o source).law := by
  have horigin := origin_in source
  exact parse_placed (R := .inside o source) horigin horigin (fun _ => readings_in) h

/-- Places of the source are all that is reported: in tokens, where no token can be read, in the
report on a source that is no script, and throughout the tree of one that is. -/
theorem reported_in (source : String) :
    (∀ l, .ok l ∈ readings source → l.location.In source)
      ∧ (∀ m, .error m ∈ readings source → m.diagnostic.location.In source)
      ∧ (∀ o f, parse o source = .error f → f.diagnostic.location.In source)
      ∧ ∀ o s, parse o source = .ok s → s.Obeys { location := fun l => ∀ x ∈ l, x.In source } :=
  ⟨fun _ h => readings_in h, fun _ h => readings_in h, fun _ _ h => parse_fault_in h,
    fun _ _ h => parse_in h⟩

end Script

end MailSieve
