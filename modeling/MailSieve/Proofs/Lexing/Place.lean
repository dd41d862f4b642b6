import MailSieve.Proofs.Lexing.Lexed

/-! Where the tokens of a source stand.
Every token stands between two prefixes of the text, so no place lies behind the end of the text.
Lines and columns never count more than bytes do. -/

namespace MailSieve

namespace Position

theorem offset_next (p : Position) (c : Char) : (p.next c).offset = p.offset + c.utf8Size := by
  rw [next]
  split <;> rfl

theorem offset_after (p : Position) (cs : List Char) :
    (p.after cs).offset = p.offset + (String.ofList cs).utf8ByteSize := by
  induction cs generalizing p with
  | nil => rfl
  | cons c cs ih =>
    rw [after_cons, ih, offset_next, String.ofList_cons, String.utf8ByteSize_append,
      String.utf8ByteSize_singleton, Nat.add_assoc]

theorem offset_le_after (p : Position) (cs : List Char) : p.offset ≤ (p.after cs).offset := by
  rw [offset_after]
  exact Nat.le_add_right _ _

def Counted (p : Position) : Prop := p.line ≤ p.offset + 1 ∧ p.column ≤ p.offset + 1

theorem Counted.next {p : Position} (h : p.Counted) (c : Char) : (p.next c).Counted := by
  have hc := c.utf8Size_pos
  obtain ⟨hline, hcolumn⟩ := h
  rw [Position.next, Counted]
  split <;> constructor <;> dsimp only <;> omega

theorem Counted.after {p : Position} (h : p.Counted) (cs : List Char) : (p.after cs).Counted := by
  induction cs generalizing p with
  | nil => exact h
  | cons c cs ih => exact ih (h.next c)

end Position

/-- Where a reading stands, be it a token or none. -/
def Reading.location : Reading → Location
  | .ok l => l.location
  | .error m => m.location

section Readings

variable {p : Position} {cs : List Char} {r : Reading} {P : Position → Prop}

theorem reading_location : ((scan cs).reading p).location = (scan cs).locate p := by
  rw [Scan.reading]
  split <;> rfl

theorem location_of_reading {l : Lexeme} (h : (scan cs).reading p = .ok l) :
    l.location = (scan cs).locate p := by
  have hloc : ((scan cs).reading p).location = (scan cs).locate p := reading_location
  rwa [h] at hloc

theorem readingsFrom_head {l : Lexeme} {more : List Reading}
    (h : readingsFrom p cs = .ok l :: more) :
    (scan cs).outcome = .ok l.token ∧ l.location = (scan cs).locate p :=
  ⟨reading_ok (reading_of_readingsFrom h), location_of_reading (reading_of_readingsFrom h)⟩

theorem readingsFrom_tail {l : Lexeme} {more : List Reading}
    (h : readingsFrom p cs = .ok l :: more) (hne : l.token ≠ .endOfInput) :
    readingsFrom l.location.stop (scan cs).rest = more := by
  obtain ⟨hout, hlocation⟩ := readingsFrom_head h
  rw [readingsFrom_more (not_atEnd hout hne)] at h
  rw [hlocation]
  exact (List.cons.inj h).2

theorem scan_split {lead rest : List Char} (h : (scan cs).rest = lead ++ rest) :
    cs = (scan cs).before ++ ((scan cs).text ++ lead) ++ rest := by
  rw [List.append_assoc, List.append_assoc, ← h]
  exact (scan_append cs).symm

theorem after_scan_split (p : Position) (cs lead : List Char) :
    p.after ((scan cs).before ++ ((scan cs).text ++ lead))
      = ((scan cs).locate p).stop.after lead := by
  rw [Position.after_append, Position.after_append]
  rfl

theorem reading_spanned (hP : ∀ lead rest, cs = lead ++ rest → P (p.after lead)) :
    P ((scan cs).reading p).location.start ∧ P ((scan cs).reading p).location.stop := by
  have hall : cs = (scan cs).before ++ ((scan cs).text ++ (scan cs).rest) := (scan_append cs).symm
  rw [reading_location]
  refine ⟨hP _ _ hall, ?_⟩
  change P ((p.after (scan cs).before).after (scan cs).text)
  rw [← Position.after_append]
  exact hP _ (scan cs).rest (by rw [List.append_assoc]; exact hall)

/-- What holds after every prefix of a text holds where its readings begin and end. -/
theorem readingsFrom_spanned (hP : ∀ lead rest, cs = lead ++ rest → P (p.after lead))
    (h : r ∈ readingsFrom p cs) : P r.location.start ∧ P r.location.stop := by
  fun_induction readingsFrom p cs with
  | case1 p cs s hend =>
    rw [List.mem_singleton.1 h]
    exact reading_spanned hP
  | case2 p cs s hmore ih =>
    obtain rfl | h := List.mem_cons.1 h
    · exact reading_spanned hP
    · refine ih (fun lead rest hrest => ?_) h
      have hlead := hP _ _ (scan_split hrest)
      rwa [after_scan_split] at hlead

theorem readingsFrom_start_le (h : r ∈ readingsFrom p cs) :
    p.offset ≤ r.location.start.offset :=
  (readingsFrom_spanned (P := fun q => p.offset ≤ q.offset)
    (fun _ _ _ => Position.offset_le_after _ _) h).1

theorem readingsFrom_ordered (p : Position) (cs : List Char) :
    (readingsFrom p cs).Pairwise
      fun r r' => r.location.start.offset ≤ r'.location.start.offset := by
  fun_induction readingsFrom p cs with
  | case1 => exact List.pairwise_singleton _ _
  | case2 p cs s hmore ih =>
    refine List.pairwise_cons.2 ⟨fun r hr => ?_, ih⟩
    rw [reading_location]
    exact Nat.le_trans (Position.offset_le_after _ _) (readingsFrom_start_le hr)

end Readings

end MailSieve
