import MailSieve.Grammar.Cursor

/-! What a cursor shows and passes over.
`Shows` is the whole of the tokens from a cursor on, where all of them can be read. `Passes` is the
stretch of tokens from one cursor to another, with whatever stands behind it. A cursor is `Ended` if
the last of its readings is the end of the input, as all readings of a source are; otherwise it
could stay where it is when it moves on. -/

namespace MailSieve.Cursor

def Shows (c : Cursor) (ts : List Token) : Prop :=
  ∃ ls : List Lexeme, c.remaining = ls.map .ok ∧ ls.map (·.token) = ts

def Passes (c : Cursor) (ts : List Token) (d : Cursor) : Prop :=
  ∃ ls : List Lexeme, c.remaining = ls.map .ok ++ d.remaining ∧ ls.map (·.token) = ts

def Ended (c : Cursor) : Prop :=
  ∃ l : Lexeme, c.remaining.getLast? = some (.ok l) ∧ l.token = .endOfInput

variable {c d e : Cursor} {ts us : List Token} {t : Token}

@[simp] theorem remaining_note (c : Cursor) (x : Expected) :
    (c.note x).remaining = c.remaining := by
  rw [note]
  split <;> rfl

@[simp] theorem current_note (c : Cursor) (x : Expected) : (c.note x).current = c.current := by
  rw [note]
  split <;> rfl

@[simp] theorem shows_note (c : Cursor) (x : Expected) : (c.note x).Shows ts ↔ c.Shows ts := by
  simp [Shows]

@[simp] theorem passes_note (c : Cursor) (x : Expected) :
    (c.note x).Passes ts d ↔ c.Passes ts d := by
  simp [Passes]

@[simp] theorem ended_note (c : Cursor) (x : Expected) : (c.note x).Ended ↔ c.Ended := by
  simp [Ended]

theorem passes_refl (c : Cursor) : c.Passes [] c := ⟨[], rfl, rfl⟩

theorem passes_of_remaining (h : c.remaining = d.remaining) : c.Passes [] d := ⟨[], h, rfl⟩

theorem passes_note_right (c : Cursor) (x : Expected) : c.Passes [] (c.note x) :=
  ⟨[], by simp, rfl⟩

theorem Passes.trans (h : c.Passes ts d) (k : d.Passes us e) : c.Passes (ts ++ us) e := by
  obtain ⟨ls, hc, rfl⟩ := h
  obtain ⟨ms, hd, rfl⟩ := k
  exact ⟨ls ++ ms, by rw [hc, hd, List.map_append, List.append_assoc], by simp⟩

theorem Passes.length_eq (h : c.Passes ts d) :
    c.remaining.length = ts.length + d.remaining.length := by
  obtain ⟨ls, hc, rfl⟩ := h
  simp [hc]

theorem Passes.current (h : c.Passes ts d) : c.current.token = ts.headD d.current.token := by
  obtain ⟨ls, hc, rfl⟩ := h
  cases ls with
  | nil =>
    simp only [remaining, List.map_nil, List.nil_append, List.cons.injEq, Except.ok.injEq] at hc
    simp [hc.1]
  | cons l ls =>
    simp only [remaining, List.map_cons, List.cons_append, List.cons.injEq, Except.ok.injEq] at hc
    simp [hc.1]

theorem Passes.ended (h : c.Passes ts d) (k : c.Ended) : d.Ended := by
  obtain ⟨ls, hc, rfl⟩ := h
  obtain ⟨l, hl, ht⟩ := k
  refine ⟨l, ?_, ht⟩
  rw [hc, List.getLast?_append, remaining] at hl
  rw [remaining]
  simpa [List.getLast?_cons] using hl

theorem Shows.current (h : c.Shows (t :: ts)) : c.current.token = t := by
  obtain ⟨ls, hc, ht⟩ := h
  cases ls with
  | nil => simp at ht
  | cons l ls =>
    simp only [remaining, List.map_cons, List.cons.injEq, Except.ok.injEq] at hc ht
    rw [hc.1, ht.1]

theorem Shows.current_append (h : c.Shows (ts ++ t :: us)) : c.current.token = ts.headD t := by
  cases ts with
  | nil => exact h.current
  | cons u ts => exact Shows.current h

theorem Shows.length_eq (h : c.Shows ts) : c.remaining.length = ts.length := by
  obtain ⟨ls, hc, rfl⟩ := h
  simp [hc]

theorem Passes.shorter {n : Nat} (h : c.Passes ts d) (hts : ts ≠ [])
    (hn : c.remaining.length ≤ n + 1) : d.remaining.length ≤ n := by
  have hl := h.length_eq
  have hp := List.length_pos_iff.2 hts
  omega

theorem Shows.shorter {n : Nat} (h : c.Shows (ts ++ us)) (k : d.Shows us) (hts : ts ≠ [])
    (hn : c.remaining.length ≤ n + 1) : d.remaining.length ≤ n := by
  have hcl := h.length_eq
  have hdl := k.length_eq
  have hp := List.length_pos_iff.2 hts
  rw [List.length_append] at hcl
  omega

theorem exists_turn {turns : List Reading} (h : c.remaining.length ≤ turns.length) :
    ∃ r more, turns = r :: more :=
  List.exists_cons_of_length_pos (Nat.lt_of_lt_of_le (by simp [remaining]) h)

theorem append_eq_headD_cons (ts : List Token) (t : Token) (us : List Token) :
    ∃ vs, ts ++ t :: us = ts.headD t :: vs := by
  cases ts <;> exact ⟨_, rfl⟩

theorem Shows.next (h : c.Shows (t :: ts)) (hn : ts ≠ []) : ∃ d, c.next = .ok d ∧ d.Shows ts := by
  obtain ⟨ls, hc, ht⟩ := h
  match ls with
  | [] => simp at ht
  | [l] => simp_all
  | l :: m :: ls =>
    simp only [remaining, List.map_cons, List.cons.injEq] at hc ht
    refine ⟨⟨m, ls.map .ok, c.current.location.stop, []⟩, by rw [Cursor.next, hc.2], m :: ls, ?_⟩
    exact ⟨by simp [remaining], by simpa using ht.2⟩

theorem next_passes (h : c.next = .ok d) (hc : c.Ended) (ht : c.current.token ≠ .endOfInput) :
    c.Passes [c.current.token] d := by
  obtain ⟨l, hl, hle⟩ := hc
  rw [Cursor.next] at h
  split at h
  · next ha =>
    rw [remaining, ha] at hl
    simp only [List.getLast?_singleton, Option.some.injEq, Except.ok.injEq] at hl
    exact absurd (hl ▸ hle) ht
  · cases h
  · next m ahead ha =>
    cases h
    exact ⟨[c.current], by simp [remaining, ha], rfl⟩

end MailSieve.Cursor
