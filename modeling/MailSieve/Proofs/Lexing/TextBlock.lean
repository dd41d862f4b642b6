import MailSieve.Token.TextBlock

/-! Multi-line literals are read back.
Stuffed lines are no dot lines and unstuff to themselves, so the first dot line behind them is the
one that ends the literal. The carriage return of a last line break is the literal's only if the dot
line has one as well. -/

namespace MailSieve

namespace Text

variable {s : List Char} {ss : List (List Char)}

theorem joinSegments_cons {s t : List Char} :
    joinSegments (s :: t :: ss) = s ++ '\n' :: joinSegments (t :: ss) := by
  simp [joinSegments, List.intercalate]

theorem segments_append_newline (s cs : List Char) :
    segments (s ++ '\n' :: cs) = segments s ++ segments cs := by
  induction s with
  | nil => simp [segments]
  | cons c s ih =>
    rw [List.cons_append, segments, segments, ih]
    split
    · rfl
    · obtain ⟨t, ts, ht⟩ := List.exists_cons_of_ne_nil (segments_ne_nil s)
      rw [ht]
      rfl

theorem segments_of_not_mem (h : '\n' ∉ s) : segments s = [s] := by
  induction s with
  | nil => rfl
  | cons c s ih =>
    rw [List.mem_cons, not_or] at h
    rw [segments, if_neg (Ne.symm h.1), ih h.2]

theorem segments_joinSegments (hne : ss ≠ []) (h : ∀ s ∈ ss, '\n' ∉ s) :
    segments (joinSegments ss) = ss := by
  induction ss with
  | nil => exact absurd rfl hne
  | cons s ss ih =>
    rw [List.forall_mem_cons] at h
    cases ss with
    | nil => simpa [joinSegments, List.intercalate] using segments_of_not_mem h.1
    | cons t ss =>
      rw [joinSegments_cons, segments_append_newline, segments_of_not_mem h.1,
        ih (by simp) h.2]
      rfl

theorem not_mem_segments (cs : List Char) : ∀ s ∈ segments cs, '\n' ∉ s := by
  induction cs with
  | nil => simp [segments]
  | cons c cs ih =>
    rw [segments]
    split
    · exact List.forall_mem_cons.2 ⟨by simp, ih⟩
    · next hc =>
      obtain ⟨t, ts, ht⟩ := List.exists_cons_of_ne_nil (segments_ne_nil cs)
      rw [ht, List.forall_mem_cons] at ih
      rw [ht]
      exact List.forall_mem_cons.2 ⟨by simpa [Ne.symm hc] using ih.1, ih.2⟩

theorem segments_flatMap (h : ∀ s ∈ ss, '\n' ∉ s) (cs : List Char) :
    segments (ss.flatMap (· ++ ['\n']) ++ cs) = ss ++ segments cs := by
  induction ss with
  | nil => rfl
  | cons s ss ih =>
    rw [List.forall_mem_cons] at h
    rw [List.flatMap_cons, List.append_assoc, List.append_assoc, List.singleton_append,
      segments_append_newline, segments_of_not_mem h.1, ih h.2]
    rfl

theorem joinSegments_newline (hne : ss ≠ []) (cs : List Char) :
    joinSegments ss ++ '\n' :: cs = ss.flatMap (· ++ ['\n']) ++ cs := by
  induction ss with
  | nil => exact absurd rfl hne
  | cons s ss ih =>
    cases ss with
    | nil => simp [joinSegments, List.intercalate]
    | cons t ss =>
      rw [joinSegments_cons, List.append_assoc, List.cons_append, ih (by simp)]
      simp

theorem joinSegments_concat (init : List (List Char)) (last cs : List Char) :
    joinSegments (init ++ [last ++ cs]) = joinSegments (init ++ [last]) ++ cs := by
  induction init with
  | nil => simp [joinSegments, List.intercalate]
  | cons s init ih =>
    cases init with
    | nil => simp [joinSegments, List.intercalate]
    | cons t init =>
      simp only [List.cons_append] at ih ⊢
      rw [joinSegments_cons, joinSegments_cons, ih, List.append_assoc, List.cons_append]

end Text

namespace TextBlock

open Text

variable {l value rest : List Char}

theorem unstuffLine_stuffLine (l : List Char) : unstuffLine (stuffLine l) = l := by
  unfold stuffLine
  split
  · rfl
  · next h =>
    unfold unstuffLine
    split
    · next cs => exact absurd rfl (h ('.' :: cs))
    · rfl

theorem isDotLine_iff : isDotLine l = true ↔ l = ['.'] ∨ l = ['.', '\r'] := by
  rw [isDotLine, stripEnd, beq_iff_eq]
  constructor
  · split
    · next h =>
      intro hd
      obtain ⟨init, rfl⟩ := List.getLast?_eq_some_iff.1 h
      rw [List.dropLast_concat] at hd
      exact .inr (by rw [hd]; rfl)
    · exact .inl
  · rintro (rfl | rfl) <;> rfl

theorem isDotLine_stuffLine (l : List Char) : isDotLine (stuffLine l) = false := by
  rw [Bool.eq_false_iff]
  intro hd
  unfold stuffLine at hd
  split at hd
  · rcases isDotLine_iff.1 hd with h | h <;> simp at h
  · next h => rcases isDotLine_iff.1 hd with rfl | rfl <;> exact h _ rfl

theorem splitAtDot_append_dot {lines more : List (List Char)} {dot : List Char}
    (h : ∀ l ∈ lines, isDotLine l = false) (hd : isDotLine dot = true) :
    splitAtDot (lines ++ dot :: more) = some (lines, dot, more) := by
  induction lines with
  | nil => rw [List.nil_append, splitAtDot, if_pos hd]
  | cons l lines ih =>
    rw [List.forall_mem_cons] at h
    rw [List.cons_append, splitAtDot, if_neg (by simp [h.1]), ih h.2]
    rfl

theorem segments_stuff (value : List Char) :
    segments (stuff value) = (segments value).map stuffLine := by
  refine segments_joinSegments (by simp [segments_ne_nil]) fun s hs => ?_
  obtain ⟨t, ht, rfl⟩ := List.mem_map.1 hs
  have hn := not_mem_segments value t ht
  unfold stuffLine
  split
  · simpa using hn
  · exact hn

theorem stuff_concat (value : List Char) : stuff (value ++ ['\r']) = stuff value ++ ['\r'] := by
  obtain ⟨init, last, hs⟩ : ∃ init last, segments value = init ++ [last] := by
    obtain h | ⟨init, last, h⟩ := List.eq_nil_or_concat (segments value)
    · exact absurd h (segments_ne_nil value)
    · exact ⟨init, last, by rw [h, List.concat_eq_append]⟩
  have hn := not_mem_segments value
  have hlast : stuffLine (last ++ ['\r']) = stuffLine last ++ ['\r'] := by
    cases last with
    | nil => rfl
    | cons c cs =>
      by_cases hc : c = '.'
      · subst hc
        rfl
      · simp [stuffLine, hc]
  have hv : segments (value ++ ['\r']) = init ++ [last ++ ['\r']] := by
    rw [← joinSegments_segments value, hs, ← joinSegments_concat]
    refine segments_joinSegments (by simp) fun s hm => ?_
    rw [hs] at hn
    obtain hm | hm := List.mem_append.1 hm
    · exact hn s (List.mem_append_left _ hm)
    · simpa [List.mem_singleton.1 hm] using hn last (by simp)
  rw [stuff, hv, List.map_append, List.map_singleton, hlast, joinSegments_concat, stuff, hs,
    List.map_append, List.map_singleton]

/-- Where a literal ends: with the input, or with a line feed before the rest of it. -/
inductive Ending where
  | input
  | line (more : List Char)

namespace Ending

def behind : Ending → List Char
  | input => []
  | line more => more

def lineBreak : Ending → List Char
  | input => []
  | line _ => ['\n']

def returns (crlf : Bool) (dot : List Char) : Ending → Bool
  | input => crlf
  | line _ => dot.getLast? == some '\r'

end Ending

theorem scanBody_lines {lines : List (List Char)} {dot : List Char}
    (hlines : ∀ l ∈ lines, '\n' ∉ l ∧ isDotLine l = false) (hd : isDotLine dot = true)
    (hn : '\n' ∉ dot) (crlf : Bool) (lead : List Char) (e : Ending) :
    ∃ text, scanBody crlf lead (lines.flatMap (· ++ ['\n']) ++ (dot ++ (e.lineBreak ++ e.behind)))
      = .closed (valueOf (e.returns crlf dot) lines) text e.behind := by
  have hsplit (more : List (List Char)) :
      splitAtDot (lines ++ dot :: more) = some (lines, dot, more) :=
    splitAtDot_append_dot (fun l hl => (hlines l hl).2) hd
  have hsegments := segments_flatMap fun l hl => (hlines l hl).1
  cases e with
  | input =>
    change ∃ text, scanBody crlf lead (lines.flatMap _ ++ (dot ++ [])) = _
    rw [List.append_nil, scanBody, hsegments, segments_of_not_mem hn, hsplit]
    exact ⟨_, rfl⟩
  | line more =>
    obtain ⟨s, ss, hs⟩ := List.exists_cons_of_ne_nil (segments_ne_nil more)
    change ∃ text, scanBody crlf lead (lines.flatMap _ ++ (dot ++ '\n' :: more)) = _
    rw [scanBody, hsegments, segments_append_newline, segments_of_not_mem hn, List.singleton_append,
      hsplit, hs]
    dsimp only
    rw [← hs, joinSegments_segments]
    exact ⟨_, rfl⟩

theorem scanBody_stuff (crlf : Bool) (lead value rest dot : List Char)
    (hd : isDotLine dot = true) (hn : '\n' ∉ dot) :
    ∃ text, scanBody crlf lead (stuff value ++ '\n' :: (dot ++ '\n' :: rest))
      = .closed (if dot.getLast? = some '\r' then stripEnd '\r' value else value) text rest := by
  have hlines : ∀ l ∈ (segments value).map stuffLine, '\n' ∉ l ∧ isDotLine l = false := by
    intro l hl
    refine ⟨not_mem_segments (stuff value) l (segments_stuff value ▸ hl), ?_⟩
    obtain ⟨t, -, rfl⟩ := List.mem_map.1 hl
    exact isDotLine_stuffLine t
  have hvalue : joinSegments (((segments value).map stuffLine).map unstuffLine) = value := by
    rw [List.map_map, show unstuffLine ∘ stuffLine = id from funext unstuffLine_stuffLine,
      List.map_id, joinSegments_segments]
  obtain ⟨text, ht⟩ := scanBody_lines hlines hd hn crlf lead (.line rest)
  refine ⟨text, ?_⟩
  rw [stuff, joinSegments_newline (by simp [segments_ne_nil])]
  simpa only [valueOf, hvalue, Ending.returns, Ending.behind, Ending.lineBreak, beq_iff_eq,
    List.singleton_append] using ht

/-- A literal is read back whatever its line breaks are, if they are all of one kind. -/
theorem scanTextBlock_stuff {newline : List Char} (h : newline = ['\n'] ∨ newline = ['\r', '\n'])
    (value rest : List Char) :
    ∃ text, scanTextBlock (newline ++ (stuff value ++ (newline ++ '.' :: (newline ++ rest))))
      = .closed value text rest := by
  obtain rfl | rfl := h
  · obtain ⟨text, ht⟩ := scanBody_stuff false ['\n'] value rest ['.'] rfl (by simp)
    exact ⟨text, ht⟩
  · obtain ⟨text, ht⟩ := scanBody_stuff true ['\r', '\n'] (value ++ ['\r']) rest ['.', '\r'] rfl
      (by simp)
    refine ⟨text, ?_⟩
    have hlast : ['.', '\r'].getLast? = some '\r' := rfl
    rw [stuff_concat, if_pos hlast, stripEnd, if_pos (by simp), List.dropLast_concat,
      List.append_assoc] at ht
    exact ht

end TextBlock

end MailSieve
