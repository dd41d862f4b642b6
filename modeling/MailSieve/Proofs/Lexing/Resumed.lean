import MailSieve.Proofs.Lexing.Order
import MailSieve.Proofs.Lexing.Sliced
import MailSieve.Proofs.Located.Place

/-! Reading on, past faults and past the end.
A scanner stands at a place of its source and can be called any number of times. Each call leads on
to a later place, until the end of the source is reached, where every further call stays; so there
are no more calls before it than the source has characters. A fault is reported up to where the next
call begins. -/

namespace MailSieve

open Trivia

/-- Where the next call begins, and what there is left to read. -/
structure Scanner where
  place : Position
  rest : List Char

namespace Scanner

def start (source : String) : Scanner := ⟨.origin, source.toList⟩

/-- What a call results in. -/
def read (s : Scanner) : Reading := (scan s.rest).reading s.place

/-- The scanner behind all that a call passes over. -/
def next (s : Scanner) : Scanner :=
  ⟨s.place.after ((scan s.rest).before ++ (scan s.rest).text), (scan s.rest).rest⟩

def after (source : String) (n : Nat) : Scanner := next^[n] (start source)

/-- Where a call cuts the source. -/
def slices (s : Scanner) : List Location :=
  (stepCuts s.rest).map fun c =>
    ⟨s.place.after c.lead, (s.place.after c.lead).after c.text⟩

/-- The end of the source has been reached. -/
def Done (s : Scanner) : Prop := ∃ l, s.read = .ok l ∧ l.token = .endOfInput

/-- What a call does, wherever in a source it begins. -/
structure Sound (source : String) (s : Scanner) : Prop where
  place : s.place.In source
  left : textBetween source s.place.offset source.utf8ByteSize = String.ofList s.rest
  moves : (s.Done ∧ s.next.place.offset = source.utf8ByteSize)
    ∨ (s.place.offset < s.next.place.offset ∧ s.next.place.offset ≤ source.utf8ByteSize)
  resumes : ∀ m, s.read = .error m → m.location.stop = s.next.place
  slices : ∀ l ∈ s.slices, l.In source ∧ l.start.offset ≤ l.stop.offset
  tells : Tells (s.slices.map fun l => textBetween source l.start.offset l.stop.offset)
    (scan s.rest).outcome

def At (source : String) (s : Scanner) : Prop :=
  ∃ lead, source.toList = lead ++ s.rest ∧ s.place = .after .origin lead

section Calls

variable {source : String} {s : Scanner} {n : Nat}

theorem next_place : s.next.place = ((scan s.rest).locate s.place).stop :=
  Position.after_append _ _ _

theorem done_iff : s.Done ↔ (scan s.rest).atEnd = true := reading_endOfInput

theorem at_start (source : String) : (start source).At source := ⟨[], rfl, rfl⟩

theorem At.next (h : s.At source) : s.next.At source := by
  obtain ⟨lead, hsource, hplace⟩ := h
  refine ⟨lead ++ ((scan s.rest).before ++ (scan s.rest).text), ?_, ?_⟩
  · rw [hsource, List.append_assoc, List.append_assoc]
    exact congrArg (lead ++ ·) (scan_append s.rest).symm
  · rw [Position.after_append, ← hplace]
    rfl

theorem at_after (source : String) (n : Nat) : (after source n).At source := by
  induction n with
  | zero => exact at_start source
  | succ n ih =>
    rw [after, Function.iterate_succ_apply']
    exact ih.next

theorem Done.next (h : s.Done) : s.next.rest = [] ∧ s.next.Done := by
  have hrest : s.next.rest = [] := (scan_end (done_iff.1 h)).2
  refine ⟨hrest, done_iff.2 ?_⟩
  rw [hrest]
  rfl

theorem At.done_offset (h : s.At source) (hd : s.Done) :
    s.next.place.offset = source.utf8ByteSize := by
  obtain ⟨lead, hsource, hplace⟩ := h.next
  rw [hd.next.1, List.append_nil] at hsource
  rw [hplace, ← hsource, Position.offset_origin_after, String.ofList_toList]

theorem At.place_in (h : s.At source) : s.place.In source := by
  obtain ⟨lead, hsource, hplace⟩ := h
  exact hplace ▸ Position.in_after hsource

theorem At.slice (h : s.At source) {c : Cut} (hc : c.In s.rest) :
    let l : Location := ⟨s.place.after c.lead, (s.place.after c.lead).after c.text⟩
    l.In source ∧ textBetween source l.start.offset l.stop.offset = String.ofList c.text := by
  obtain ⟨lead, hsource, hplace⟩ := h
  obtain ⟨tail, htail⟩ := hc
  have hstart : source.toList = (lead ++ c.lead) ++ (c.text ++ tail) := by
    rw [hsource, ← htail, List.append_assoc, List.append_assoc]
  have hstop : source.toList = (lead ++ c.lead ++ c.text) ++ tail := by
    rw [hstart, List.append_assoc (lead ++ c.lead)]
  intro l
  have hl : l = ⟨.after .origin (lead ++ c.lead), .after .origin (lead ++ c.lead ++ c.text)⟩ := by
    rw [Position.after_append _ (lead ++ c.lead), Position.after_append, ← hplace]
  refine ⟨?_, ?_⟩
  · rw [hl]
    exact ⟨Position.in_after hstart, Position.in_after hstop⟩
  · rw [hl, Position.after_append _ (lead ++ c.lead)]
    exact textBetween_after hstart

theorem At.sound (h : s.At source) : s.Sound source where
  place := h.place_in
  left := by
    obtain ⟨lead, hsource, hplace⟩ := h
    rw [hplace, textBetween_behind hsource]
  moves := by
    by_cases hend : (scan s.rest).atEnd = true
    · exact .inl ⟨done_iff.2 hend, h.done_offset (done_iff.2 hend)⟩
    · refine .inr ⟨?_, h.next.place_in.offset_le⟩
      exact Position.offset_lt_after _ ((scan_moves s.rest).resolve_left hend)
  resumes m hm := by
    have hlocation : ((scan s.rest).reading s.place).location = (scan s.rest).locate s.place :=
      reading_location
    rw [read] at hm
    rw [hm] at hlocation
    rw [next_place, ← hlocation]
    rfl
  slices := List.forall_mem_map.2 fun c hc =>
    ⟨(h.slice (stepCuts_in c hc)).1, Position.offset_le_after _ _⟩
  tells := by
    have htexts : (s.slices.map fun l => textBetween source l.start.offset l.stop.offset)
        = textsOf (tokenCuts (skipTrivia s.rest).2) := by
      rw [Scanner.slices, stepCuts, List.map_map, List.map_map, textsOf]
      refine List.map_congr_left fun c hc => ?_
      exact (h.slice (stepCuts_in _ (List.mem_map_of_mem hc))).2
    rw [htexts]
    exact token_tells

/-- The readings of a text are what the calls result in, up to the first one at its end. -/
theorem readingsFrom_calls (s : Scanner) : ∃ k ≤ s.rest.length, (next^[k] s).Done
    ∧ readingsFrom s.place s.rest = (List.range (k + 1)).map fun i => (next^[i] s).read := by
  induction hn : s.rest.length using Nat.strongRecOn generalizing s with
  | ind n ih =>
    subst hn
    by_cases hend : (scan s.rest).atEnd = true
    · exact ⟨0, Nat.zero_le _, done_iff.2 hend, readingsFrom_atEnd hend⟩
    · obtain ⟨k, hk, hdone, hread⟩ := ih _ (rest_length_lt hend) s.next rfl
      refine ⟨k + 1, Nat.lt_of_le_of_lt hk (rest_length_lt hend), hdone, ?_⟩
      rw [readingsFrom_more hend, List.range_succ_eq_map, List.map_cons, List.map_map,
        ← next_place]
      exact congrArg (s.read :: ·) hread

theorem exists_read {r : Reading} (h : r ∈ readings source) :
    ∃ n, (after source n).read = r := by
  obtain ⟨k, -, -, hread⟩ := readingsFrom_calls (start source)
  have hcalls : readings source = _ := hread
  rw [hcalls, List.mem_map] at h
  obtain ⟨n, -, hn⟩ := h
  exact ⟨n, hn⟩

theorem done_iterate (h : s.Done) (n : Nat) : (next^[n] s).Done := by
  induction n with
  | zero => exact h
  | succ n ih =>
    rw [Function.iterate_succ_apply']
    exact ih.next.2

/-- Every call is sound. The end of the source is reached after no more calls than the source has
characters, and every later call finds it again. -/
theorem calls_sound (source : String) : (∀ n, (after source n).Sound source)
    ∧ ∃ k ≤ source.length,
      (readings source = (List.range (k + 1)).map fun n => (after source n).read)
        ∧ ∀ n, k ≤ n → (after source n).Done
          ∧ (after source n).next.place.offset = source.utf8ByteSize := by
  refine ⟨fun n => (at_after source n).sound, ?_⟩
  obtain ⟨k, hk, hdone, hread⟩ := readingsFrom_calls (start source)
  refine ⟨k, hk, hread, fun n hn => ?_⟩
  have hlater : (after source n).Done := by
    rw [after, ← Nat.sub_add_cancel hn, Function.iterate_add_apply]
    exact done_iterate hdone (n - k)
  exact ⟨hlater, (at_after source n).done_offset hlater⟩

end Calls

end Scanner

end MailSieve
