import MailSieve.Json.Reader
import MailSieve.Proofs.Json.Spelled

/-! Written JSON read back.
A plain value that is nested within the limit is read back from its text, whatever is wanted of it,
if single members are not wanted of a list. Nested deeper, its text is malformed to a reader that
wants all of it. The reader works on a stack of open containers, so both are said of a value in any
stack. -/

namespace MailSieve.Json

section Faults

theorem faultItems?_append (js ks : List Json) :
    faultItems? (js ++ ks) = (faultItems? js).or (faultItems? ks) := by
  induction js with
  | nil => rfl
  | cons j js ih => rw [List.cons_append, faultItems?, faultItems?, ih, Option.or_assoc]

theorem faultMembers?_append (ms ns : List (String × Json)) :
    faultMembers? (ms ++ ns) = (faultMembers? ms).or (faultMembers? ns) := by
  induction ms with
  | nil => rfl
  | cons m ms ih => rw [List.cons_append, faultMembers?, faultMembers?, ih, Option.or_assoc]

mutual

theorem plain_fault? (j : Json) (h : j.Plain) : j.fault? = none := by
  match j, h with
  | null, _ | bool _, _ | string _, _ | natural _, _ => rfl
  | array items, h => exact plainItems_fault? items h
  | object members, h => exact plainMembers_fault? members h

theorem plainItems_fault? (js : List Json) (h : PlainItems js) : faultItems? js = none := by
  match js, h with
  | [], _ => rfl
  | j :: js, ⟨hj, hjs⟩ => rw [faultItems?, plain_fault? j hj, plainItems_fault? js hjs, Option.or]

theorem plainMembers_fault? (ms : List (String × Json)) (h : PlainMembers ms) :
    faultMembers? ms = none := by
  match ms, h with
  | [], _ => rfl
  | (_, j) :: ms, ⟨hj, hms⟩ =>
    rw [faultMembers?, plain_fault? j hj, plainMembers_fault? ms hms, Option.or]

end

def Frame.Sound (f : Frame) : Prop := f.close.fault? = none

theorem Frame.sound_array {i : Interest} {items : List Json} :
    (Frame.array i items).Sound ↔ faultItems? items.reverse = none := Iff.rfl

theorem Frame.sound_object {i : Interest} {members : List (String × Json)} {name : String} :
    (Frame.object i members name).Sound ↔ faultMembers? members.reverse = none := Iff.rfl

theorem Frame.close_add_fault? {f : Frame} (hf : f.Sound) (j : Json) :
    (f.add j).close.fault? = j.fault? := by
  cases f with
  | array i items =>
    rw [Frame.sound_array] at hf
    change faultItems? (j :: items).reverse = _
    rw [List.reverse_cons, faultItems?_append, hf, faultItems?, faultItems?, Option.or_none]
    rfl
  | object i members name =>
    rw [Frame.sound_object] at hf
    change faultMembers? ((name, j) :: members).reverse = _
    rw [List.reverse_cons, faultMembers?_append, hf, faultMembers?, faultMembers?, Option.or_none]
    rfl

theorem unwind_fault? (f : TextFault) {stack : List Frame} (h : ∀ frame ∈ stack, frame.Sound) :
    (unwind f stack).value.fault? = some f := by
  have hfold (j : Json) (hj : j.fault? = some f) :
      (stack.foldl (fun j frame => (frame.add j).close) j).fault? = some f := by
    induction stack generalizing j with
    | nil => exact hj
    | cons frame below ih =>
      rw [List.forall_mem_cons] at h
      exact ih h.2 _ ((frame.close_add_fault? h.1 j).trans hj)
  exact hfold _ rfl

end Faults

section Run

variable {top : Interest} {stack : List Frame} {j : Json} {t : Token} {ts : List Token}

def afterValue (top : Interest) (j : Json) : List Frame → List Token → Document
  | [], ts => ⟨j, !ts.isEmpty⟩
  | frame :: below, ts => run top (frame.add j :: below) .commaOrClose ts

theorem run_complete {e : Expecting} (h : move top stack e t = complete j stack) :
    run top stack e (t :: ts) = afterValue top j stack ts := by
  rw [run, h]
  cases stack <;> rfl

theorem run_closeTop {e : Expecting} {frame : Frame}
    (h : move top (frame :: stack) e t = closeTop (frame :: stack)) :
    run top (frame :: stack) e (t :: ts) = afterValue top frame.close stack ts := by
  rw [run, h]
  cases stack <;> rfl

theorem run_open {frame : Frame} {next : Expecting} (hd : stack.length < maxDepth)
    (h : move top stack .value t = openFrame stack frame next) :
    run top stack .value (t :: ts) = run top (frame :: stack) next ts := by
  rw [run, h, openFrame]
  have hlimit : (!frame.interest.isNone && decide (maxDepth ≤ stack.length)) = false := by
    rw [decide_eq_false (by omega), Bool.and_false]
  rw [hlimit]
  rfl

theorem run_valueOrClose (hj : j.Plain) :
    run top stack .valueOrClose (j.spell ts) = run top stack .value (j.spell ts) := by
  cases j with
  | array items => cases items <;> rfl
  | object members => cases members <;> rfl
  | negative | real | broken => exact hj.elim
  | _ => rfl

theorem run_member {i : Interest} {members : List (String × Json)} {name name' : String}
    {e : Expecting} (he : e = .name ∨ e = .nameOrClose) :
    run top (.object i members name :: stack) e (.text (.ok name') :: .colon :: ts)
      = run top (.object i members name' :: stack) .value ts := by
  rcases he with rfl | rfl <;> rfl

theorem run_nextItem {i : Interest} {items js : List Json} (h : i.isFull items.length = false) :
    run top (.array i items :: stack) .commaOrClose (spellItems (j :: js) ts)
      = run top (.array i items :: stack) .value (j.spell (spellItems js ts)) := by
  rw [spellItems, run, move, h]
  rfl

theorem run_nextMember {i : Interest} {members ms : List (String × Json)} {name name' : String} :
    run top (.object i members name :: stack) .commaOrClose (spellMembers ((name', j) :: ms) ts)
      = run top (.object i members name' :: stack) .value (j.spell (spellMembers ms ts)) := by
  have hname : run top (.object i members name :: stack) .name
      (spellMember (name', j) (spellMembers ms ts)) = _ := run_member (.inl rfl)
  exact hname

end Run

section Interests

/-- What is wanted of the whole is wanted of all its parts. -/
def Interest.IsUniform (i : Interest) : Prop := ∀ wanted, i ≠ .members wanted

namespace Interest.IsUniform

variable {i : Interest}

theorem whole : Interest.whole.IsUniform := nofun

theorem ofItem (h : i.IsUniform) (n : Nat) : (i.ofItem n).IsUniform := by
  cases i with
  | members wanted => exact absurd rfl (h wanted)
  | none | whole => exact h

theorem ofMember (h : i.IsUniform) (name : String) : (i.ofMember name).IsUniform := by
  cases i with
  | members wanted => exact absurd rfl (h wanted)
  | none | whole => exact h

theorem isFull (h : i.IsUniform) (n : Nat) : i.isFull n = false := by
  cases i with
  | members wanted => exact absurd rfl (h wanted)
  | none | whole => rfl

end Interest.IsUniform

mutual

/-- Single members are wanted of objects only. -/
def Suits (i : Interest) : Json → Prop
  | array _ => i.IsUniform
  | object members => SuitsMembers i members
  | _ => True

def SuitsMembers (i : Interest) : List (String × Json) → Prop
  | [] => True
  | (name, j) :: ms => j.Suits (i.ofMember name) ∧ SuitsMembers i ms

end

mutual

theorem suits_of_uniform {i : Interest} (h : i.IsUniform) (j : Json) : j.Suits i := by
  match j with
  | array _ => exact h
  | object ms => exact suitsMembers_of_uniform h ms
  | null | bool _ | natural _ | negative _ | real _ | string _ | broken _ => trivial

theorem suitsMembers_of_uniform {i : Interest} (h : i.IsUniform) (ms : List (String × Json)) :
    SuitsMembers i ms := by
  match ms with
  | [] => trivial
  | (name, j) :: ms =>
    exact ⟨suits_of_uniform (h.ofMember name) j, suitsMembers_of_uniform h ms⟩

end

end Interests

section Within

mutual

theorem run_spell (top : Interest) (stack : List Frame) (j : Json) (hj : j.Plain)
    (hi : j.Suits (wanted top stack)) (hd : stack.length + j.depth ≤ maxDepth) (ts : List Token) :
    run top stack .value (j.spell ts) = afterValue top j stack ts := by
  match j, hj with
  | null, _ | bool _, _ | natural _, _ | string _, _ => exact run_complete rfl
  | array [], _ =>
    rw [depth, depthItems] at hd
    rw [spell, run_open (by omega) rfl]
    exact run_closeTop rfl
  | object [], _ =>
    rw [depth, depthMembers] at hd
    rw [spell, run_open (by omega) rfl]
    exact run_closeTop rfl
  | array (j :: js), ⟨hj, hjs⟩ =>
    rw [depth, depthItems] at hd
    have hi : (wanted top stack).IsUniform := hi
    rw [spell, run_open (by omega) rfl, run_valueOrClose hj,
      run_spell top (.array (wanted top stack) [] :: stack) j hj
        (suits_of_uniform (hi.ofItem 0) j) (by rw [List.length_cons]; omega)]
    exact run_spellItems top _ stack [j] js hjs hi (by omega) ts
  | object ((name, j) :: ms), ⟨hj, hms⟩ =>
    rw [depth, depthMembers] at hd
    rw [spell, spellMember, run_open (by omega) rfl, run_member (.inr rfl),
      run_spell top (.object (wanted top stack) [] name :: stack) j hj hi.1
        (by rw [List.length_cons]; omega)]
    exact run_spellMembers top _ stack "" [(name, j)] ms hms hi.2 (by omega) ts

theorem run_spellItems (top i : Interest) (stack : List Frame) (items js : List Json)
    (hj : PlainItems js) (hi : i.IsUniform) (hd : stack.length + 1 + depthItems js ≤ maxDepth)
    (ts : List Token) :
    run top (.array i items :: stack) .commaOrClose (spellItems js (.closeArray :: ts))
      = afterValue top (.array (items.reverse ++ js)) stack ts := by
  match js, hj with
  | [], _ =>
    rw [List.append_nil]
    exact run_closeTop rfl
  | j :: js, ⟨hj, hjs⟩ =>
    rw [depthItems] at hd
    have hnext := run_spell top (.array i items :: stack) j hj
      (suits_of_uniform (hi.ofItem items.length) j) (by rw [List.length_cons]; omega)
      (spellItems js (.closeArray :: ts))
    have hrest := run_spellItems top i stack (j :: items) js hjs hi (by omega) ts
    rw [List.reverse_cons, List.append_assoc] at hrest
    exact (run_nextItem (hi.isFull _)).trans (hnext.trans hrest)

theorem run_spellMembers (top i : Interest) (stack : List Frame) (name : String)
    (members ms : List (String × Json)) (hm : PlainMembers ms) (hi : SuitsMembers i ms)
    (hd : stack.length + 1 + depthMembers ms ≤ maxDepth) (ts : List Token) :
    run top (.object i members name :: stack) .commaOrClose (spellMembers ms (.closeObject :: ts))
      = afterValue top (.object (members.reverse ++ ms)) stack ts := by
  match ms, hm with
  | [], _ =>
    rw [List.append_nil]
    exact run_closeTop rfl
  | (name', j) :: ms, ⟨hj, hms⟩ =>
    rw [depthMembers] at hd
    have hnext := run_spell top (.object i members name' :: stack) j hj hi.1
      (by rw [List.length_cons]; omega) (spellMembers ms (.closeObject :: ts))
    have hrest := run_spellMembers top i stack "" ((name', j) :: members) ms hms hi.2 (by omega) ts
    rw [List.reverse_cons, List.append_assoc] at hrest
    exact run_nextMember.trans (hnext.trans hrest)

end

end Within

section Beyond

variable {top : Interest} {stack : List Frame} {ts : List Token}

theorem run_stop {e : Expecting} {t : Token} {f : TextFault} (h : move top stack e t = .stop f)
    (hs : ∀ frame ∈ stack, frame.Sound) : (run top stack e (t :: ts)).value.fault? = some f := by
  rw [run, h]
  exact unwind_fault? f hs

theorem openFrame_full {frame : Frame} {next : Expecting} (hi : frame.interest = .whole)
    (h : maxDepth ≤ stack.length) : openFrame stack frame next = .stop .malformed := by
  have hlimit : (!frame.interest.isNone && decide (maxDepth ≤ stack.length)) = true := by
    rw [hi, decide_eq_true h]
    rfl
  rw [openFrame, hlimit]
  rfl

theorem Frame.sound_add {frame : Frame} {j : Json} (hf : frame.Sound) (hj : j.Plain) :
    (frame.add j).Sound := by
  rw [Frame.Sound, frame.close_add_fault? hf, plain_fault? j hj]

mutual

/-- The value breaks off where it goes beyond the limit, if it is wanted as a whole. -/
theorem run_spell_deep (top : Interest) (stack : List Frame) (j : Json) (hj : j.Plain)
    (hw : wanted top stack = .whole) (hs : ∀ frame ∈ stack, frame.Sound)
    (hd : maxDepth < stack.length + j.depth) (hl : stack.length ≤ maxDepth) (ts : List Token) :
    (run top stack .value (j.spell ts)).value.fault? = some .malformed := by
  have hwhole : (wanted top stack).IsUniform := hw ▸ .whole
  have hfull (frame : Frame) {t : Token} {next : Expecting} (hlim : ¬ stack.length < maxDepth)
      (hi : frame.interest = wanted top stack)
      (h : move top stack .value t = openFrame stack frame next) (us : List Token) :
      (run top stack .value (t :: us)).value.fault? = some .malformed :=
    run_stop (h.trans (openFrame_full (hi.trans hw) (by omega))) hs
  match j, hj with
  | null, _ | bool _, _ | natural _, _ | string _, _ =>
    change maxDepth < stack.length + 0 at hd
    omega
  | array [], _ =>
    rw [depth, depthItems] at hd
    exact hfull (.array _ []) (by omega) rfl rfl _
  | object [], _ =>
    rw [depth, depthMembers] at hd
    exact hfull (.object _ [] "") (by omega) rfl rfl _
  | array (j :: js), ⟨hj, hjs⟩ =>
    by_cases hlim : stack.length < maxDepth
    · rw [depth, depthItems] at hd
      rw [spell, run_open hlim rfl, run_valueOrClose hj]
      have hs' : ∀ frame ∈ Frame.array (wanted top stack) [] :: stack, frame.Sound :=
        List.forall_mem_cons.2 ⟨rfl, hs⟩
      -- The first item breaks off, or it is read and a later one breaks off.
      by_cases hj' : maxDepth < stack.length + 1 + j.depth
      · exact run_spell_deep top _ j hj (by rw [hw]; rfl) hs' hj' hlim _
      · rw [run_spell top (.array (wanted top stack) [] :: stack) j hj
          (suits_of_uniform (hwhole.ofItem 0) j) (by rw [List.length_cons]; omega)]
        exact run_spellItems_deep top stack [j] js hjs hw hs (plainItems_fault? [j] ⟨hj, trivial⟩)
          (by omega) hlim ts
    · exact hfull (.array _ []) hlim rfl rfl _
  | object ((name, j) :: ms), ⟨hj, hms⟩ =>
    by_cases hlim : stack.length < maxDepth
    · rw [depth, depthMembers] at hd
      rw [spell, spellMember, run_open hlim rfl, run_member (.inr rfl)]
      have hs' : ∀ frame ∈ Frame.object (wanted top stack) [] name :: stack, frame.Sound :=
        List.forall_mem_cons.2 ⟨rfl, hs⟩
      by_cases hj' : maxDepth < stack.length + 1 + j.depth
      · exact run_spell_deep top _ j hj (by rw [hw]; rfl) hs' hj' hlim _
      · rw [run_spell top (.object (wanted top stack) [] name :: stack) j hj
          (suits_of_uniform (hwhole.ofMember name) j) (by rw [List.length_cons]; omega)]
        exact run_spellMembers_deep top stack "" [(name, j)] ms hms hw hs
          (plainMembers_fault? [(name, j)] ⟨hj, trivial⟩) (by omega) hlim ts
    · exact hfull (.object _ [] "") hlim rfl rfl _

theorem run_spellItems_deep (top : Interest) (stack : List Frame) (items js : List Json)
    (hj : PlainItems js) (hw : wanted top stack = .whole) (hs : ∀ frame ∈ stack, frame.Sound)
    (hi : faultItems? items.reverse = none) (hd : maxDepth < stack.length + 1 + depthItems js)
    (hl : stack.length < maxDepth) (ts : List Token) :
    (run top (.array (wanted top stack) items :: stack) .commaOrClose
      (spellItems js (.closeArray :: ts))).value.fault? = some .malformed := by
  match js, hj with
  | [], _ =>
    rw [depthItems] at hd
    omega
  | j :: js, ⟨hj, hjs⟩ =>
    rw [depthItems] at hd
    have hs' : ∀ frame ∈ Frame.array (wanted top stack) items :: stack, frame.Sound :=
      List.forall_mem_cons.2 ⟨hi, hs⟩
    have hwhole : (wanted top stack).IsUniform := hw ▸ .whole
    rw [run_nextItem (hwhole.isFull _)]
    by_cases hj' : maxDepth < stack.length + 1 + j.depth
    · exact run_spell_deep top _ j hj (by rw [hw]; rfl) hs' hj' hl _
    · have hnext := run_spell top (.array (wanted top stack) items :: stack) j hj
        (suits_of_uniform (hwhole.ofItem items.length) j)
        (by rw [List.length_cons]; omega) (spellItems js (.closeArray :: ts))
      have hsound := Frame.sound_add (hs' _ List.mem_cons_self) hj
      have hrest := run_spellItems_deep top stack (j :: items) js hjs hw hs hsound (by omega) hl ts
      exact (congrArg (·.value.fault?) hnext).trans hrest

theorem run_spellMembers_deep (top : Interest) (stack : List Frame) (name : String)
    (members ms : List (String × Json)) (hm : PlainMembers ms) (hw : wanted top stack = .whole)
    (hs : ∀ frame ∈ stack, frame.Sound) (hi : faultMembers? members.reverse = none)
    (hd : maxDepth < stack.length + 1 + depthMembers ms) (hl : stack.length < maxDepth)
    (ts : List Token) :
    (run top (.object (wanted top stack) members name :: stack) .commaOrClose
      (spellMembers ms (.closeObject :: ts))).value.fault? = some .malformed := by
  match ms, hm with
  | [], _ =>
    rw [depthMembers] at hd
    omega
  | (name', j) :: ms, ⟨hj, hms⟩ =>
    have hwhole : (wanted top stack).IsUniform := hw ▸ .whole
    rw [depthMembers] at hd
    rw [run_nextMember]
    have hs' : ∀ frame ∈ Frame.object (wanted top stack) members name' :: stack, frame.Sound :=
      List.forall_mem_cons.2 ⟨hi, hs⟩
    by_cases hj' : maxDepth < stack.length + 1 + j.depth
    · exact run_spell_deep top _ j hj (by rw [hw]; rfl) hs' hj' hl _
    · rw [run_spell top (.object (wanted top stack) members name' :: stack) j hj
        (suits_of_uniform (hwhole.ofMember name') j) (by rw [List.length_cons]; omega)]
      have hsound := Frame.sound_add (hs' _ List.mem_cons_self) hj
      exact run_spellMembers_deep top stack "" ((name', j) :: members) ms hms hw hs hsound
        (by omega) hl ts

end

end Beyond

section Texts

variable {top : Interest} {j : Json} {blank : String}

theorem tokens_pretty (hj : j.Plain) (hb : ∀ c ∈ blank.toList, isSpace c = true) :
    tokens (j.pretty ++ blank).toList = j.spell [] := by
  have hend : EndsNumber (blank.toList ++ []) := endsNumber_spaces hb nofun
  rw [List.append_nil] at hend
  have hbreak : tokens blank.toList = [] := by
    rw [← List.append_nil blank.toList, tokens_spaces hb, tokens_nil]
  rw [pretty, String.toList_append, String.toList_ofList, write_append, List.nil_append,
    tokens_write indented_blank 0 j hj hend, hbreak]

theorem lineFeed_blank : ∀ c ∈ "\n".toList, isSpace c = true := by simp [isSpace]

/-- What is wanted of a value makes no difference within the limit. -/
theorem read_pretty (hj : j.Plain) (hi : j.Suits top) (hb : ∀ c ∈ blank.toList, isSpace c = true)
    (hd : j.depth ≤ maxDepth) : read top (j.pretty ++ blank) = ⟨j, false⟩ := by
  rw [read, tokens_pretty hj hb, run_spell top [] j hj hi (by simpa using hd)]
  rfl

theorem read_pretty_deep {name : String} {ms : List (String × Json)} (hj : j.Plain)
    (hms : PlainMembers ms) (hb : ∀ c ∈ blank.toList, isSpace c = true)
    (hw : top.ofMember name = .whole) (hd : maxDepth < j.depth + 1) :
    (read top ((object ((name, j) :: ms)).pretty ++ blank)).value.fault? = some .malformed := by
  have hplain : (object ((name, j) :: ms)).Plain := ⟨hj, hms⟩
  rw [read, tokens_pretty hplain hb, spell, spellMember, run_open (by decide) rfl,
    run_member (.inr rfl)]
  refine run_spell_deep top [.object (wanted top []) [] name] j hj hw ?_ ?_ ?_ _
  · exact List.forall_mem_singleton.2 (Frame.sound_object.2 rfl)
  · rw [List.length_singleton]
    omega
  · exact Nat.le_of_ble_eq_true rfl

end Texts

end MailSieve.Json
