import Mathlib.Tactic.SplitIfs
import MailSieve.Proofs.Json.Unbroken

/-! The grammar of JSON text, for a reader with interest in parts of it.
`ValuePhrase i d ts j us` says that `ts` begins with a value that denotes `j`, at depth `d`, and
goes on with `us`. What is of no interest may be nested without a limit and may hold a flaw that
does not stop a reader who passes over it; such a flaw denotes null. The reader accepts exactly
these texts: `TextPhrase.read_eq` and `textPhrase_of_read` are the two directions. -/

namespace MailSieve.Json

def Opens (i : Interest) (d : Nat) : Prop := i = .none ∨ d < maxDepth

inductive NamePhrase : Interest → Token → String → Prop where
  | name {i : Interest} {name : String} : NamePhrase i (.text (.ok name)) name
  | flawed {flaw : Flaw} : flaw.skipped = none → NamePhrase .none (.text (.error flaw)) ""

mutual

inductive ValuePhrase : Interest → Nat → List Token → Json → List Token → Prop where
  | text {i : Interest} {d : Nat} {s : String} {ts : List Token} :
    ValuePhrase i d (.text (.ok s) :: ts) (.string s) ts
  | scalar {i : Interest} {d : Nat} {j : Json} {ts : List Token} :
    ValuePhrase i d (.scalar (.ok j) :: ts) j ts
  | flawedText {d : Nat} {flaw : Flaw} {ts : List Token} :
    flaw.skipped = none → ValuePhrase .none d (.text (.error flaw) :: ts) .null ts
  | flawedScalar {d : Nat} {flaw : Flaw} {ts : List Token} :
    flaw.skipped = none → ValuePhrase .none d (.scalar (.error flaw) :: ts) .null ts
  | emptyArray {i : Interest} {d : Nat} {ts : List Token} :
    Opens i d → ValuePhrase i d (.openArray :: .closeArray :: ts) (.array []) ts
  | array {i : Interest} {d : Nat} {ts us : List Token} {js : List Json} :
    Opens i d → ItemsPhrase i 0 (d + 1) ts js us →
    ValuePhrase i d (.openArray :: ts) (.array js) us
  | emptyObject {i : Interest} {d : Nat} {ts : List Token} :
    Opens i d → ValuePhrase i d (.openObject :: .closeObject :: ts) (.object []) ts
  | object {i : Interest} {d : Nat} {ts us : List Token} {ms : List (String × Json)} :
    Opens i d → MembersPhrase i (d + 1) ts ms us →
    ValuePhrase i d (.openObject :: ts) (.object ms) us

/-- The items of an array from the `n`th on, commas between them, and what closes the array. -/
inductive ItemsPhrase : Interest → Nat → Nat → List Token → List Json → List Token → Prop where
  | last {i : Interest} {n d : Nat} {ts us : List Token} {j : Json} :
    ValuePhrase (i.ofItem n) d ts j (.closeArray :: us) → ItemsPhrase i n d ts [j] us
  | more {i : Interest} {n d : Nat} {ts us vs : List Token} {j : Json} {js : List Json} :
    ValuePhrase (i.ofItem n) d ts j (.comma :: us) → i.isFull (n + 1) = false →
    ItemsPhrase i (n + 1) d us js vs → ItemsPhrase i n d ts (j :: js) vs

/-- One or more names with their values, commas between them, and what closes an object. -/
inductive MembersPhrase :
    Interest → Nat → List Token → List (String × Json) → List Token → Prop where
  | last {i : Interest} {d : Nat} {t : Token} {ts us : List Token} {name : String} {j : Json} :
    NamePhrase i t name → ValuePhrase (i.ofMember name) d ts j (.closeObject :: us) →
    MembersPhrase i d (t :: .colon :: ts) [(name, j)] us
  | more {i : Interest} {d : Nat} {t : Token} {ts us vs : List Token} {name : String} {j : Json}
    {ms : List (String × Json)} :
    NamePhrase i t name → ValuePhrase (i.ofMember name) d ts j (.comma :: us) →
    MembersPhrase i d us ms vs → MembersPhrase i d (t :: .colon :: ts) ((name, j) :: ms) vs

end

variable {i top : Interest} {n d : Nat} {ts us : List Token} {j : Json} {js : List Json}
  {ms : List (String × Json)} {stack : List Frame}

section Length

mutual

theorem ValuePhrase.length_lt {i : Interest} {d : Nat} {ts us : List Token} {j : Json}
    (h : ValuePhrase i d ts j us) : us.length < ts.length := by
  match h with
  | .text | .scalar | .flawedText _ | .flawedScalar _ => exact Nat.lt_succ_self _
  | .emptyArray _ | .emptyObject _ => exact Nat.lt_succ_of_lt (Nat.lt_succ_self _)
  | .array _ hitems => exact Nat.lt_succ_of_lt hitems.length_lt
  | .object _ hmembers => exact Nat.lt_succ_of_lt hmembers.length_lt

theorem ItemsPhrase.length_lt {i : Interest} {n d : Nat} {ts us : List Token} {js : List Json}
    (h : ItemsPhrase i n d ts js us) : us.length < ts.length := by
  match h with
  | .last hj => exact Nat.lt_of_succ_lt hj.length_lt
  | .more hj _ hitems => exact Nat.lt_trans hitems.length_lt (Nat.lt_of_succ_lt hj.length_lt)

theorem MembersPhrase.length_lt {i : Interest} {d : Nat} {ts us : List Token}
    {ms : List (String × Json)} (h : MembersPhrase i d ts ms us) : us.length < ts.length := by
  have hcolon {us vs : List Token} {t u : Token} (hlt : (u :: us).length < vs.length) :
      us.length < (t :: .colon :: vs).length :=
    Nat.lt_succ_of_lt (Nat.lt_succ_of_lt (Nat.lt_of_succ_lt hlt))
  match h with
  | .last _ hj => exact hcolon hj.length_lt
  | .more _ hj hmembers => exact Nat.lt_trans hmembers.length_lt (hcolon hj.length_lt)

end

end Length

section Accepted

theorem run_opens (frame : Frame) {next : Expecting} {t : Token}
    (ho : Opens frame.interest stack.length)
    (h : move top stack .value t = openFrame stack frame next) :
    run top stack .value (t :: ts) = run top (frame :: stack) next ts := by
  obtain hi | hd := ho
  · rw [run, h, openFrame, hi]
    rfl
  · exact run_open hd h

theorem ValuePhrase.run_valueOrClose (h : ValuePhrase i d ts j us) :
    run top stack .valueOrClose ts = run top stack .value ts := by
  cases h <;> rfl

theorem ItemsPhrase.run_valueOrClose (h : ItemsPhrase i n d ts js us) :
    run top stack .valueOrClose ts = run top stack .value ts := by
  cases h with
  | last hj => exact hj.run_valueOrClose
  | more hj _ _ => exact hj.run_valueOrClose

theorem NamePhrase.run_name {t : Token} {name name' : String} {e : Expecting}
    (h : NamePhrase i t name) (he : e = .name ∨ e = .nameOrClose) :
    run top (.object i ms name' :: stack) e (t :: .colon :: ts)
      = run top (.object i ms name :: stack) .value ts := by
  cases h with
  | name => exact run_member he
  | flawed hflaw =>
    rcases he with rfl | rfl <;> simp only [run, move, readName, flawFault, hflaw] <;> rfl

mutual

theorem run_value {i : Interest} {d : Nat} {ts us : List Token} {j : Json}
    (h : ValuePhrase i d ts j us) (top : Interest) (stack : List Frame)
    (hi : wanted top stack = i) (hd : stack.length = d) :
    run top stack .value ts = afterValue top j stack us := by
  match h with
  | .text | .scalar => exact run_complete rfl
  | .flawedText hflaw | .flawedScalar hflaw =>
    refine run_complete ?_
    rw [move, hi, beginValue, completeOr, flawFault, hflaw]
    rfl
  | .emptyArray ho =>
    subst hi hd
    rw [run_opens (.array (wanted top stack) []) ho rfl]
    exact run_closeTop rfl
  | .array ho hitems =>
    subst hi hd
    rw [run_opens (.array (wanted top stack) []) ho rfl, hitems.run_valueOrClose]
    exact run_items hitems top stack [] rfl rfl
  | .emptyObject ho =>
    subst hi hd
    rw [run_opens (.object (wanted top stack) [] "") ho rfl]
    exact run_closeTop rfl
  | .object ho hmembers =>
    subst hi hd
    rw [run_opens (.object (wanted top stack) [] "") ho rfl]
    exact run_members hmembers top stack [] "" (.inr rfl) rfl

theorem run_items {i : Interest} {n d : Nat} {ts us : List Token} {js : List Json}
    (h : ItemsPhrase i n d ts js us) (top : Interest) (stack : List Frame) (items : List Json)
    (hn : items.length = n) (hd : stack.length + 1 = d) :
    run top (.array i items :: stack) .value ts
      = afterValue top (.array (items.reverse ++ js)) stack us := by
  subst hn
  match h with
  | @ItemsPhrase.last _ _ _ _ _ j hj =>
    rw [run_value hj top (.array i items :: stack) rfl hd, ← List.reverse_cons]
    exact run_closeTop rfl
  | @ItemsPhrase.more _ _ _ _ us _ j js hj hfull hitems =>
    have hcomma : run top (.array i (j :: items) :: stack) .commaOrClose (.comma :: us)
        = run top (.array i (j :: items) :: stack) .value us := by
      rw [run, move, List.length_cons, hfull]
      rfl
    have hrest := run_items hitems top stack (j :: items) rfl hd
    rw [List.reverse_cons, List.append_assoc] at hrest
    exact (run_value hj top (.array i items :: stack) rfl hd).trans (hcomma.trans hrest)

theorem run_members {i : Interest} {d : Nat} {ts us : List Token} {ms : List (String × Json)}
    (h : MembersPhrase i d ts ms us) (top : Interest) (stack : List Frame)
    (members : List (String × Json)) (name : String) {e : Expecting}
    (he : e = .name ∨ e = .nameOrClose) (hd : stack.length + 1 = d) :
    run top (.object i members name :: stack) e ts
      = afterValue top (.object (members.reverse ++ ms)) stack us := by
  match h with
  | @MembersPhrase.last _ _ _ _ _ name' j hname hj =>
    rw [hname.run_name he, run_value hj top (.object i members name' :: stack) rfl hd,
      ← List.reverse_cons]
    exact run_closeTop rfl
  | @MembersPhrase.more _ _ _ _ _ _ name' j ms hname hj hmembers =>
    have hrest := run_members hmembers top stack ((name', j) :: members) "" (.inl rfl) hd
    rw [List.reverse_cons, List.append_assoc] at hrest
    rw [hname.run_name he, run_value hj top (.object i members name' :: stack) rfl hd]
    exact hrest

end

end Accepted

section Whole

theorem Frame.close_add_broken (f : Frame) (hj : j.fault? ≠ none) :
    (f.add j).close.fault? ≠ none := by
  cases f with
  | array i items =>
    change faultItems? (j :: items).reverse ≠ none
    rw [List.reverse_cons, faultItems?_append, faultItems?, faultItems?]
    simp [hj]
  | object i members name =>
    change faultMembers? ((name, j) :: members).reverse ≠ none
    rw [List.reverse_cons, faultMembers?_append, faultMembers?, faultMembers?]
    simp [hj]

/-- A text that stops being JSON gives a value that breaks off. -/
theorem unwind_broken (f : TextFault) (stack : List Frame) :
    (unwind f stack).value.fault? ≠ none := by
  have hfold (j : Json) (hj : j.fault? ≠ none) :
      (stack.foldl (fun j frame => (frame.add j).close) j).fault? ≠ none := by
    induction stack generalizing j with
    | nil => exact hj
    | cons frame below ih => exact ih _ (frame.close_add_broken hj)
  exact hfold (.broken f) (Option.some_ne_none f)

/-- The run comes to a value that does not break off. -/
def Whole (top : Interest) (stack : List Frame) (e : Expecting) (ts : List Token) : Prop :=
  (run top stack e ts).value.fault? = none

variable {e : Expecting} {t : Token}

theorem not_whole_nil : ¬ Whole top stack e [] := unwind_broken .ended stack

theorem not_whole_stop {f : TextFault} (h : move top stack e t = .stop f) :
    ¬ Whole top stack e (t :: ts) := by
  rw [Whole, run, h]
  exact unwind_broken f stack

theorem Whole.opened (frame : Frame) {next : Expecting}
    (hm : move top stack e t = openFrame stack frame next) (h : Whole top stack e (t :: ts)) :
    Opens frame.interest stack.length ∧ Whole top (frame :: stack) next ts := by
  by_cases hlimit : (!frame.interest.isNone && decide (maxDepth ≤ stack.length)) = true
  · exact absurd h (not_whole_stop (hm.trans (if_pos hlimit)))
  · rw [Whole, run, hm, openFrame, if_neg hlimit] at h
    refine ⟨?_, h⟩
    cases hi : frame.interest with
    | none => exact .inl rfl
    | _ =>
      rw [hi] at hlimit
      exact .inr (by simpa [Interest.isNone] using hlimit)

theorem Whole.overlooked {flaw : Flaw}
    (hm : ∀ f, flawFault i flaw = some f → move top stack e t = .stop f)
    (h : Whole top stack e (t :: ts)) : i = .none ∧ flaw.skipped = none := by
  cases hflaw : flawFault i flaw with
  | some f => exact absurd h (not_whole_stop (hm f hflaw))
  | none =>
    cases i with
    | none => exact ⟨rfl, hflaw⟩
    | _ => cases hflaw

theorem Whole.after (hv : ValuePhrase (wanted top stack) stack.length ts j us)
    (h : Whole top stack .value ts) : (afterValue top j stack us).value.fault? = none := by
  rwa [Whole, run_value hv top stack rfl rfl] at h

theorem Whole.named {members : List (String × Json)} {name : String}
    (h : Whole top (.object i members name :: stack) .name ts) :
    ∃ t name' us, ts = t :: us ∧ NamePhrase i t name'
      ∧ Whole top (.object i members name' :: stack) .colon us := by
  cases ts with
  | nil => exact absurd h not_whole_nil
  | cons t us =>
    cases t with
    | text content =>
      cases content with
      | ok name' => exact ⟨_, _, _, rfl, .name, h⟩
      | error flaw =>
        have hmove (f : TextFault) (hf : flawFault i flaw = some f) :
            move top (.object i members name :: stack) .name (.text (.error flaw)) = .stop f := by
          simp only [move, readName, hf]
        obtain ⟨rfl, hflaw⟩ := h.overlooked hmove
        refine ⟨_, "", us, rfl, .flawed hflaw, ?_⟩
        simpa [Whole, run, move, readName, flawFault, Interest.isNone, hflaw] using h
    | _ => exact absurd h (not_whole_stop rfl)

/-- What the tokens begin with wherever a value, the items of an array or the members of an object
are expected and the run comes to an end. -/
def BeginsValue (ts : List Token) : Prop :=
  ∀ top stack, Whole top stack .value ts →
    ∃ j us, ValuePhrase (wanted top stack) stack.length ts j us

def BeginsItems (ts : List Token) : Prop :=
  ∀ top stack i items, Whole top (.array i items :: stack) .value ts →
    ∃ js us, ItemsPhrase i items.length (stack.length + 1) ts js us

def BeginsMembers (ts : List Token) : Prop :=
  ∀ top stack i members name, Whole top (.object i members name :: stack) .name ts →
    ∃ ms us, MembersPhrase i (stack.length + 1) ts ms us

theorem beginsValue (hitems : ∀ us, us.length < ts.length → BeginsItems us)
    (hmembers : ∀ us, us.length < ts.length → BeginsMembers us) : BeginsValue ts := by
  intro top stack h
  have hstop (t : Token) (flaw : Flaw)
      (hm : move top stack .value t = completeOr (wanted top stack) stack flaw) (f : TextFault)
      (hf : flawFault (wanted top stack) flaw = some f) : move top stack .value t = .stop f := by
    rw [hm, completeOr, hf]
  cases ts with
  | nil => exact absurd h not_whole_nil
  | cons t ts =>
    cases t with
    | text content =>
      cases content with
      | ok s => exact ⟨_, _, .text⟩
      | error flaw =>
        obtain ⟨hi, hflaw⟩ := h.overlooked (hstop (.text (.error flaw)) flaw rfl)
        exact ⟨.null, ts, hi ▸ .flawedText hflaw⟩
    | scalar value =>
      cases value with
      | ok j => exact ⟨_, _, .scalar⟩
      | error flaw =>
        obtain ⟨hi, hflaw⟩ := h.overlooked (hstop (.scalar (.error flaw)) flaw rfl)
        exact ⟨.null, ts, hi ▸ .flawedScalar hflaw⟩
    | openArray =>
      obtain ⟨ho, h⟩ := h.opened (.array (wanted top stack) []) rfl
      cases ts with
      | nil => exact absurd h not_whole_nil
      | cons t ts =>
        by_cases ht : t = .closeArray
        · subst ht
          exact ⟨_, _, .emptyArray ho⟩
        · have hvalue : Whole top (.array (wanted top stack) [] :: stack) .value (t :: ts) := by
            cases t <;> first | exact absurd rfl ht | exact h
          obtain ⟨js, us, hjs⟩ := hitems _ (Nat.lt_succ_self _) top stack _ _ hvalue
          exact ⟨_, _, .array ho hjs⟩
    | openObject =>
      obtain ⟨ho, h⟩ := h.opened (.object (wanted top stack) [] "") rfl
      cases ts with
      | nil => exact absurd h not_whole_nil
      | cons t ts =>
        by_cases ht : t = .closeObject
        · subst ht
          exact ⟨_, _, .emptyObject ho⟩
        · have hname : Whole top (.object (wanted top stack) [] "" :: stack) .name (t :: ts) := by
            cases t <;> first | exact absurd rfl ht | exact h
          obtain ⟨ms, us, hms⟩ := hmembers _ (Nat.lt_succ_self _) top stack _ _ _ hname
          exact ⟨_, _, .object ho hms⟩
    | closeArray | closeObject | colon | comma => exact absurd h (not_whole_stop rfl)

theorem beginsItems (hvalue : BeginsValue ts)
    (hitems : ∀ us, us.length < ts.length → BeginsItems us) : BeginsItems ts := by
  intro top stack i items h
  obtain ⟨j, us, hj⟩ := hvalue top _ h
  have hafter : Whole top (.array i (j :: items) :: stack) .commaOrClose us := h.after hj
  have hlt := hj.length_lt
  cases us with
  | nil => exact absurd hafter not_whole_nil
  | cons t us =>
    cases t with
    | closeArray => exact ⟨_, _, .last hj⟩
    | comma =>
      cases hfull : i.isFull (items.length + 1) with
      | true => exact absurd hafter (not_whole_stop (if_pos hfull))
      | false =>
        have hnext : Whole top (.array i (j :: items) :: stack) .value us := by
          rw [Whole, run, move, List.length_cons, hfull] at hafter
          exact hafter
        obtain ⟨js, vs, hjs⟩ := hitems us (Nat.lt_of_succ_lt hlt) top stack i (j :: items) hnext
        exact ⟨_, _, .more hj hfull hjs⟩
    | _ => exact absurd hafter (not_whole_stop rfl)

theorem beginsMembers (hvalue : ∀ us, us.length < ts.length → BeginsValue us)
    (hmembers : ∀ us, us.length < ts.length → BeginsMembers us) : BeginsMembers ts := by
  intro top stack i members name h
  obtain ⟨t, name', us, rfl, hname, hcolon⟩ := h.named
  cases us with
  | nil => exact absurd hcolon not_whole_nil
  | cons u us =>
    cases u with
    | colon =>
      have hwhole : Whole top (.object i members name' :: stack) .value us := hcolon
      obtain ⟨j, vs, hj⟩ := hvalue us (Nat.lt_succ_of_lt (Nat.lt_succ_self _)) top _ hwhole
      have hlt : vs.length < (t :: .colon :: us).length :=
        Nat.lt_succ_of_lt (Nat.lt_succ_of_lt hj.length_lt)
      have hafter : Whole top (.object i ((name', j) :: members) "" :: stack) .commaOrClose vs :=
        hwhole.after hj
      cases vs with
      | nil => exact absurd hafter not_whole_nil
      | cons v vs =>
        cases v with
        | closeObject => exact ⟨_, _, .last hname hj⟩
        | comma =>
          obtain ⟨ms, ws, hms⟩ := hmembers vs (Nat.lt_of_succ_lt hlt) top stack i _ _ hafter
          exact ⟨_, _, .more hname hj hms⟩
        | _ => exact absurd hafter (not_whole_stop rfl)
    | _ => exact absurd hcolon (not_whole_stop rfl)

theorem begins (ts : List Token) : BeginsValue ts ∧ BeginsItems ts ∧ BeginsMembers ts := by
  induction hn : ts.length using Nat.strongRecOn generalizing ts with
  | ind n ih =>
    subst hn
    have hvalue := beginsValue (fun us hlt => (ih _ hlt us rfl).2.1)
      fun us hlt => (ih _ hlt us rfl).2.2
    exact ⟨hvalue, beginsItems hvalue fun us hlt => (ih _ hlt us rfl).2.1,
      beginsMembers (fun us hlt => (ih _ hlt us rfl).1) fun us hlt => (ih _ hlt us rfl).2.2⟩

end Whole

section Tokens

def Token.Sound : Token → Prop
  | .scalar (.ok j) => j.fault? = none
  | _ => True

theorem integerValue_sound (minus : Bool) (digits : List Char) :
    (Token.scalar (integerValue minus digits)).Sound := by
  unfold integerValue
  dsimp only
  split_ifs <;> first | exact trivial | exact rfl

theorem realValue_sound (minus : Bool) (whole fraction : List Char) (exponent : Int)
    (text : List Char) : (Token.scalar (realValue minus whole fraction exponent text)).Sound := by
  unfold realValue
  split
  · exact trivial
  · exact rfl

theorem missingDigit_sound (cs : List Char) : (missingDigit cs).1.Sound := by
  unfold missingDigit
  split_ifs <;> exact trivial

theorem scanExponent_sound (minus : Bool) (whole fraction text cs : List Char) :
    (scanExponent minus whole fraction text cs).1.Sound := by
  unfold scanExponent
  dsimp only
  split
  · exact missingDigit_sound _
  · exact realValue_sound ..

theorem scanNumber_sound (minus : Bool) (cs : List Char) : (scanNumber minus cs).1.Sound := by
  have hafter (whole cs : List Char) : (scanAfterWhole minus whole cs).1.Sound := by
    unfold scanAfterWhole
    split
    · split
      · exact missingDigit_sound _
      · dsimp only
        split
        · split_ifs
          · exact scanExponent_sound ..
          · exact realValue_sound ..
        · exact realValue_sound ..
    · split_ifs
      · exact scanExponent_sound ..
      · exact integerValue_sound ..
    · exact integerValue_sound ..
  unfold scanNumber
  split
  · exact missingDigit_sound _
  · split_ifs
    · exact trivial
    · exact hafter ..

theorem scanWord_sound {value : Json} (hv : value.fault? = none) (word cs : List Char) :
    (scanWord value word cs).1.Sound := by
  fun_induction scanWord value word cs with
  | case1 => exact hv
  | case3 _ _ _ ih => exact ih
  | case2 | case4 => exact trivial

theorem tokens_sound (cs : List Char) : ∀ t ∈ tokens cs, t.Sound := by
  have hscan (c : Char) (cs : List Char) : (scanToken c cs).1.Sound := by
    unfold scanToken
    split
    case h_7 =>
      unfold scanText
      dsimp only
      split <;> exact trivial
    case h_8 => exact scanNumber_sound true cs
    case h_9 | h_10 | h_11 => exact scanWord_sound rfl _ cs
    case h_12 =>
      split_ifs
      · exact scanNumber_sound false _
      · exact trivial
    all_goals exact trivial
  fun_induction tokens cs with
  | case1 => exact nofun
  | case2 _ _ _ ih => exact ih
  | case3 c cs _ _ _ ih => exact List.forall_mem_cons.2 ⟨hscan c cs, ih⟩

mutual

/-- What a text denotes does not break off. -/
theorem ValuePhrase.whole {i : Interest} {d : Nat} {ts us : List Token} {j : Json}
    (h : ValuePhrase i d ts j us) (hts : ∀ t ∈ ts, t.Sound) :
    j.fault? = none ∧ ∀ t ∈ us, t.Sound := by
  match h with
  | .text | .flawedText _ | .flawedScalar _ => exact ⟨rfl, (List.forall_mem_cons.1 hts).2⟩
  | .scalar => exact List.forall_mem_cons.1 hts
  | .emptyArray _ | .emptyObject _ =>
    exact ⟨rfl, (List.forall_mem_cons.1 (List.forall_mem_cons.1 hts).2).2⟩
  | .array _ hitems => exact hitems.whole (List.forall_mem_cons.1 hts).2
  | .object _ hmembers => exact hmembers.whole (List.forall_mem_cons.1 hts).2

theorem ItemsPhrase.whole {i : Interest} {n d : Nat} {ts us : List Token} {js : List Json}
    (h : ItemsPhrase i n d ts js us) (hts : ∀ t ∈ ts, t.Sound) :
    faultItems? js = none ∧ ∀ t ∈ us, t.Sound := by
  match h with
  | .last hj =>
    obtain ⟨hwhole, hus⟩ := hj.whole hts
    exact ⟨Option.or_eq_none_iff.2 ⟨hwhole, rfl⟩, (List.forall_mem_cons.1 hus).2⟩
  | .more hj _ hitems =>
    obtain ⟨hwhole, hus⟩ := hj.whole hts
    obtain ⟨hwholes, hvs⟩ := hitems.whole (List.forall_mem_cons.1 hus).2
    exact ⟨Option.or_eq_none_iff.2 ⟨hwhole, hwholes⟩, hvs⟩

theorem MembersPhrase.whole {i : Interest} {d : Nat} {ts us : List Token}
    {ms : List (String × Json)} (h : MembersPhrase i d ts ms us) (hts : ∀ t ∈ ts, t.Sound) :
    faultMembers? ms = none ∧ ∀ t ∈ us, t.Sound := by
  match h with
  | .last _ hj =>
    obtain ⟨hwhole, hus⟩ := hj.whole (List.forall_mem_cons.1 (List.forall_mem_cons.1 hts).2).2
    exact ⟨Option.or_eq_none_iff.2 ⟨hwhole, rfl⟩, (List.forall_mem_cons.1 hus).2⟩
  | .more _ hj hmembers =>
    obtain ⟨hwhole, hus⟩ := hj.whole (List.forall_mem_cons.1 (List.forall_mem_cons.1 hts).2).2
    obtain ⟨hwholes, hvs⟩ := hmembers.whole (List.forall_mem_cons.1 hus).2
    exact ⟨Option.or_eq_none_iff.2 ⟨hwhole, hwholes⟩, hvs⟩

end

end Tokens

section Texts

variable {text : String}

/-- The text is a value that denotes `j`, and nothing else. -/
def TextPhrase (top : Interest) (text : String) (j : Json) : Prop :=
  ValuePhrase top 0 (tokens text.toList) j []

theorem TextPhrase.whole (h : TextPhrase top text j) : j.fault? = none :=
  (ValuePhrase.whole h (tokens_sound _)).1

theorem TextPhrase.read_eq (h : TextPhrase top text j) : read top text = ⟨j, false⟩ :=
  run_value h top [] rfl rfl

theorem textPhrase_of_read (h : (read top text).value.fault? = none)
    (ht : (read top text).trailing = false) : TextPhrase top text (read top text).value := by
  obtain ⟨j, us, hj⟩ := (begins (tokens text.toList)).1 top [] h
  have hread : read top text = ⟨j, !us.isEmpty⟩ := run_value hj top [] rfl rfl
  rw [hread] at ht ⊢
  obtain rfl : us = [] := by simpa using ht
  exact hj

theorem decodeText_eq_ok {E α : Type} {decoder : Decoder E α} (hd : decoder.Sound) {a : α} :
    decodeText top decoder text = .ok a ↔ ∃ j, TextPhrase top text j ∧ decoder j = .ok a := by
  rw [decodeText]
  constructor
  · intro h
    obtain ⟨b, hb, h⟩ := bind_eq_ok.1 h
    split at h
    · cases h
    · next ht =>
      cases h
      exact ⟨_, textPhrase_of_read (hd _ _ hb) (by simpa using ht), hb⟩
  · rintro ⟨j, hj, hja⟩
    rw [hj.read_eq]
    exact bind_eq_ok.2 ⟨a, hja, rfl⟩

end Texts

end MailSieve.Json
