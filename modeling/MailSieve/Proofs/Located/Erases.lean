import MailSieve.Grammar.Value
import MailSieve.Proofs.Reading.Reads
import MailSieve.Script.Erase

/-! Reading with and without locations.
Whether nodes get locations changes nothing else: without them a parser passes over the same tokens,
or fails with the same fault, and its result is the erased one. The lemmas here follow the
combinators of `Parse`. -/

namespace MailSieve

open Parse

/-- Without locations `q` does what `p` does with them, up to `f` on the result. -/
def Erases {α β : Type} (f : α → β) (p : Parse α) (q : Parse β) : Prop :=
  ∀ limit c, q ⟨false, limit⟩ c = (p ⟨true, limit⟩ c).map fun r => (f r.1, r.2)

namespace Erases

variable {α β γ δ : Type} {f : α → β} {g : γ → δ} {p : Parse α} {q : Parse β}

theorem pure {a : α} {b : β} (h : f a = b) : Erases f (Pure.pure a) (Pure.pure b) := by
  intro limit c
  rw [pure_run, pure_run, ← h]
  rfl

theorem bind {k : α → Parse γ} {m : β → Parse δ} (hp : Erases f p q)
    (hk : ∀ a, Erases g (k a) (m (f a))) : Erases g (p >>= k) (q >>= m) := by
  intro limit c
  rw [bind_run, bind_run, hp limit c]
  cases p ⟨true, limit⟩ c with
  | error e => rfl
  | ok r => exact hk r.1 limit r.2

theorem same {p : Parse α} (h : ∀ limit c, p ⟨false, limit⟩ c = p ⟨true, limit⟩ c) :
    Erases id p p := by
  intro limit c
  rw [h limit c]
  cases p ⟨true, limit⟩ c <;> rfl

theorem fault {e : Fault} : Erases f (throw e) (throw e) := fun _ _ => rfl

theorem fail : Erases f Parse.fail Parse.fail := fun _ _ => rfl

theorem note {e : Expected} : Erases id (Parse.note e) (Parse.note e) := fun _ _ => rfl

theorem peek : Erases id Parse.peek Parse.peek := fun _ _ => rfl

theorem advance : Erases id Parse.advance Parse.advance := same fun _ _ => rfl

theorem isAt {p : Punctuation} : Erases id (Parse.isAt p) (Parse.isAt p) := same fun _ _ => rfl

theorem ite {c : Prop} [Decidable c] {p' : Parse α} {q' : Parse β} (h : Erases f p q)
    (h' : Erases f p' q') : Erases f (if c then p else p') (if c then q else q') := by
  by_cases hc : c
  · rwa [if_pos hc, if_pos hc]
  · rwa [if_neg hc, if_neg hc]

theorem eat {p : Punctuation} : Erases id (Parse.eat p) (Parse.eat p) :=
  .bind isAt fun _ => .ite (.bind advance fun _ => .pure rfl) (.pure rfl)

theorem expect {p : Punctuation} : Erases id (Parse.expect p) (Parse.expect p) :=
  .bind isAt fun _ => .ite advance fail

theorem eatWord {word : String} : Erases id (Parse.eatWord word) (Parse.eatWord word) :=
  .bind note fun _ => .bind peek fun _ => .ite (.bind advance fun _ => .pure rfl) (.pure rfl)

theorem located {l : Location} :
    Erases (fun _ => none) (Parse.located l) (Parse.located l : Parse (Option Location)) :=
  fun _ _ => rfl

theorem span {start : Position} :
    Erases (fun _ => none) (Parse.span start) (Parse.span start : Parse (Option Location)) :=
  fun _ _ => rfl

theorem loop {step : α → Parse (Option α)} {step' : β → Parse (Option β)}
    (h : ∀ a, Erases (Option.map f) (step a) (step' (f a))) (ls : List Reading) (a : α) :
    Erases f (Parse.loop step ls a) (Parse.loop step' ls (f a)) := by
  induction ls generalizing a with
  | nil => exact .pure rfl
  | cons _ more ih =>
    refine (h a).bind fun o => ?_
    cases o with
    | none => exact .pure rfl
    | some a => exact ih a

theorem iterate {step : α → Parse (Option α)} {step' : β → Parse (Option β)}
    (h : ∀ a, Erases (Option.map f) (step a) (step' (f a))) (a : α) :
    Erases f (Parse.iterate step a) (Parse.iterate step' (f a)) :=
  fun limit c => loop h c.remaining a limit c

theorem collect {isLast : α → Bool} {isLast' : β → Bool} {item : Parse (Option α)}
    {item' : Parse (Option β)} (h : Erases (Option.map f) item item')
    (hl : ∀ a, isLast' (f a) = isLast a) (ls : List Reading) :
    Erases (List.map f) (Parse.collect isLast item ls) (Parse.collect isLast' item' ls) := by
  induction ls with
  | nil => exact .pure rfl
  | cons _ more ih =>
    refine h.bind fun o => ?_
    cases o with
    | none => exact .pure rfl
    | some a =>
      simp only [Option.map_some, hl a]
      exact .ite (.pure rfl) (ih.bind fun _ => .pure rfl)

theorem manyUntil {isLast : α → Bool} {isLast' : β → Bool} {item : Parse (Option α)}
    {item' : Parse (Option β)} (h : Erases (Option.map f) item item')
    (hl : ∀ a, isLast' (f a) = isLast a) :
    Erases (List.map f) (Parse.manyUntil isLast item) (Parse.manyUntil isLast' item') :=
  fun limit c => collect h hl c.remaining limit c

theorem many {item : Parse (Option α)} {item' : Parse (Option β)}
    (h : Erases (Option.map f) item item') :
    Erases (List.map f) (Parse.many item) (Parse.many item') := manyUntil h fun _ => rfl

theorem commaSeparated (h : Erases f p q) :
    Erases (List.map f) (Parse.commaSeparated p) (Parse.commaSeparated q) := by
  have hitem : Erases (Option.map f) (afterComma p) (afterComma q) :=
    .bind eat fun _ => .ite (h.bind fun _ => .pure rfl) (.pure rfl)
  exact h.bind fun _ => (many hitem).bind fun _ => .pure rfl

section Values

theorem string : Erases StringLit.erase Parse.string Parse.string := by
  refine .bind note fun _ => .bind peek fun l => ?_
  obtain ⟨token, location, text⟩ := l
  cases token with
  | string value multiline => exact .bind advance fun _ => .bind located fun _ => .pure rfl
  | _ => exact fail

theorem stringList : Erases StringList.erase Parse.stringList Parse.stringList := by
  refine .bind peek fun l => .bind eat fun _ => .ite ?_ ?_
  · exact (commaSeparated string).bind fun _ => .bind expect fun _ => .bind span fun _ => .pure rfl
  · exact .bind string fun _ => .bind span fun _ => .pure rfl

theorem number : Erases NumberLit.erase Parse.number Parse.number := by
  refine .bind note fun _ => .bind peek fun l => ?_
  obtain ⟨token, location, text⟩ := l
  cases token with
  | number value quantifier => exact .bind advance fun _ => .bind located fun _ => .pure rfl
  | _ => exact fail

theorem chosen {ofWord? : String → Option α} {refuse : String → Location → Fault} :
    Erases id (Parse.chosen ofWord? refuse) (Parse.chosen ofWord? refuse) := by
  refine .bind peek fun l => .bind string fun s => ?_
  obtain ⟨value, multiline, location⟩ := s
  dsimp only [StringLit.erase]
  cases ofWord? value with
  | none => exact fault
  | some a => exact .pure rfl

theorem isAtString : Erases id Parse.isAtString Parse.isAtString := by
  refine .bind peek fun l => ?_
  obtain ⟨token, location, text⟩ := l
  cases token <;> exact .pure rfl

theorem isAtStringList : Erases id Parse.isAtStringList Parse.isAtStringList := by
  refine .bind note fun _ => .bind note fun _ => .bind peek fun l => ?_
  obtain ⟨token, location, text⟩ := l
  cases token <;> exact .pure rfl

end Values

end Erases

end MailSieve
