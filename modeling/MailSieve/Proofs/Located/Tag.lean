import MailSieve.Grammar.Tag
import MailSieve.Proofs.Located.Erases

/-! Tags with and without locations.
Only the values of tags hold locations, so which tags occur, and how they exclude each other, is the
same in both readings. -/

namespace MailSieve

namespace TagValue

def erase : TagValue → TagValue
  | string s => string s.erase
  | strings l => strings l.erase
  | number n => number n.erase
  | value => value

end TagValue

namespace TagUses

def erase (uses : TagUses) : TagUses := uses.map fun u => ⟨u.rule, u.value.erase⟩

variable (uses : TagUses) (name : String)

theorem taken_erase (rule : TagRule) : uses.erase.taken rule = uses.taken rule := by
  unfold taken erase
  rw [List.any_map]
  rfl

theorem isEmpty_erase : uses.erase.isEmpty = uses.isEmpty := List.isEmpty_map

theorem value?_erase : uses.erase.value? name = (uses.value? name).map TagValue.erase := by
  unfold value? erase
  rw [List.find?_map, Option.map_map, Option.map_map]
  rfl

theorem has_erase : uses.erase.has name = uses.has name := by
  unfold has
  rw [value?_erase, Option.isSome_map]

theorem string?_erase : uses.erase.string? name = (uses.string? name).map StringLit.erase := by
  unfold string?
  rw [value?_erase]
  rcases uses.value? name with _ | _ | _ | _ | _ | _ | _ <;> rfl

theorem strings?_erase : uses.erase.strings? name = (uses.strings? name).map StringList.erase := by
  unfold strings?
  rw [value?_erase]
  rcases uses.value? name with _ | _ | _ | _ | _ | _ | _ <;> rfl

theorem number?_erase : uses.erase.number? name = (uses.number? name).map NumberLit.erase := by
  unfold number?
  rw [value?_erase]
  rcases uses.value? name with _ | _ | _ | _ | _ | _ | _ <;> rfl

theorem importance?_erase : uses.erase.importance? name = uses.importance? name := by
  unfold importance?
  rw [value?_erase]
  rcases uses.value? name with _ | _ | _ | _ | _ | _ | _ <;> rfl

theorem relational?_erase (kind : RelationalKind) :
    uses.erase.relational? kind = uses.relational? kind := by
  unfold relational?
  rw [value?_erase]
  rcases uses.value? kind.word with _ | _ | _ | _ | _ | _ | _ <;> rfl

theorem matchOptions_erase : uses.erase.matchOptions = uses.matchOptions.erase := by
  have hrelational : uses.erase.relational? = uses.relational? := by
    funext kind
    exact relational?_erase uses kind
  unfold matchOptions
  simp only [has_erase, hrelational, string?_erase]
  rfl

theorem addressPart?_erase : uses.erase.addressPart? = uses.addressPart? := by
  unfold addressPart?
  simp only [has_erase]

theorem transform?_erase :
    uses.erase.transform? = uses.transform?.map BodyTransform.erase := by
  unfold transform?
  rw [has_erase, has_erase, strings?_erase]
  by_cases hraw : uses.has "raw" = true
  · rw [if_pos hraw, if_pos hraw]
    rfl
  · rw [if_neg hraw, if_neg hraw]
    by_cases htext : uses.has "text" = true
    · rw [if_pos htext, if_pos htext]
      rfl
    · rw [if_neg htext, if_neg htext, Option.map_map, Option.map_map]
      rfl

theorem modifiers_erase : uses.erase.modifiers = uses.modifiers := by
  unfold modifiers erase
  rw [List.filterMap_map]
  rfl

end TagUses

namespace Erases

theorem tagValue (kind : TagValueKind) :
    Erases TagValue.erase (Parse.tagValue kind) (Parse.tagValue kind) := by
  cases kind with
  | none => exact .pure rfl
  | string => exact .bind string fun _ => .pure rfl
  | strings => exact .bind stringList fun _ => .pure rfl
  | number => exact .bind number fun _ => .pure rfl
  | operator => exact .bind chosen fun _ => .pure rfl
  | importance => exact .bind chosen fun _ => .pure rfl

theorem nextTag : Erases id Parse.nextTag Parse.nextTag := by
  refine .bind note fun _ => .bind peek fun l => ?_
  obtain ⟨token, location, text⟩ := l
  cases token with
  | tag name => exact .bind advance fun _ => .pure rfl
  | _ => exact .pure rfl

theorem tagStep (rules : List TagRule) (uses : TagUses) :
    Erases (Option.map TagUses.erase) (Parse.tagStep rules uses)
      (Parse.tagStep rules uses.erase) := by
  refine .bind nextTag fun o => ?_
  obtain _ | ⟨name, l⟩ := o
  · exact .pure rfl
  · dsimp only [id]
    cases rules.find? (·.name == name) with
    | none => exact fault
    | some rule =>
      dsimp only
      rw [TagUses.taken_erase]
      refine .ite fault ((tagValue rule.value).bind fun value => .ite fault (.pure ?_))
      simp [TagUses.erase]

theorem tags (rules : List TagRule) :
    Erases TagUses.erase (Parse.tags rules) (Parse.tags rules) := iterate (tagStep rules) []

end Erases

end MailSieve
