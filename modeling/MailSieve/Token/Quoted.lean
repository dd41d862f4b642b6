/-! Quoted strings: a backslash or a double quote inside is written after a backslash, and no other
escape is allowed. `quote` writes what stands between the quotes, `scanQuoted` reads it together
with the closing quote. -/

namespace MailSieve.Quoted

def quote : List Char → List Char
  | [] => []
  | c :: cs => if c = '\\' ∨ c = '"' then '\\' :: c :: quote cs else c :: quote cs

/-- What follows an opening quote. In every case `text` or `lead` holds the characters passed over
and `rest` what remains to be read. -/
inductive Result where
  | closed (value text rest : List Char)
  | badEscape (lead : List Char) (escaped : Char) (rest : List Char)
  | unclosed (text rest : List Char)
deriving DecidableEq

/-- Puts `text`, which denotes `c`, before a result. -/
def Result.push (c : Char) (text : List Char) : Result → Result
  | closed value more rest => closed (c :: value) (text ++ more) rest
  | badEscape lead escaped rest => badEscape (text ++ lead) escaped rest
  | unclosed more rest => unclosed (text ++ more) rest

/-- A backslash that ends the input is not passed over. -/
def scanQuoted : List Char → Result
  | [] => .unclosed [] []
  | '"' :: cs => .closed [] ['"'] cs
  | ['\\'] => .unclosed [] ['\\']
  | '\\' :: c :: cs =>
    if c = '\\' ∨ c = '"' then (scanQuoted cs).push c ['\\', c]
    else .badEscape [] c cs
  | c :: cs => (scanQuoted cs).push c [c]

/-- All the characters that a result accounts for. -/
def Result.all : Result → List Char
  | closed _ text rest => text ++ rest
  | badEscape lead escaped rest => lead ++ '\\' :: escaped :: rest
  | unclosed text rest => text ++ rest

@[simp] theorem Result.all_push (c : Char) (text : List Char) (r : Result) :
    (r.push c text).all = text ++ r.all := by
  cases r <;> simp [push, all]

theorem Result.push_eq_closed {c : Char} {lead value text rest : List Char} {r : Result} :
    r.push c lead = .closed value text rest
      ↔ ∃ v t, r = .closed v t rest ∧ c :: v = value ∧ lead ++ t = text := by
  cases r with
  | closed v t r =>
    simp only [push, closed.injEq]
    constructor
    · rintro ⟨rfl, rfl, rfl⟩
      exact ⟨v, t, ⟨rfl, rfl, rfl⟩, rfl, rfl⟩
    · rintro ⟨_, _, ⟨rfl, rfl, rfl⟩, rfl, rfl⟩
      exact ⟨rfl, rfl, rfl⟩
  | _ => simp [push]

theorem all_scanQuoted (cs : List Char) : (scanQuoted cs).all = cs := by
  fun_induction scanQuoted cs with
  | case1 => rfl
  | case2 => rfl
  | case3 => rfl
  | case4 c cs h ih => simp [ih]
  | case5 c cs h => rfl
  | case6 c cs _ _ _ ih => simp [ih]

end MailSieve.Quoted
