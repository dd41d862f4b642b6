/-! Lines of a text.
`segments` cuts at every line feed and loses nothing, so it always has one segment more than the
text has line feeds. `lines` is what a reader of the text counts: a line feed ends a line together
with one carriage return before it, and an empty last segment is no line. -/

namespace MailSieve.Text

def segments : List Char → List (List Char)
  | [] => [[]]
  | c :: cs =>
    if c = '\n' then [] :: segments cs
    else
      match segments cs with
      | [] => [[c]]
      | s :: ss => (c :: s) :: ss

def joinSegments (ss : List (List Char)) : List Char := List.intercalate ['\n'] ss

/-- Without one final `c`, if there is one. -/
def stripEnd (c : Char) (cs : List Char) : List Char :=
  if cs.getLast? = some c then cs.dropLast else cs

def linesOf : List (List Char) → List (List Char)
  | [] => []
  | [s] => if s = [] then [] else [s]
  | s :: t :: ss => stripEnd '\r' s :: linesOf (t :: ss)

def lines (cs : List Char) : List (List Char) := linesOf (segments cs)

theorem segments_ne_nil (cs : List Char) : segments cs ≠ [] := by
  cases cs with
  | nil => simp [segments]
  | cons c cs =>
    rw [segments]
    split
    · simp
    · split <;> simp

theorem joinSegments_segments (cs : List Char) : joinSegments (segments cs) = cs := by
  induction cs with
  | nil => rfl
  | cons c cs ih =>
    rw [segments]
    split
    · next h =>
      subst h
      cases hs : segments cs with
      | nil => exact absurd hs (segments_ne_nil cs)
      | cons s ss => rw [hs] at ih; simp [joinSegments, List.intercalate] at ih ⊢; exact ih
    · cases hs : segments cs with
      | nil => exact absurd hs (segments_ne_nil cs)
      | cons s ss =>
        rw [hs] at ih
        cases ss with
        | nil => simp [joinSegments, List.intercalate] at ih ⊢; exact ih
        | cons t ts => simp [joinSegments, List.intercalate] at ih ⊢; exact ih

end MailSieve.Text
