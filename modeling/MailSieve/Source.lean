/-! Places in a source text.
A position counts bytes from the start, and lines and columns from one; only a line feed starts a
new line, and a column is one code point. `Position.after` carries a position over a stretch of
text, so every place the library reports is the place after some prefix of the source. -/

namespace MailSieve

structure Position where
  offset : Nat
  line : Nat
  column : Nat
deriving DecidableEq

/-- The stretch from `start` up to, not including, `stop`. -/
structure Location where
  start : Position
  stop : Position
deriving DecidableEq

namespace Position

def origin : Position := ⟨0, 1, 1⟩

def next (p : Position) (c : Char) : Position :=
  if c = '\n' then ⟨p.offset + c.utf8Size, p.line + 1, 1⟩
  else ⟨p.offset + c.utf8Size, p.line, p.column + 1⟩

def after (p : Position) (cs : List Char) : Position :=
  cs.foldl next p

@[simp] theorem after_nil (p : Position) : p.after [] = p := rfl

@[simp] theorem after_cons (p : Position) (c : Char) (cs : List Char) :
    p.after (c :: cs) = (p.next c).after cs := rfl

theorem after_append (p : Position) (cs ds : List Char) :
    p.after (cs ++ ds) = (p.after cs).after ds := by
  simp [after, List.foldl_append]

end Position

end MailSieve
