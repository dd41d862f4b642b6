import MailSieve.Token
import MailSieve.Token.Quoted
import MailSieve.Token.TextBlock
import MailSieve.Text.Digits

/-! Canonical text as a sequence of marks: tokens, single spaces, and line breaks, each with the
nesting depth of what it begins. `pieces` spells the marks out. A multi-line literal brings line
breaks of its own, which are never indented. A layout only says what a line break and one level of
indentation are. -/

namespace MailSieve

structure Layout where
  indent : String
  newline : String
deriving DecidableEq

namespace Layout

def standard : Layout := ⟨"    ", "\n"⟩

end Layout

inductive Mark where
  | token (t : Token)
  | space
  | line (depth : Nat)

/-- Text that stands as it is, or a line break. -/
inductive Piece where
  | text (cs : List Char)
  | line (depth : Nat)

/-- A quantifier is written only where it divides the value. -/
def spellNumber (value : UInt64) (quantifier : Option Quantifier) : List Char :=
  match quantifier with
  | none => Text.decimal value.toNat
  | some q =>
    if value.toNat % q.multiplier = 0 then Text.decimal (value.toNat / q.multiplier) ++ [q.letter]
    else Text.decimal value.toNat

namespace Token

def pieces : Token → List Piece
  | tag name => [.text (':' :: name.toList)]
  | word name => [.text name.toList]
  | string value false => [.text ('"' :: (Quoted.quote value.toList ++ ['"']))]
  | string value true =>
    [.text ['t', 'e', 'x', 't', ':'], .line 0, .text (TextBlock.stuff value.toList), .line 0,
      .text ['.'], .line 0]
  | number value quantifier => [.text (spellNumber value quantifier)]
  | mark p => [.text [p.char]]
  | endOfInput => []

end Token

namespace Mark

def pieces : Mark → List Piece
  | token t => t.pieces
  | space => [.text [' ']]
  | line depth => [.line depth]

def word (name : String) : Mark := token (.word name)

def tag (name : String) : Mark := token (.tag name)

def punctuation (p : Punctuation) : Mark := token (.mark p)

def quoted (value : String) : Mark := token (.string value false)

end Mark

namespace Layout

def breakBefore (l : Layout) (depth : Nat) : List Char :=
  l.newline.toList ++ (List.replicate depth l.indent.toList).flatten

def renderPiece (l : Layout) : Piece → List Char
  | .text cs => cs
  | .line depth => l.breakBefore depth

def renderChars (l : Layout) (marks : List Mark) : List Char :=
  (marks.flatMap Mark.pieces).flatMap l.renderPiece

def render (l : Layout) (marks : List Mark) : String := String.ofList (l.renderChars marks)

end Layout

end MailSieve
