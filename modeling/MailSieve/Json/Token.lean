import MailSieve.Json.Value
import MailSieve.Json.Decimal
import MailSieve.Text.Digits

/-! Tokens of JSON text.
A scalar or a string that is flawed is a token too, so that the flaw is noticed only where a value
is wanted. A flaw has one weight for a reader that wants the value and another for one that passes
over it: a number out of range or half of a surrogate pair does not stop the latter. -/

namespace MailSieve.Json

/-- What a flawed value means to a reader that wants it and, if anything, to one that skips it. -/
structure Flaw where
  wanted : TextFault
  skipped : Option TextFault
deriving DecidableEq

inductive Token where
  | openArray
  | closeArray
  | openObject
  | closeObject
  | colon
  | comma
  | text (content : Except Flaw String)
  | scalar (value : Except Flaw Json)

def isSpace (c : Char) : Bool := c == ' ' || c == '\n' || c == '\t' || c == '\r'

def hexValue? (c : Char) : Option Nat :=
  if c.isDigit then some (c.toNat - '0'.toNat)
  else if 'a' ≤ c ∧ c ≤ 'f' then some (c.toNat - 'a'.toNat + 10)
  else if 'A' ≤ c ∧ c ≤ 'F' then some (c.toNat - 'A'.toNat + 10)
  else none

def hexUnit? (a b c d : Char) : Option Nat := do
  pure ((((← hexValue? a) * 16 + (← hexValue? b)) * 16 + (← hexValue? c)) * 16 + (← hexValue? d))

def plainEscape? (c : Char) : Option Char :=
  match c with
  | '"' => some '"'
  | '\\' => some '\\'
  | '/' => some '/'
  | 'b' => some '\x08'
  | 'f' => some '\x0c'
  | 'n' => some '\n'
  | 'r' => some '\r'
  | 't' => some '\t'
  | _ => none

/-- A character of a string, or a 16-bit unit written as an escape. -/
inductive Piece where
  | char (c : Char)
  | unit (n : Nat)
deriving DecidableEq

/-- What stands between the quotes, and how it ends. -/
structure Pieces where
  pieces : List Piece
  ending : Except TextFault (List Char)

def Pieces.push (p : Piece) (ps : Pieces) : Pieces := { ps with pieces := p :: ps.pieces }

def utf8Length (cs : List Char) : Nat := cs.foldl (fun n c => n + c.utf8Size) 0

/-- What follows an opening quote. -/
def scanPieces : List Char → Pieces
  | [] => ⟨[], .error .ended⟩
  | '"' :: cs => ⟨[], .ok cs⟩
  | ['\\'] => ⟨[], .error .ended⟩
  | '\\' :: 'u' :: a :: b :: c :: d :: cs =>
    match hexUnit? a b c d with
    | some n => (scanPieces cs).push (.unit n)
    | none => ⟨[], .error .malformed⟩
  | '\\' :: 'u' :: cs => ⟨[], .error (if utf8Length cs < 4 then .ended else .malformed)⟩
  | '\\' :: c :: cs =>
    match plainEscape? c with
    | some e => (scanPieces cs).push (.char e)
    | none => ⟨[], .error .malformed⟩
  | c :: cs => if c.toNat < 32 then ⟨[], .error .malformed⟩ else (scanPieces cs).push (.char c)

def isHighSurrogate (n : Nat) : Bool := 0xD800 ≤ n && n < 0xDC00

def isLowSurrogate (n : Nat) : Bool := 0xDC00 ≤ n && n < 0xE000

def surrogatePair (high low : Nat) : Char :=
  Char.ofNat (0x10000 + (high - 0xD800) * 0x400 + (low - 0xDC00))

/-- The characters of a string that ends well, or its first flaw. -/
def joinPieces (ending : Option TextFault) : List Piece → Except TextFault (List Char)
  | [] =>
    match ending with
    | none => .ok []
    | some f => .error f
  | .char c :: ps => (joinPieces ending ps).map (c :: ·)
  | [.unit n] =>
    if isHighSurrogate n then .error (ending.getD .malformed)
    else if isLowSurrogate n then .error .malformed
    else
      match ending with
      | none => .ok [Char.ofNat n]
      | some f => .error f
  | .unit n :: .unit m :: ps =>
    if isHighSurrogate n then
      if isLowSurrogate m then (joinPieces ending ps).map (surrogatePair n m :: ·)
      else .error .malformed
    else if isLowSurrogate n then .error .malformed
    else (joinPieces ending (.unit m :: ps)).map (Char.ofNat n :: ·)
  | .unit n :: p :: ps =>
    if isHighSurrogate n || isLowSurrogate n then .error .malformed
    else (joinPieces ending (p :: ps)).map (Char.ofNat n :: ·)

/-- A token and what follows it; nothing is read after a flaw that stops every reader. -/
abbrev Step := Token × List Char

def scanText (cs : List Char) : Step :=
  let ps := scanPieces cs
  match ps.ending with
  | .ok rest =>
    (.text ((joinPieces none ps.pieces).mapError (⟨·, none⟩) |>.map String.ofList), rest)
  | .error f =>
    let wanted := match joinPieces (some f) ps.pieces with
      | .ok _ => f
      | .error g => g
    (.text (.error ⟨wanted, some f⟩), [])

def hardFlaw (f : TextFault) : Step := (.scalar (.error ⟨f, some f⟩), [])

/-- A number that the end of the text cuts off. -/
def cutNumber : Step := (.scalar (.error ⟨.ended, some .malformed⟩), [])

/-- Digits where at least one is needed. -/
def digitRun (cs : List Char) : Option (List Char × List Char) :=
  match cs.takeWhile Char.isDigit with
  | [] => none
  | ds => some (ds, cs.dropWhile Char.isDigit)

def missingDigit (cs : List Char) : Step :=
  if cs.isEmpty then cutNumber else hardFlaw .malformed

def isTooLarge (whole fraction : List Char) (exponent : Int) : Bool :=
  let (n, e) := Decimal.coefficient whole fraction
  Decimal.outOfRange n (e + exponent)

/-- The value of an integer: those that 64 bits cannot hold, and minus zero, are no integers. -/
def integerValue (minus : Bool) (digits : List Char) : Except Flaw Json :=
  let n := Text.digitsValue digits
  let text := String.ofList (if minus then '-' :: digits else digits)
  if !minus && n < UInt64.size then .ok (.natural n)
  else if minus && n != 0 && 2 * n ≤ UInt64.size then .ok (.negative n)
  else if isTooLarge digits [] 0 then .error ⟨.malformed, none⟩
  else .ok (.real text)

def realValue (minus : Bool) (whole fraction : List Char) (exponent : Int) (text : List Char) :
    Except Flaw Json :=
  if isTooLarge whole fraction exponent then
    .error ⟨.malformed, none⟩
  else .ok (.real (String.ofList (if minus then '-' :: text else text)))

/-- The sign that a text begins with, if any, and the rest. -/
def splitSign : List Char → List Char × List Char
  | '+' :: cs => (['+'], cs)
  | '-' :: cs => (['-'], cs)
  | cs => ([], cs)

/-- What follows an exponent's letter. -/
def scanExponent (minus : Bool) (whole fraction text cs : List Char) : Step :=
  let lead := splitSign cs
  match digitRun lead.2 with
  | none => missingDigit lead.2
  | some (ds, more) =>
    let e : Int := if lead.1 = ['-'] then -(Text.digitsValue ds : Int) else Text.digitsValue ds
    (.scalar (realValue minus whole fraction e (text ++ lead.1 ++ ds)), more)

/-- What follows the digits of a number's whole part. -/
def scanAfterWhole (minus : Bool) (whole cs : List Char) : Step :=
  match cs with
  | '.' :: r =>
    match digitRun r with
    | none => missingDigit r
    | some (ds, more) =>
      let text := whole ++ '.' :: ds
      match more with
      | c :: more' =>
        if c = 'e' ∨ c = 'E' then scanExponent minus whole ds (text ++ [c]) more'
        else (.scalar (realValue minus whole ds 0 text), more)
      | [] => (.scalar (realValue minus whole ds 0 text), [])
  | c :: r =>
    if c = 'e' ∨ c = 'E' then scanExponent minus whole [] (whole ++ [c]) r
    else (.scalar (integerValue minus whole), cs)
  | [] => (.scalar (integerValue minus whole), [])

/-- A zero that begins the whole part is all of it. -/
def scanNumber (minus : Bool) (cs : List Char) : Step :=
  match digitRun cs with
  | none => missingDigit cs
  | some (ds, more) =>
    if ds.head? = some '0' && ds.length > 1 then hardFlaw .malformed
    else scanAfterWhole minus ds more

/-- The rest of a word whose first letter has been read. -/
def scanWord (value : Json) : List Char → List Char → Step
  | [], cs => (.scalar (.ok value), cs)
  | _ :: _, [] => hardFlaw .ended
  | w :: ws, c :: cs => if w = c then scanWord value ws cs else hardFlaw .malformed

def scanToken (c : Char) (cs : List Char) : Step :=
  match c with
  | '[' => (.openArray, cs)
  | ']' => (.closeArray, cs)
  | '{' => (.openObject, cs)
  | '}' => (.closeObject, cs)
  | ':' => (.colon, cs)
  | ',' => (.comma, cs)
  | '"' => scanText cs
  | '-' => scanNumber true cs
  | 'n' => scanWord .null ['u', 'l', 'l'] cs
  | 't' => scanWord (.bool true) ['r', 'u', 'e'] cs
  | 'f' => scanWord (.bool false) ['a', 'l', 's', 'e'] cs
  | c => if c.isDigit then scanNumber false (c :: cs) else hardFlaw .malformed

theorem scanPieces_ending_length {cs rest : List Char} (h : (scanPieces cs).ending = .ok rest) :
    rest.length ≤ cs.length := by
  fun_induction scanPieces cs with
  | case1 => simp at h
  | case2 cs => simp at h; simp [← h]
  | case3 => simp at h
  | case4 a b c d cs n hn ih => have := ih h; simp; omega
  | case5 => simp at h
  | case6 => simp at h
  | case7 c cs _ _ e he ih => have := ih h; simp; omega
  | case8 => simp at h
  | case9 => simp at h
  | case10 c cs _ _ _ _ _ _ ih => have := ih h; simp; omega

theorem scanText_length_le (cs : List Char) : (scanText cs).2.length ≤ cs.length := by
  rw [scanText]
  cases h : (scanPieces cs).ending with
  | ok rest => exact scanPieces_ending_length h
  | error f => simp

theorem digitRun_length_lt {cs ds rest : List Char} (h : digitRun cs = some (ds, rest)) :
    rest.length < cs.length := by
  rw [digitRun] at h
  cases ht : cs.takeWhile Char.isDigit with
  | nil => simp [ht] at h
  | cons d ts =>
    have hcs := congrArg List.length (List.takeWhile_append_dropWhile (p := Char.isDigit) (l := cs))
    simp [ht] at h hcs
    simp [← h.2]
    omega

theorem missingDigit_length (cs : List Char) : (missingDigit cs).2.length = 0 := by
  rw [missingDigit]
  split <;> rfl

theorem splitSign_length_le (cs : List Char) : (splitSign cs).2.length ≤ cs.length := by
  unfold splitSign
  split <;> simp

theorem scanExponent_length_le (minus : Bool) (whole fraction text cs : List Char) :
    (scanExponent minus whole fraction text cs).2.length ≤ cs.length := by
  have hs := splitSign_length_le cs
  unfold scanExponent
  dsimp only
  split
  · simp [missingDigit_length]
  · next h => have := digitRun_length_lt h; simp; omega

theorem scanAfterWhole_length_le (minus : Bool) (whole cs : List Char) :
    (scanAfterWhole minus whole cs).2.length ≤ cs.length := by
  unfold scanAfterWhole
  split
  · split
    · simp [missingDigit_length]
    · next ds more h =>
      have hd := digitRun_length_lt h
      dsimp only
      split
      · next c more =>
        split
        · have := scanExponent_length_le minus whole ds (whole ++ '.' :: ds ++ [c]) more
          simp at *; omega
        · simp at *; omega
      · simp
  · next c r _ =>
    split
    · have := scanExponent_length_le minus whole [] (whole ++ [c]) r
      simp; omega
    · simp
  · simp

theorem scanNumber_length_lt (minus : Bool) {cs : List Char} (h : cs ≠ []) :
    (scanNumber minus cs).2.length < cs.length := by
  have hcs := List.length_pos_iff.2 h
  unfold scanNumber
  split
  · simpa [missingDigit_length] using hcs
  · next ds more hd =>
    have := digitRun_length_lt hd
    split
    · simpa [hardFlaw] using hcs
    · have := scanAfterWhole_length_le minus ds more
      omega

theorem scanNumber_length_le (minus : Bool) (cs : List Char) :
    (scanNumber minus cs).2.length ≤ cs.length := by
  cases cs with
  | nil => simp [scanNumber, digitRun, missingDigit, cutNumber]
  | cons c cs => exact Nat.le_of_lt (scanNumber_length_lt minus (by simp))

theorem scanWord_length_le (value : Json) (word cs : List Char) :
    (scanWord value word cs).2.length ≤ cs.length := by
  fun_induction scanWord value word cs with
  | case1 => simp
  | case2 => simp [hardFlaw]
  | case3 c ws cs ih => simp; omega
  | case4 => simp [hardFlaw]

theorem scanToken_length_le (c : Char) (cs : List Char) :
    (scanToken c cs).2.length ≤ cs.length := by
  unfold scanToken
  split <;> try simp
  · exact scanText_length_le cs
  · exact scanNumber_length_le true cs
  · exact scanWord_length_le _ _ cs
  · exact scanWord_length_le _ _ cs
  · exact scanWord_length_le _ _ cs
  · split
    · exact Nat.le_of_lt_succ (scanNumber_length_lt false (List.cons_ne_nil _ _))
    · simp [hardFlaw]

/-- All tokens of a text, as far as it is one. -/
def tokens (cs : List Char) : List Token :=
  match cs with
  | [] => []
  | c :: cs =>
    if isSpace c then tokens cs
    else
      let step := scanToken c cs
      have := scanToken_length_le c cs
      step.1 :: tokens step.2
termination_by cs.length

end MailSieve.Json
