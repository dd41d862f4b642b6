import MailSieve.Text.Digits

/-! Decimal numbers that are too large for double precision.
A number is held as a coefficient of at most 64 bits and a power of ten. `coefficient` keeps the
leading digits that fit and drops the others; coefficient and power are then rounded to 53 bits
each, and so is their product. The number is out of range if that product is beyond every double, so
that the verdict on numbers close to the largest double is the verdict of this rounding. -/

namespace MailSieve.Decimal

/-- As many digits as a word can hold after `n`, and the digits that are left over. -/
def takeDigits (n : Nat) : List Char → Nat × List Char
  | [] => (n, [])
  | d :: ds =>
    let m := 10 * n + Text.digitValue d
    if m < UInt64.size then takeDigits m ds else (n, d :: ds)

/-- The coefficient of a number without its exponent, and the power of ten that belongs to it. -/
def coefficient (whole fraction : List Char) : Nat × Int :=
  let (n, dropped) := takeDigits 0 whole
  let (m, unread) := takeDigits n fraction
  (m, (dropped.length : Int) - ((fraction.length - unread.length : Nat) : Int))

/-- To the nearest number of 53 significant bits, a half to the even neighbour. -/
def round (n : Nat) : Nat :=
  let unit := Nat.pow 2 (n.log2 - 52)
  let q := n / unit
  let r := n % unit
  if 2 * r < unit then q * unit
  else if unit < 2 * r then (q + 1) * unit
  else (q + q % 2) * unit

/-- A double has a power of ten up to 308. -/
def outOfRange (n : Nat) (e : Int) : Bool :=
  if n = 0 || e < 0 then false
  else if 308 < e then true
  else Nat.pow 2 1024 ≤ round (round n * round (Nat.pow 10 e.toNat))

end MailSieve.Decimal
