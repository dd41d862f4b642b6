/-! Natural numbers in decimal digits. -/

namespace MailSieve.Text

def decimal (n : Nat) : List Char := Nat.toDigits 10 n

def digitValue (c : Char) : Nat := c.toNat - '0'.toNat

def digitsValue (cs : List Char) : Nat := cs.foldl (fun n c => 10 * n + digitValue c) 0

end MailSieve.Text
