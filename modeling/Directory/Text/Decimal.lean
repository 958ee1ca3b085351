/-!
# Integers as text

* `readNat?`: the number that ASCII digits write.
* `readInt64?`: a signed number of 64 bits, with an optional sign before its digits.
-/

namespace Directory.Text

/-- The number written by digits, at least one. -/
def readNat? (cs : List Char) : Option Nat :=
  if cs.isEmpty || !cs.all Char.isDigit then none
  else some (cs.foldl (fun n c => 10 * n + (c.toNat - '0'.toNat)) 0)

/-- The integer, if it has 64 bits. -/
def toInt64? (n : Int) : Option Int64 :=
  if Int64.minValue.toInt ≤ n ∧ n ≤ Int64.maxValue.toInt then some (Int64.ofInt n) else none

/-- The signed number of 64 bits written by a text. -/
def readInt64? (cs : List Char) : Option Int64 :=
  match cs with
  | '-' :: ds => (readNat? ds).bind fun n => toInt64? (-(n : Int))
  | '+' :: ds => (readNat? ds).bind fun n => toInt64? n
  | ds => (readNat? ds).bind fun n => toInt64? n

end Directory.Text
