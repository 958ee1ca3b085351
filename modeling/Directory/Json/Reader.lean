import Directory.Json.Basic
import Directory.Text.Decimal
import Directory.Text.Hex

/-!
# Reading JSON documents

* `Json.parse?`: reads a whole text.
* `readValue`, `readItems`, `readFields`: a document, the rest of an array, the rest of an object.
* `readString?`, `readNumber?`: the two kinds of scalars with an inner grammar.

A reading function gives what it read and the rest of the input.
-/

namespace Directory.Json

/-- Blanks of a document. -/
def isGap (c : Char) : Bool := c == ' ' || c == '\t' || c == '\r' || c == '\n'

def skipGap (cs : List Char) : List Char := cs.dropWhile isGap

/-! ## Strings -/

/-- The code unit written by four digits. -/
def readUnit? : List Char → Option (Nat × List Char)
  | a :: b :: c :: d :: cs => do
    let w ← Text.hexValue? a
    let x ← Text.hexValue? b
    let y ← Text.hexValue? c
    let z ← Text.hexValue? d
    return (4096 * w + 256 * x + 16 * y + z, cs)
  | _ => none

/-- One piece of a string: a character, a code unit, or the closing quote. -/
inductive StringToken where
  | char (c : Char)
  | unit (n : Nat)
  | close
deriving DecidableEq, Inhabited

/-- The next piece of a string. -/
def readToken? : List Char → Option (StringToken × List Char)
  | '"' :: cs => some (.close, cs)
  | '\\' :: 'u' :: cs => do
    let (n, cs) ← readUnit? cs
    return (.unit n, cs)
  | '\\' :: c :: cs =>
    match c with
    | '"' | '\\' | '/' => some (.char c, cs)
    | 'b' => some (.char '\x08', cs)
    | 'f' => some (.char '\x0c', cs)
    | 'n' => some (.char '\n', cs)
    | 'r' => some (.char '\r', cs)
    | 't' => some (.char '\t', cs)
    | _ => none
  | c :: cs => if c = '\\' ∨ c.toNat < 0x20 then none else some (.char c, cs)
  | [] => none

/-- The pieces of a string up to its closing quote; `n` bounds their number. -/
def readTokens? : (n : Nat) → List Char → Option (List StringToken × List Char)
  | 0, _ => none
  | n + 1, cs => do
    match ← readToken? cs with
    | (.close, cs) => return ([], cs)
    | (t, cs) =>
      let (ts, cs) ← readTokens? n cs
      return (t :: ts, cs)

/-- The text of the pieces; none if a surrogate stands without its partner. -/
def textOfTokens? : List StringToken → Option (List Char)
  | [] => some []
  | .char c :: ts => (c :: ·) <$> textOfTokens? ts
  | .close :: ts => textOfTokens? ts
  | .unit n :: ts =>
    if 0xd800 ≤ n ∧ n < 0xdc00 then
      match ts with
      | .unit m :: ts =>
        if 0xdc00 ≤ m ∧ m < 0xe000 then
          (Char.ofNat (0x10000 + 0x400 * (n - 0xd800) + (m - 0xdc00)) :: ·) <$> textOfTokens? ts
        else none
      | _ => none
    else if 0xdc00 ≤ n ∧ n < 0xe000 then none
    else (Char.ofNat n :: ·) <$> textOfTokens? ts

/-- A string after its opening quote; its text is none if a surrogate stands unpaired. -/
def readString? (cs : List Char) : Option (Option String × List Char) := do
  let (ts, cs) ← readTokens? (cs.length + 1) cs
  return (String.ofList <$> textOfTokens? ts, cs)

/-! ## Numbers -/

/-- Digits, at least one. -/
def readDigits? (cs : List Char) : Option (List Char × List Char) :=
  match cs.takeWhile Char.isDigit with
  | [] => none
  | ds => some (ds, cs.dropWhile Char.isDigit)

/-- The digits of a whole number, without a needless zero in front. -/
def readWhole? (cs : List Char) : Option (List Char × List Char) := do
  let (ds, cs) ← readDigits? cs
  if ds.head? = some '0' ∧ ds.length ≠ 1 then none else return (ds, cs)

/-- A fraction, if there is one: whether there is, and the rest. -/
def readFraction? : List Char → Option (Bool × List Char)
  | '.' :: cs => do
    let (_, cs) ← readDigits? cs
    return (true, cs)
  | cs => some (false, cs)

/-- The input after a sign, if there is one. -/
def skipSign : List Char → List Char
  | '+' :: cs | '-' :: cs => cs
  | cs => cs

/-- An exponent, if there is one: whether there is, and the rest. -/
def readExponent? : List Char → Option (Bool × List Char)
  | 'e' :: cs | 'E' :: cs => do
    let (_, cs) ← readDigits? (skipSign cs)
    return (true, cs)
  | cs => some (false, cs)

/-- A number; one with a fraction or an exponent is unreadable, and so is the negative zero. -/
def readNumber? (cs : List Char) : Option (Json × List Char) := do
  let (negative, cs) := match cs with
    | '-' :: cs => (true, cs)
    | cs => (false, cs)
  let (ds, cs) ← readWhole? cs
  let (fraction, cs) ← readFraction? cs
  let (exponent, cs) ← readExponent? cs
  let n ← Text.readNat? ds
  if fraction || exponent || (negative && n == 0) then return (unreadable, cs)
  else return (integer (if negative then -(n : Int) else n), cs)

/-! ## Documents -/

/-- The input after a word that has to stand there. -/
def readWord? (word cs : List Char) : Option (List Char) :=
  if word.isPrefixOf cs then some (cs.drop word.length) else none

/-- A key with its colon, after its opening quote. -/
def readKey? (cs : List Char) : Option (Option String × List Char) := do
  let (key, cs) ← readString? cs
  match skipGap cs with
  | ':' :: cs => return (key, cs)
  | _ => none

/-- An object of fields, some of whose keys may be no texts. -/
def ofFields (fields : List (Option String × Json)) : Json :=
  match fields.mapM fun f => f.1.map (·, f.2) with
  | some fields => object fields
  | none => unreadable

mutual

/-- A document; `n` bounds its size. -/
def readValue : (n : Nat) → List Char → Option (Json × List Char)
  | 0, _ => none
  | n + 1, cs =>
    match skipGap cs with
    | '"' :: cs => do
      let (s, cs) ← readString? cs
      return (s.elim unreadable string, cs)
    | '[' :: cs =>
      match skipGap cs with
      | ']' :: cs => some (array [], cs)
      | cs => do
        let (items, cs) ← readItems n cs
        return (array items, cs)
    | '\x7b' :: cs =>
      match skipGap cs with
      | '\x7d' :: cs => some (object [], cs)
      | cs => do
        let (fields, cs) ← readFields n cs
        return (ofFields fields, cs)
    | 'n' :: cs => (null, ·) <$> readWord? ['u', 'l', 'l'] cs
    | 't' :: cs => (bool true, ·) <$> readWord? ['r', 'u', 'e'] cs
    | 'f' :: cs => (bool false, ·) <$> readWord? ['a', 'l', 's', 'e'] cs
    | cs => readNumber? cs

/-- The items of an array up to its end. -/
def readItems : (n : Nat) → List Char → Option (List Json × List Char)
  | 0, _ => none
  | n + 1, cs => do
    let (item, cs) ← readValue n cs
    match skipGap cs with
    | ']' :: cs => return ([item], cs)
    | ',' :: cs =>
      let (items, cs) ← readItems n cs
      return (item :: items, cs)
    | _ => none

/-- The fields of an object up to its end. -/
def readFields : (n : Nat) → List Char → Option (List (Option String × Json) × List Char)
  | 0, _ => none
  | n + 1, cs =>
    match skipGap cs with
    | '"' :: cs => do
      let (key, cs) ← readKey? cs
      let (item, cs) ← readValue n cs
      match skipGap cs with
      | '\x7d' :: cs => return ([(key, item)], cs)
      | ',' :: cs =>
        let (fields, cs) ← readFields n cs
        return ((key, item) :: fields, cs)
      | _ => none
    | _ => none

end

/-- Reads a document that is the whole text, blanks aside. -/
def parse? (s : String) : Option Json :=
  match readValue (s.length + 1) s.toList with
  | some (j, rest) => if (skipGap rest).isEmpty then some j else none
  | none => none

end Directory.Json
