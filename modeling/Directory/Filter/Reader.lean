import Directory.Error
import Directory.Filter.Basic
import Directory.Text.Hex

/-!
# Reading filters

A written filter stands in parentheses; a single assertion may go without them.

* `Filter.parse`: reads a whole text.
* `readFilter`, `readBody`, `readMany`: a filter, what stands in its parentheses, and a sequence.
* `readItem?`, `readExtensible?`: the two kinds of assertions; `readValue?` resolves the escapes of
  a value, which is binary if its bytes are no text.

A reading function gives what it read and the rest of the input.
-/

namespace Directory.Filter

/-- Blanks between the signs of a filter. -/
def isGap (c : Char) : Bool := c == ' ' || c == '\t' || c == '\r' || c == '\n'

/-- The input after blanks. -/
def skipGap (cs : List Char) : List Char := cs.dropWhile isGap

/-- Characters of a matching rule. -/
def isRuleChar (c : Char) : Bool := c.isAlphanum || c == '-' || c == '.'

/-- Characters of an attribute. -/
def isAttributeChar (c : Char) : Bool := isRuleChar c || c == ';'

/-- Characters of a written value. -/
def isValueChar (c : Char) : Bool := c != '(' && c != ')'

/-- The longest start of the input made of such characters, if it is not empty. -/
def readSome (p : Char → Bool) (cs : List Char) : Option (List Char × List Char) :=
  match cs.takeWhile p with
  | [] => none
  | c :: word => some (c :: word, cs.dropWhile p)

/-! ## Values -/

/-- The bytes of a written value; none if a backslash lacks its two digits. -/
def readBytes? : List Char → Option (List UInt8)
  | [] => some []
  | '\\' :: a :: b :: cs => do
    let x ← Text.hexValue? a
    let y ← Text.hexValue? b
    let bytes ← readBytes? cs
    return UInt8.ofNat (16 * x + y) :: bytes
  | c :: cs => if c = '\\' then none else (String.utf8EncodeChar c ++ ·) <$> readBytes? cs

/-- The value of bytes: a text if they are well formed. -/
def valueOfBytes (bytes : List UInt8) : Value :=
  match Text.ofUtf8? bytes with
  | some s => .text s
  | none => .binary bytes

/-- The value written by `cs`. -/
def readValue? (cs : List Char) : Option Value := valueOfBytes <$> readBytes? cs

/-- The piece written by `cs`, if that is not empty. -/
def readPiece? (cs : List Char) : Option (Option String) :=
  if cs.isEmpty then some none else (some ∘ Value.display) <$> readValue? cs

/-- The parts between asterisks. -/
def splitPieces (cs : List Char) : List (List Char) := cs.splitOn '*'

/-- The pieces written by `cs`, which has an asterisk; empty ones are dropped. -/
def readPieces? (cs : List Char) : Option Pieces :=
  match splitPieces cs with
  | [] => none
  | first :: rest => do
    let initial ← readPiece? first
    let inner ← rest.dropLast.mapM readPiece?
    let final ← readPiece? (rest.getLastD [])
    return ⟨initial, inner.filterMap id, final⟩

/-! ## Assertions -/

/-- The comparison at the start of the input. -/
def readSign? : List Char → Option (Comparison × List Char)
  | '~' :: '=' :: cs => some (.approximate, cs)
  | '>' :: '=' :: cs => some (.atLeast, cs)
  | '<' :: '=' :: cs => some (.atMost, cs)
  | '=' :: cs => some (.equality, cs)
  | _ => none

/-- The assertion of a comparison and a written value. -/
def item? (a : AttributeId) (op : Comparison) (raw : List Char) : Option Filter :=
  if op = .equality ∧ raw = ['*'] then some (presence a none)
  else if op = .equality ∧ '*' ∈ raw then (substring a · none) <$> readPieces? raw
  else (comparison op a · none) <$> readValue? raw

/-- An attribute, a comparison and a value. -/
def readItem? (cs : List Char) : Option (Filter × List Char) := do
  let (a, cs) ← readSome isAttributeChar cs
  let (op, cs) ← readSign? cs
  let f ← item? (.ofName (String.ofList a)) op (cs.takeWhile isValueChar)
  return (f, cs.dropWhile isValueChar)

/-- The mark that the values in the name count, which a colon has to follow. -/
def readNameMark (cs : List Char) : Bool × List Char :=
  match cs with
  | ':' :: d :: n :: ':' :: rest =>
    if d.toLower = 'd' ∧ n.toLower = 'n' then (true, ':' :: rest) else (false, cs)
  | _ => (false, cs)

/-- A rule after a colon, if there is one. -/
def readRule (cs : List Char) : Option (List Char) × List Char :=
  match cs with
  | ':' :: rest =>
    match readSome isRuleChar rest with
    | some (rule, rest) => (some rule, rest)
    | none => (none, cs)
  | _ => (none, cs)

/-- An attribute, if there is one. -/
def readAttribute (cs : List Char) : Option (List Char) × List Char :=
  match readSome isAttributeChar cs with
  | some (a, rest) => (some a, rest)
  | none => (none, cs)

/-- An extensible assertion. -/
def readExtensible? (cs : List Char) : Option (Filter × List Char) :=
  let (a, cs) := readAttribute cs
  let (inName, cs) := readNameMark cs
  let (rule, cs) := readRule cs
  match cs with
  | ':' :: '=' :: cs =>
    if a.isNone && rule.isNone then none
    else do
      let v ← readValue? (cs.takeWhile isValueChar)
      let f := extensible (a.map (.ofName ∘ String.ofList)) (rule.map String.ofList) v inName none
      return (f, cs.dropWhile isValueChar)
  | _ => none

/-! ## Trees -/

mutual

/-- A filter in parentheses; `n` bounds its depth. -/
def readFilter : (n : Nat) → List Char → Option (Filter × List Char)
  | 0, _ => none
  | n + 1, cs =>
    match skipGap cs with
    | '(' :: cs =>
      match readBody n (skipGap cs) with
      | some (f, cs) =>
        match skipGap cs with
        | ')' :: cs => some (f, cs)
        | _ => none
      | none => none
    | _ => none

/-- What stands between the parentheses. -/
def readBody : (n : Nat) → List Char → Option (Filter × List Char)
  | 0, _ => none
  | n + 1, cs =>
    match cs with
    | '&' :: cs =>
      match readMany n cs with
      | ([], _) => none
      | (fs, cs) => some (and fs none, cs)
    | '|' :: cs =>
      match readMany n cs with
      | ([], _) => none
      | (fs, cs) => some (or fs none, cs)
    | '!' :: cs =>
      match readFilter n cs with
      | some (f, cs) => some (not f none, cs)
      | none => none
    | cs => readExtensible? cs <|> readItem? cs

/-- As many filters as follow one another; `n` bounds their number and depth. -/
def readMany : (n : Nat) → List Char → List Filter × List Char
  | 0, cs => ([], cs)
  | n + 1, cs =>
    match readFilter n cs with
    | some (f, cs) =>
      let (fs, cs) := readMany n cs
      (f :: fs, cs)
    | none => ([], cs)

end

/-- The text as one filter in parentheses. -/
def wrap : List Char → List Char
  | '(' :: cs => '(' :: cs
  | cs => '(' :: cs ++ [')']

/-- Reads a filter. -/
def parse (s : String) : Except Error Filter :=
  match Text.trimChars s.toList with
  | [] => .error .emptyFilter
  | c :: cs =>
    let source := wrap (c :: cs)
    match readFilter (source.length + 1) source with
    | none => .error (.invalidFilter s)
    | some (f, rest) =>
      match skipGap rest with
      | [] => .ok f
      | rest => .error (.trailingFilterInput (String.ofList rest) s)

end Directory.Filter
