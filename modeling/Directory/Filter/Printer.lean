import Directory.Filter.Basic

/-!
# Writing filters

* `Filter.display`: the written form, in parentheses and with the operator before its operands.
* `escapeChars`: in written values an asterisk, a parenthesis, a backslash and the null character
  become a backslash and two hexadecimal digits, as do all bytes of a binary value.
-/

namespace Directory

/-- The word for a scope. -/
def SearchScope.display : SearchScope → String
  | base => "base"
  | oneLevel => "one"
  | subtree => "sub"

/-- The word for a mode. -/
def AliasMode.display : AliasMode → String
  | never => "Never"
  | inSearching => "InSearching"
  | findingBase => "FindingBase"
  | always => "Always"

/-- The sign between an attribute and a value. -/
def Comparison.sign : Comparison → List Char
  | equality => ['=']
  | atLeast => ['>', '=']
  | atMost => ['<', '=']
  | approximate => ['~', '=']

namespace Filter

/-- One character of a written value. -/
def escapeChar (c : Char) : List Char :=
  match c with
  | '*' => ['\\', '2', 'a']
  | '(' => ['\\', '2', '8']
  | ')' => ['\\', '2', '9']
  | '\\' => ['\\', '5', 'c']
  | '\x00' => ['\\', '0', '0']
  | c => [c]

/-- A text as a written value. -/
def escapeChars (cs : List Char) : List Char := cs.flatMap escapeChar

/-- A text as a written value. -/
def escape (s : String) : String := String.ofList (escapeChars s.toList)

/-- A written value. -/
def writeValue : Value → List Char
  | .integer n => (toString n).toList
  | .text s => escapeChars s.toList
  | .binary bytes => bytes.flatMap fun b => '\\' :: Text.hexByte b

/-- An optional piece. -/
def writePiece : Option String → List Char
  | none => []
  | some s => escapeChars s.toList

/-- Pieces with asterisks between them. -/
def writePieces (p : Pieces) : List Char :=
  writePiece p.initial ++ '*' :: p.inner.flatMap (fun s => escapeChars s.toList ++ ['*']) ++
    writePiece p.final

mutual

/-- The characters of the written form. -/
def write : Filter → List Char
  | scope b s m _ => s!"(#scope={s.display},{b},{m.display})".toList
  | presence a _ => '(' :: a.name.toList ++ ['=', '*', ')']
  | comparison op a v _ => '(' :: a.name.toList ++ op.sign ++ writeValue v ++ [')']
  | substring a p _ => '(' :: a.name.toList ++ '=' :: writePieces p ++ [')']
  | extensible a r v d _ =>
    '(' :: (match a with | some a => a.name.toList | none => []) ++
      (if d then [':', 'd', 'n'] else []) ++
      (match r with | some r => ':' :: r.toList | none => []) ++
      ':' :: '=' :: writeValue v ++ [')']
  | and fs _ => '(' :: '&' :: writeAll fs ++ [')']
  | or fs _ => '(' :: '|' :: writeAll fs ++ [')']
  | not f _ => '(' :: '!' :: f.write ++ [')']

/-- The written forms, one after another. -/
def writeAll : List Filter → List Char
  | [] => []
  | f :: fs => f.write ++ writeAll fs

end

/-- The written form. -/
def display (f : Filter) : String := String.ofList f.write

instance : ToString Filter := ⟨display⟩

end Filter

end Directory
