import Directory.Json.Basic
import Directory.Text.Hex

/-!
# Writing JSON documents

* `Json.pretty`: a document over several lines, each level two blanks further in.
* `quote`: a string with the escapes that the format demands.
-/

namespace Directory.Json

/-- One character of a written string. -/
def quoteChar (c : Char) : List Char :=
  match c with
  | '"' => ['\\', '"']
  | '\\' => ['\\', '\\']
  | '\x08' => ['\\', 'b']
  | '\x0c' => ['\\', 'f']
  | '\n' => ['\\', 'n']
  | '\r' => ['\\', 'r']
  | '\t' => ['\\', 't']
  | c => if c.toNat < 0x20 then ['\\', 'u', '0', '0'] ++ Text.hexByte (UInt8.ofNat c.toNat) else [c]

/-- A written string. -/
def quote (s : String) : String := String.ofList ('"' :: s.toList.flatMap quoteChar ++ ['"'])

/-- A line break and the blanks before a line at a level. -/
def newLine (level : Nat) : String := "\n" ++ String.ofList (List.replicate (2 * level) ' ')

mutual

/-- A document whose first line stands at a level. -/
def prettyAt (level : Nat) : Json → String
  | null => "null"
  | bool true => "true"
  | bool false => "false"
  | integer n => toString n
  | string s => quote s
  | array [] => "[]"
  | array (x :: xs) => "[" ++ itemsAt (level + 1) (x :: xs) ++ newLine level ++ "]"
  | object [] => "\x7b\x7d"
  | object (f :: fs) => "\x7b" ++ fieldsAt (level + 1) (f :: fs) ++ newLine level ++ "\x7d"
  | unreadable => "null"

/-- The items of an array, one on a line. -/
def itemsAt (level : Nat) : List Json → String
  | [] => ""
  | x :: xs =>
    newLine level ++ x.prettyAt level ++ (if xs.isEmpty then "" else ",") ++ itemsAt level xs

/-- The fields of an object, one on a line. -/
def fieldsAt (level : Nat) : List (String × Json) → String
  | [] => ""
  | (k, x) :: fs =>
    newLine level ++ quote k ++ ": " ++ x.prettyAt level ++ (if fs.isEmpty then "" else ",") ++
      fieldsAt level fs

end

/-- A document over several lines. -/
def pretty (j : Json) : String := j.prettyAt 0

end Directory.Json
