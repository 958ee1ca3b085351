import Directory.Error

/-!
# Reading names

* `Rdn.parse`: a type, an equals sign and a value, neither of them blank. A backslash in the value
  stands for the character after it; the type is taken as written.
* `Dn.parse`: relative names with commas between them; a comma after a backslash is part of a value.
  A blank text is the root.
-/

namespace Directory

namespace Rdn

/-- A value without its backslashes. -/
def unescapeChars : List Char → List Char
  | [] => []
  | '\\' :: c :: cs => c :: unescapeChars cs
  | c :: cs => if c = '\\' then [] else c :: unescapeChars cs

/-- Reads a relative name. -/
def parseChars (cs : List Char) : Except Error Rdn :=
  match cs.dropWhile (· != '=') with
  | [] => .error (.rdnWithoutEquals (String.ofList cs))
  | _ :: value =>
    let type := cs.takeWhile (· != '=')
    if (Text.trimChars type).isEmpty || (Text.trimChars value).isEmpty then
      .error (.rdnWithEmptyPart (String.ofList cs))
    else
      .ok (ofPair (String.ofList type) (String.ofList (unescapeChars value)))

/-- Reads a relative name. -/
def parse (s : String) : Except Error Rdn := parseChars s.toList

end Rdn

namespace Dn

/-- Reads relative names from `cs`, where `part` holds what was read of the first, last character
first, and `whole` is the text for a complaint about it. -/
def readRdns (whole : String) (part : List Char) : List Char → Except Error (List Rdn)
  | [] => do
    let r ← Rdn.parseChars part.reverse
    return [r]
  | '\\' :: c :: cs => readRdns whole (c :: '\\' :: part) cs
  | c :: cs =>
    if c = '\\' then .error (.danglingEscape whole)
    else if c = ',' then do
      let r ← Rdn.parseChars part.reverse
      let rs ← readRdns whole [] cs
      return r :: rs
    else readRdns whole (c :: part) cs

/-- Reads a name. -/
def parse (s : String) : Except Error Dn :=
  match Text.trimChars s.toList with
  | [] => .ok root
  | cs => Dn.mk <$> readRdns (String.ofList cs) [] cs

end Dn

end Directory
