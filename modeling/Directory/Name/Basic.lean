import Directory.Ident

/-!
# Names

An entry is named by a path of relative names, its own first and the root of the tree last.

* `Rdn`: a relative name, one `type=value` pair; `Dn`: a path of them, the empty one for the root.
* `display`: the written form, in which a comma, a backslash, an equals sign and a plus sign of the
  value carry a backslash.
* `normalized`: the written form of the folded, lower-case value; names are the same if these agree.
* `Dn.isBelow`, `Dn.isBelowOrSelf`: the order of the tree; `Dn.rebase?`: a name moved elsewhere.
-/

namespace Directory

/-- A relative name. -/
structure Rdn where
  type : AttributeId
  value : String
deriving DecidableEq, Inhabited

namespace Rdn

/-- The relative name of a written type and a value; blanks around either do not count. -/
def ofPair (type value : String) : Rdn := ⟨.ofName type, Text.trim value⟩

/-- The characters that need a backslash in a written value. -/
def isSpecial (c : Char) : Bool := c == ',' || c == '\\' || c == '=' || c == '+'

/-- A value with a backslash before each special character. -/
def escapeChars (cs : List Char) : List Char :=
  cs.flatMap fun c => if isSpecial c then ['\\', c] else [c]

/-- The written form of a type and the characters of a value. -/
def write (type : AttributeId) (value : List Char) : String :=
  type.name ++ "=" ++ String.ofList (escapeChars value)

/-- The written form. -/
def display (r : Rdn) : String := write r.type r.value.toList

/-- The written form with folded blanks and in lower case. -/
def normalized (r : Rdn) : String :=
  write r.type (Text.lowerChars (Text.foldChars r.value.toList))

instance : ToString Rdn := ⟨display⟩

end Rdn

/-- A name: the relative names from the entry up to the root. -/
structure Dn where
  rdns : List Rdn
deriving DecidableEq, Inhabited

namespace Dn

/-- The name of the root of the tree. -/
def root : Dn := ⟨[]⟩

/-- The number of relative names. -/
def length (d : Dn) : Nat := d.rdns.length

def isRoot (d : Dn) : Bool := d.rdns.isEmpty

/-- The relative name of the entry itself. -/
def rdn? (d : Dn) : Option Rdn := d.rdns.head?

/-- The name one level up; the root has none. -/
def parent? (d : Dn) : Option Dn := d.rdns.tail?.map Dn.mk

/-- The name one level down. -/
def child (d : Dn) (r : Rdn) : Dn := ⟨r :: d.rdns⟩

/-- The written form. -/
def display (d : Dn) : String := ",".intercalate (d.rdns.map Rdn.display)

instance : ToString Dn := ⟨display⟩

/-- The normalized relative names. -/
def key (d : Dn) : List String := d.rdns.map Rdn.normalized

/-- The written form of the normalized name. -/
def normalized (d : Dn) : String := ",".intercalate d.key

/-- The name is that of `ancestor` or lies below it. -/
def isBelowOrSelf (d ancestor : Dn) : Bool := ancestor.key.isSuffixOf d.key

/-- The name lies below that of `ancestor`. -/
def isBelow (d ancestor : Dn) : Bool :=
  decide (ancestor.length < d.length) && d.isBelowOrSelf ancestor

/-- The name with its end `oldBase` replaced by `newBase`; none if it does not end so. -/
def rebase? (d oldBase newBase : Dn) : Option Dn :=
  if d.isBelowOrSelf oldBase then
    some ⟨d.rdns.take (d.length - oldBase.length) ++ newBase.rdns⟩
  else none

end Dn

end Directory
