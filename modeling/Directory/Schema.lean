import Directory.Name.Reader
import Directory.Sorted.Map
import Directory.Text.Decimal
import Directory.Value

/-!
# Schema

The schema says of each attribute how its values compare.

* `ValueSyntax`, `AttributeType`: the kind of values of an attribute, and whether they are ordered.
* `ValueSyntax.normalize`: the normal form of a value; two values are equal if their forms are, and
  the order of the forms is the order of the values.
* `Schema.normalize`, `Schema.compare`: the same for an attribute of a schema; attributes that are
  not declared hold texts whose case does not count.
* `MatchingRule`: the rules that an extensible assertion can name; `Schema.extensibleMatch` applies
  one.
-/

namespace Directory

/-- The kinds of values. -/
inductive ValueSyntax where
  /-- A text whose case and extra blanks do not count. -/
  | caseIgnore
  /-- A text whose extra blanks do not count. -/
  | caseExact
  | integer
  | binary
  /-- The written form of a name. -/
  | name
deriving DecidableEq, Inhabited

/-- What the schema knows about an attribute. -/
structure AttributeType where
  valueSyntax : ValueSyntax
  ordered : Bool
deriving DecidableEq, Inhabited

/-- A declaration of an attribute. -/
structure AttributeDeclaration where
  name : String
  valueSyntax : ValueSyntax
  ordered : Bool
deriving DecidableEq, Inhabited

namespace ValueSyntax

/-- A value of attribute `a` as a text. -/
def textOf (a : AttributeId) : Value → Except Error String
  | .text s => .ok s
  | .integer n => .ok (toString n)
  | .binary bytes =>
    match Text.ofUtf8? bytes with
    | some s => .ok s
    | none => .error (.notUtf8 a)

/-- A value of attribute `a` as an integer. -/
def integerOf (a : AttributeId) : Value → Except Error Int64
  | .integer n => .ok n
  | .text s =>
    match Text.readInt64? (Text.trimChars s.toList) with
    | some n => .ok n
    | none => .error (.notAnInteger s a)
  | .binary _ => .error (.binaryForInteger a)

/-- A value as bytes. -/
def bytesOf : Value → List UInt8
  | .binary bytes => bytes
  | .text s => Text.utf8 s
  | .integer n => Text.utf8 (toString n)

/-- The normal form of a value of attribute `a`. -/
def normalize (x : ValueSyntax) (a : AttributeId) (v : Value) : Except Error Value :=
  match x with
  | caseIgnore => do return .text (Text.lower (Text.fold (← textOf a v)))
  | caseExact => do return .text (Text.fold (← textOf a v))
  | integer => do return .integer (← integerOf a v)
  | binary => return .binary (bytesOf v)
  | name => do return .text (← Dn.parse (← textOf a v)).normalized

end ValueSyntax

/-- The rules of extensible matching. -/
inductive MatchingRule where
  | caseIgnore
  | caseExact
  | integer
  | caseIgnoreOrdering
  | integerOrdering
deriving DecidableEq, Inhabited

namespace MatchingRule

/-- The rule of a name, in any case of letters, or of an object identifier. -/
def ofName? (rule : String) : Option MatchingRule :=
  match Text.lowerAscii rule with
  | "caseignorematch" | "2.5.13.2" => some caseIgnore
  | "caseexactmatch" | "2.5.13.5" => some caseExact
  | "integermatch" | "2.5.13.14" => some integer
  | "caseignoreorderingmatch" | "2.5.13.3" => some caseIgnoreOrdering
  | "integerorderingmatch" | "2.5.13.15" => some integerOrdering
  | _ => none

/-- The syntax in which a rule reads both its values. -/
def valueSyntax : MatchingRule → ValueSyntax
  | caseIgnore | caseIgnoreOrdering => .caseIgnore
  | caseExact => .caseExact
  | integer | integerOrdering => .integer

/-- The rule on normal forms: equality, or that the value comes before the assertion. -/
def holds (r : MatchingRule) (assertion value : Value) : Bool :=
  match r with
  | caseIgnore | caseExact | integer => assertion == value
  | caseIgnoreOrdering | integerOrdering => compare value assertion == .lt

/-- The rule on written values; values that the rule cannot read do not match. -/
def applies (r : MatchingRule) (a : AttributeId) (assertion value : Value) : Bool :=
  match r.valueSyntax.normalize a assertion, r.valueSyntax.normalize a value with
  | .ok x, .ok y => r.holds x y
  | _, _ => false

end MatchingRule

/-- The declared attributes. -/
structure Schema where
  types : SortedMap AttributeId AttributeType
deriving DecidableEq, Inhabited

namespace Schema

/-- Declares an attribute, in place of an earlier declaration. -/
def define (s : Schema) (d : AttributeDeclaration) : Schema :=
  ⟨s.types.insert (.ofName d.name) ⟨d.valueSyntax, d.ordered⟩⟩

/-- The attributes that every directory has: neither classes nor alias targets are ordered. -/
def builtin : Schema :=
  ⟨.ofList [(.objectClass, ⟨.caseIgnore, false⟩), (.aliasedObjectName, ⟨.name, false⟩)]⟩

/-- The built-in schema with further declarations. -/
def ofDeclarations (ds : List AttributeDeclaration) : Schema := ds.foldl define builtin

/-- The type of an attribute. -/
def typeOf (s : Schema) (a : AttributeId) : AttributeType := s.types.getD a ⟨.caseIgnore, true⟩

/-- The normal form of a value. -/
def normalize (s : Schema) (a : AttributeId) (v : Value) : Except Error Value :=
  (s.typeOf a).valueSyntax.normalize a v

/-- The values of the attribute have an order. -/
def isOrdered (s : Schema) (a : AttributeId) : Bool := (s.typeOf a).ordered

/-- The order of two values of an attribute. -/
def compare (s : Schema) (a : AttributeId) (v w : Value) : Except Error Ordering := do
  if !s.isOrdered a then throw (.noOrdering a)
  let v ← s.normalize a v
  let w ← s.normalize a w
  return Ord.compare v w

/-- The schema knows a rule of this name. -/
def supportsRule (_ : Schema) (rule : String) : Bool := (MatchingRule.ofName? rule).isSome

/-- A value matches an assertion under the named rule, or under equality where none is named. -/
def extensibleMatch (s : Schema) (a : AttributeId) (rule : Option String)
    (assertion value : Value) : Except Error Bool :=
  match rule with
  | none => do
    let x ← s.normalize a assertion
    let y ← s.normalize a value
    return x == y
  | some name =>
    match MatchingRule.ofName? name with
    | some r => .ok (r.applies a assertion value)
    | none => .error (.unknownRule name)

end Schema

end Directory
