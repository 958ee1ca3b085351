import Directory.Json.Record
import Directory.Schema

/-!
# Configuration of a partition

* `Config`: the name of the root entry, the attributes to index, the declared attributes and the
  limits on filters.
* `Config.ofJson`: reads a configuration; what is missing has its standard value.
-/

namespace Directory

open Json (Decoder)

/-- How a partition is set up. -/
structure Config where
  suffix : String
  indexed : List String
  declarations : List AttributeDeclaration
  limits : FilterLimits
deriving DecidableEq, Inhabited

def ValueSyntax.toJson : ValueSyntax → Json
  | caseIgnore => .string "CaseIgnoreString"
  | caseExact => .string "CaseExactString"
  | integer => .string "Integer"
  | binary => .string "Binary"
  | name => .string "DistinguishedName"

def ValueSyntax.decoder : Decoder ValueSyntax :=
  .word [("CaseIgnoreString", caseIgnore), ("CaseExactString", caseExact), ("Integer", integer),
    ("Binary", binary), ("DistinguishedName", name)]

def AttributeDeclaration.toJson (a : AttributeDeclaration) : Json :=
  .object [("name", .string a.name), ("syntax", a.valueSyntax.toJson), ("ordered", .bool a.ordered)]

/-- Reads a declaration; attributes are ordered unless it says otherwise. -/
def AttributeDeclaration.decoder : Decoder AttributeDeclaration := fun d j => do
  let r ← Decoder.record d j
  let name ← r.get "name" .string
  let valueSyntax ← r.get "syntax" ValueSyntax.decoder
  let ordered ← r.getD "ordered" .bool true
  return ⟨name, valueSyntax, ordered⟩

namespace Config

/-- The configuration where nothing is said. -/
def standard : Config := ⟨"dc=example,dc=com", ["objectClass"], [], .standard⟩

def toJson (c : Config) : Json :=
  .object [("suffix", .string c.suffix), ("indexed_attributes", .ofList .string c.indexed),
    ("attribute_types", .ofList AttributeDeclaration.toJson c.declarations),
    ("validation", c.limits.toJson)]

def decoder : Decoder Config := fun d j => do
  let r ← Decoder.record d j
  let suffix ← r.getD "suffix" .string standard.suffix
  let indexed ← r.getD "indexed_attributes" (.list .string) standard.indexed
  let declarations ← r.getD "attribute_types" (.list AttributeDeclaration.decoder)
    standard.declarations
  let limits ← r.getD "validation" FilterLimits.decoder standard.limits
  return ⟨suffix, indexed, declarations, limits⟩

/-- Reads a configuration. -/
def ofJson (text : String) : Except Error Config := decoder.run text

end Config

end Directory
