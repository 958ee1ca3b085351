import Directory.Entry
import Directory.Filter.Limits
import Directory.Json.Decoder

/-!
# Records as documents

The JSON form of values, names, entries, modifications, filters and limits: a record is an object
of its fields, an alternative is its name or an object of its name and its content. Attributes and
values are taken as they are written.

* `X.toJson` writes an `X`, and `X.decoder` reads one.
-/

namespace Directory

open Json (Decoder)

/-- A number as a document. -/
def Json.ofNat (n : Nat) : Json := .integer n

/-- A value or null. -/
def Json.ofOption {α : Type} (toJson : α → Json) : Option α → Json
  | some a => toJson a
  | none => .null

/-- An array of records. -/
def Json.ofList {α : Type} (toJson : α → Json) (xs : List α) : Json := .array (xs.map toJson)

/-! ## Identifiers and values -/

def EntryId.toJson (id : EntryId) : Json := .ofNat id.toNat

def EntryId.decoder : Decoder EntryId := fun d j => UInt64.ofNat <$> Decoder.natural d j

def AttributeId.toJson (a : AttributeId) : Json := .string a.name

def AttributeId.decoder : Decoder AttributeId := fun d j => AttributeId.mk <$> Decoder.string d j

def Value.toJson : Value → Json
  | integer n => .object [("Integer", .integer n.toInt)]
  | text s => .object [("Text", .string s)]
  | binary bytes => .object [("Binary", .ofList (fun b => .ofNat b.toNat) bytes)]

def Value.decoder : Decoder Value := fun d j => do
  match ← Decoder.variant d j with
  | ("Integer", some (d, j)) => do
    let n ← Decoder.integer Int64.minValue.toInt Int64.maxValue.toInt d j
    return integer (Int64.ofInt n)
  | ("Text", some (d, j)) => text <$> Decoder.string d j
  | ("Binary", some (d, j)) => do
    let bytes ← Decoder.list (Decoder.integer 0 255) d j
    return binary (bytes.map fun b => UInt8.ofNat b.toNat)
  | _ => none

/-! ## Names and entries -/

def Rdn.toJson (r : Rdn) : Json :=
  .object [("attribute", r.type.toJson), ("value", .string r.value)]

def Rdn.decoder : Decoder Rdn := fun d j => do
  let r ← Decoder.record d j
  let type ← r.get "attribute" AttributeId.decoder
  let value ← r.get "value" Decoder.string
  return ⟨type, value⟩

def Dn.toJson (d : Dn) : Json := .object [("rdns", .ofList Rdn.toJson d.rdns)]

def Dn.decoder : Decoder Dn := fun d j => do
  let r ← Decoder.record d j
  Dn.mk <$> r.get "rdns" (.list Rdn.decoder)

def Entry.toJson (e : Entry) : Json :=
  .object [("id", EntryId.toJson e.id), ("dn", e.name.toJson),
    ("parent", .ofOption EntryId.toJson e.parent),
    ("attributes", .object (e.attributes.toList.map fun p => (p.1.name, .ofList Value.toJson p.2)))]

/-- The attributes of an entry: an object of lists, of which the last of one name holds. -/
def Entry.attributesDecoder : Decoder (SortedMap AttributeId (List Value)) := fun d j => do
  let r ← Decoder.record d j
  let bindings ← r.fields.mapM fun f => do
    let values ← Decoder.list Value.decoder r.levels f.2
    return (AttributeId.mk f.1, values)
  return .ofList bindings

def Entry.decoder : Decoder Entry := fun d j => do
  let r ← Decoder.record d j
  let id ← r.get "id" EntryId.decoder
  let name ← r.get "dn" Dn.decoder
  let parent ← r.get? "parent" EntryId.decoder
  let attributes ← r.get "attributes" Entry.attributesDecoder
  return ⟨id, name, parent, attributes⟩

def ModificationKind.toJson : ModificationKind → Json
  | add => .string "Add"
  | remove => .string "Remove"
  | replace => .string "Replace"

def ModificationKind.decoder : Decoder ModificationKind :=
  .word [("Add", add), ("Remove", remove), ("Replace", replace)]

def Modification.toJson (m : Modification) : Json :=
  .object [("op", m.kind.toJson), ("attribute", m.attr.toJson),
    ("values", .ofList Value.toJson m.values)]

def Modification.decoder : Decoder Modification := fun d j => do
  let r ← Decoder.record d j
  let kind ← r.get "op" ModificationKind.decoder
  let attr ← r.get "attribute" AttributeId.decoder
  let values ← r.get "values" (.list Value.decoder)
  return ⟨kind, attr, values⟩

/-! ## Filters -/

def SearchScope.toJson : SearchScope → Json
  | base => .string "Base"
  | oneLevel => .string "OneLevel"
  | subtree => .string "Subtree"

def SearchScope.decoder : Decoder SearchScope :=
  .word [("Base", base), ("OneLevel", oneLevel), ("Subtree", subtree)]

def AliasMode.toJson : AliasMode → Json
  | never => .string "Never"
  | inSearching => .string "InSearching"
  | findingBase => .string "FindingBase"
  | always => .string "Always"

def AliasMode.decoder : Decoder AliasMode :=
  .word [("Never", never), ("InSearching", inSearching), ("FindingBase", findingBase),
    ("Always", always)]

/-- The name of a comparison as an alternative of filters. -/
def Comparison.tag : Comparison → String
  | equality => "Equality"
  | atLeast => "GreaterEq"
  | atMost => "LessEq"
  | approximate => "Approximate"

/-- The comparison of such a name. -/
def Comparison.ofTag? : String → Option Comparison
  | "Equality" => some equality
  | "GreaterEq" => some atLeast
  | "LessEq" => some atMost
  | "Approximate" => some approximate
  | _ => none

namespace Filter

/-- An alternative of filters: its name, its fields and the estimate. -/
def tagged (name : String) (fields : List (String × Json)) (estimate : Option Nat) : Json :=
  .object [(name, .object (fields ++ [("count", .ofOption .ofNat estimate)]))]

mutual

def toJson : Filter → Json
  | scope b s m n =>
    tagged "Scope" [("base", EntryId.toJson b), ("scope", s.toJson), ("deref", m.toJson)] n
  | presence a n => tagged "Presence" [("attribute", a.toJson)] n
  | comparison op a v n => tagged op.tag [("attribute", a.toJson), ("value", v.toJson)] n
  | substring a p n =>
    tagged "Substring" [("attribute", a.toJson), ("initial", .ofOption .string p.initial),
      ("any", .ofList .string p.inner), ("terminal", .ofOption .string p.final)] n
  | extensible a r v d n =>
    tagged "Extensible" [("attribute", .ofOption AttributeId.toJson a),
      ("rule", .ofOption .string r), ("value", v.toJson), ("dn_attributes", .bool d)] n
  | and fs n => tagged "And" [("children", .array (toJsonAll fs))] n
  | or fs n => tagged "Or" [("children", .array (toJsonAll fs))] n
  | not f n => tagged "Not" [("child", f.toJson)] n

def toJsonAll : List Filter → List Json
  | [] => []
  | f :: fs => f.toJson :: toJsonAll fs

end

/-- A filter of the given alternative; `child` reads the filters inside it. -/
def decodeFields (child : Decoder Filter) (tag : String) (r : Json.Record) : Option Filter := do
  let n ← r.get? "count" .natural
  match tag with
  | "Scope" =>
    let b ← r.get "base" EntryId.decoder
    let s ← r.get "scope" SearchScope.decoder
    let m ← r.get "deref" AliasMode.decoder
    return scope b s m n
  | "Presence" => return presence (← r.get "attribute" AttributeId.decoder) n
  | "Substring" =>
    let a ← r.get "attribute" AttributeId.decoder
    let initial ← r.get? "initial" .string
    let inner ← r.get "any" (.list .string)
    let final ← r.get? "terminal" .string
    return substring a ⟨initial, inner, final⟩ n
  | "Extensible" =>
    let a ← r.get? "attribute" AttributeId.decoder
    let rule ← r.get? "rule" .string
    let v ← r.get "value" Value.decoder
    let d ← r.get "dn_attributes" .bool
    return extensible a rule v d n
  | "And" => return and (← r.get "children" (.list child)) n
  | "Or" => return or (← r.get "children" (.list child)) n
  | "Not" => return not (← r.get "child" child) n
  | tag =>
    let op ← Comparison.ofTag? tag
    let a ← r.get "attribute" AttributeId.decoder
    let v ← r.get "value" Value.decoder
    return comparison op a v n

/-- Reads a filter of at most `n` nodes down. -/
def decodeAt : (n : Nat) → Decoder Filter
  | 0, _, _ => none
  | n + 1, d, j => do
    match ← Decoder.variant d j with
    | (tag, some (d, content)) => do
      decodeFields (decodeAt n) tag (← Decoder.record d content)
    | (_, none) => none

def decoder : Decoder Filter := decodeAt Decoder.maxLevels

end Filter

/-! ## Limits -/

def FilterLimits.toJson (l : FilterLimits) : Json :=
  .object [("max_filter_depth", .ofNat l.depth), ("max_children", .ofNat l.children),
    ("max_substring_parts", .ofNat l.pieces)]

/-- Reads limits; those that are missing are the standard ones. -/
def FilterLimits.decoder : Decoder FilterLimits := fun d j => do
  let r ← Decoder.record d j
  let depth ← r.getD "max_filter_depth" .natural standard.depth
  let children ← r.getD "max_children" .natural standard.children
  let pieces ← r.getD "max_substring_parts" .natural standard.pieces
  return ⟨depth, children, pieces⟩

end Directory
