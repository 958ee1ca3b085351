import Directory.Error
import Directory.Json.Reader

/-!
# Decoding documents

A decoder takes a value from a document that may nest at most so many levels further.

* `Decoder`: the type, with decoders for words, numbers, texts, lists and optional values.
* `Record`: the fields of an object; a field that is asked for may occur once, others do not count.
* `Decoder.variant`: an alternative, written as its name or as an object of its name and content.
* `Decoder.run`: decodes a whole text.
-/

namespace Directory.Json

/-- A way to take a value from a document that nests at most so many levels. -/
abbrev Decoder (α : Type) := Nat → Json → Option α

/-- The fields of an object, and the levels left inside it. -/
structure Record where
  levels : Nat
  fields : List (String × Json)

namespace Decoder

variable {α : Type}

def bool : Decoder Bool
  | _, .bool b => some b
  | _, _ => none

def string : Decoder String
  | _, .string s => some s
  | _, _ => none

/-- An integer from `low` to `high`. -/
def integer (low high : Int) : Decoder Int
  | _, .integer n => if low ≤ n ∧ n ≤ high then some n else none
  | _, _ => none

/-- A number of 64 bits without a sign. -/
def natural : Decoder Nat := fun d j => Int.toNat <$> integer 0 0xffffffffffffffff d j

def list (item : Decoder α) : Decoder (List α)
  | d + 1, .array xs => xs.mapM (item d)
  | _, _ => none

/-- A value or null. -/
def optional (item : Decoder α) : Decoder (Option α)
  | _, .null => some none
  | d, j => some <$> item d j

def record : Decoder Record
  | d + 1, .object fields => some ⟨d, fields⟩
  | _, _ => none

/-- The name of an alternative and its content, if it has one. -/
def variant : Decoder (String × Option (Nat × Json))
  | _, .string s => some (s, none)
  | d + 1, .object [(name, content)] => some (name, some (d, content))
  | _, _ => none

/-- An alternative without content. -/
def word (names : List (String × α)) : Decoder α := fun d j => do
  match ← variant d j with
  | (name, none) | (name, some (_, .null)) => names.lookup name
  | _ => none

/-- The number of levels a document may nest. -/
def maxLevels : Nat := 127

/-- Decodes a whole text. -/
def run (item : Decoder α) (s : String) : Except Error α :=
  match parse? s >>= item maxLevels with
  | some a => .ok a
  | none => .error .malformedDocument

end Decoder

namespace Record

variable {α : Type}

/-- The field of a name, if the object has it; none altogether if it occurs twice. -/
def find? (r : Record) (name : String) : Option (Option Json) :=
  match r.fields.filter (·.1 == name) with
  | [] => some none
  | [(_, j)] => some (some j)
  | _ => none

/-- A field that has to be there. -/
def get (r : Record) (name : String) (item : Decoder α) : Option α := do
  (← r.find? name).bind (item r.levels)

/-- A field that stands for `default` where it is missing. -/
def getD (r : Record) (name : String) (item : Decoder α) (default : α) : Option α := do
  match ← r.find? name with
  | some j => item r.levels j
  | none => return default

/-- A field that may be missing or null. -/
def get? (r : Record) (name : String) (item : Decoder α) : Option (Option α) :=
  r.getD name (.optional item) none

end Record

end Directory.Json
