/-!
# JSON documents

* `Json`: a document. Some well-formed documents hold what no record has a place for: numbers that
  are not written as integers, strings and keys with an unpaired surrogate. They can be skipped but
  not read, and are all kept as `unreadable`.
-/

namespace Directory

/-- A JSON document. -/
inductive Json where
  | null
  | bool (b : Bool)
  | integer (n : Int)
  | string (s : String)
  | array (items : List Json)
  | object (fields : List (String × Json))
  | unreadable
deriving Inhabited

end Directory
