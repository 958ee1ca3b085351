import Directory.Json.Record

/-!
# Search requests

* `SearchRequest`: where to search, how far, for what, and how many entries at most.
-/

namespace Directory

open Json (Decoder)

/-- What to search for. -/
structure SearchRequest where
  base : Dn
  scope : SearchScope
  mode : AliasMode
  filter : Filter
  sizeLimit : Option Nat
deriving DecidableEq, Inhabited

namespace SearchRequest

def toJson (q : SearchRequest) : Json :=
  .object [("base", q.base.toJson), ("scope", q.scope.toJson), ("deref", q.mode.toJson),
    ("filter", q.filter.toJson), ("size_limit", .ofOption .ofNat q.sizeLimit)]

def decoder : Decoder SearchRequest := fun d j => do
  let r ← Decoder.record d j
  let base ← r.get "base" Dn.decoder
  let scope ← r.get "scope" SearchScope.decoder
  let mode ← r.get "deref" AliasMode.decoder
  let filter ← r.get "filter" Filter.decoder
  let sizeLimit ← r.get? "size_limit" .natural
  return ⟨base, scope, mode, filter, sizeLimit⟩

end SearchRequest

end Directory
