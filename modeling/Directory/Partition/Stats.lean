import Directory.Json.Printer
import Directory.Json.Record

/-!
# Statistics

* `IndexStats`: the size of one index; `PartitionStats`: the sizes of everything in a partition.
* `PartitionStats.totalTuples`: the number of tuples in all indices.
* `PartitionStats.report`: the statistics as a JSON text.
-/

namespace Directory

open Json (Decoder)

/-- The size of an index. -/
structure IndexStats where
  name : String
  tuples : Nat
  keys : Nat
deriving DecidableEq, Inhabited

namespace IndexStats

def toJson (s : IndexStats) : Json :=
  .object [("name", .string s.name), ("tuples", .ofNat s.tuples), ("distinct_keys", .ofNat s.keys)]

def decoder : Decoder IndexStats := fun d j => do
  let r ← Decoder.record d j
  let name ← r.get "name" .string
  let tuples ← r.get "tuples" .natural
  let keys ← r.get "distinct_keys" .natural
  return ⟨name, tuples, keys⟩

end IndexStats

/-- The sizes of everything in a partition. -/
structure PartitionStats where
  suffix : String
  entries : Nat
  nextId : Nat
  system : List IndexStats
  presence : IndexStats
  user : List IndexStats
deriving DecidableEq, Inhabited

namespace PartitionStats

/-- The number of tuples in all indices, as a word of 64 bits. -/
def totalTuples (s : PartitionStats) : Nat :=
  (s.system ++ s.user ++ [s.presence]).foldr (fun i n => i.tuples + n) 0 % UInt64.size

def toJson (s : PartitionStats) : Json :=
  .object [("suffix", .string s.suffix), ("entry_count", .ofNat s.entries),
    ("next_id", .ofNat s.nextId), ("system_indices", .ofList IndexStats.toJson s.system),
    ("presence", s.presence.toJson), ("user_indices", .ofList IndexStats.toJson s.user)]

def decoder : Decoder PartitionStats := fun d j => do
  let r ← Decoder.record d j
  let suffix ← r.get "suffix" .string
  let entries ← r.get "entry_count" .natural
  let nextId ← r.get "next_id" .natural
  let system ← r.get "system_indices" (.list IndexStats.decoder)
  let presence ← r.get "presence" IndexStats.decoder
  let user ← r.get "user_indices" (.list IndexStats.decoder)
  return ⟨suffix, entries, nextId, system, presence, user⟩

/-- The statistics as a text. -/
def report (s : PartitionStats) : String := s.toJson.pretty

end PartitionStats

end Directory
