import Directory.Text.Blank
import Directory.Text.LowerCase

/-!
# Identifiers

* `EntryId`: the number an entry is stored under.
* `AttributeId`: the name of an attribute; `AttributeId.ofName` resolves a written name, in which
  surrounding blanks and the case of ASCII letters do not count.
-/

namespace Directory

/-- The number of a stored entry. -/
abbrev EntryId := UInt64

/-- The least number. -/
def EntryId.least : EntryId := 0

/-- The greatest number. -/
def EntryId.greatest : EntryId := 0xffffffffffffffff

/-- The name of an attribute, or its object identifier. -/
structure AttributeId where
  name : String
deriving DecidableEq, Inhabited

namespace AttributeId

/-- The attribute of a written name. -/
def ofName (s : String) : AttributeId := ⟨Text.lowerAscii (Text.trim s)⟩

/-- The attribute that lists the classes of an entry. -/
def objectClass : AttributeId := ⟨"objectclass"⟩

/-- The attribute that names the target of an alias. -/
def aliasedObjectName : AttributeId := ⟨"aliasedobjectname"⟩

instance : ToString AttributeId := ⟨AttributeId.name⟩

/-- Attributes are ordered by name. -/
instance : Ord AttributeId := ⟨fun a b => compare a.name b.name⟩

instance : Std.OrientedOrd AttributeId where
  eq_swap {a b} := (Std.OrientedCmp.eq_swap : compare a.name b.name = _)

instance : Std.TransOrd AttributeId where
  isLE_trans {a b c} hab hbc := by
    have hab : (compare a.name b.name).isLE := hab
    have hbc : (compare b.name c.name).isLE := hbc
    exact (Std.TransCmp.isLE_trans hab hbc : (compare a.name c.name).isLE)

instance : Std.LawfulEqOrd AttributeId where
  compare_self {a} := (Std.ReflCmp.compare_self : compare a.name a.name = .eq)
  eq_of_compare {a b} h := by
    have h : compare a.name b.name = .eq := h
    cases a
    cases b
    exact congrArg AttributeId.mk (Std.LawfulEqCmp.eq_of_compare h)

end AttributeId

end Directory
