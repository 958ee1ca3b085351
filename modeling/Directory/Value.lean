import Directory.Text.Hex

/-!
# Values

The values of attributes, and the order in which an index keeps them.

* `Value`: an integer, a text or a string of bytes.
* `Value.compare`: integers come first, then texts by code points, then bytes.
* The display form is the number, the text itself, or `#` and the bytes in hexadecimal.
-/

namespace Directory

/-- The value of an attribute. -/
inductive Value where
  | integer (n : Int64)
  | text (s : String)
  | binary (bytes : List UInt8)
deriving DecidableEq, Inhabited

namespace Value

/-- The content of a text. -/
def text? : Value → Option String
  | text s => some s
  | _ => none

/-- The display form. -/
def display : Value → String
  | integer n => toString n
  | text s => s
  | binary bytes => String.ofList ('#' :: bytes.flatMap Text.hexByte)

instance : ToString Value := ⟨display⟩

/-- The order of an index. -/
protected def compare : Value → Value → Ordering
  | integer m, integer n => Ord.compare m n
  | integer _, _ => .lt
  | text _, integer _ => .gt
  | text s, text t => Ord.compare s t
  | text _, binary _ => .lt
  | binary bs, binary cs => Ord.compare bs cs
  | binary _, _ => .gt

instance : Ord Value := ⟨Value.compare⟩

section Order

variable {m n : Int64} {s t : String} {bs cs : List UInt8}

theorem compare_integer : compare (integer m) (integer n) = compare m n := rfl

theorem compare_text : compare (text s) (text t) = compare s t := rfl

theorem compare_binary : compare (binary bs) (binary cs) = compare bs cs := rfl

instance : Std.OrientedOrd Value where
  eq_swap {a b} := by
    cases a <;> cases b <;>
      first
      | rfl
      | simpa only [compare_integer] using Std.OrientedCmp.eq_swap
      | simpa only [compare_text] using Std.OrientedCmp.eq_swap
      | simpa only [compare_binary] using Std.OrientedCmp.eq_swap

instance : Std.TransOrd Value where
  isLE_trans {a b c} hab hbc := by
    cases a <;> cases b <;> cases c <;>
      first
      | rfl
      | exact Bool.noConfusion (show false = true from hab)
      | exact Bool.noConfusion (show false = true from hbc)
      | simp only [compare_integer] at hab hbc ⊢
        exact Std.TransCmp.isLE_trans hab hbc
      | simp only [compare_text] at hab hbc ⊢
        exact Std.TransCmp.isLE_trans hab hbc
      | simp only [compare_binary] at hab hbc ⊢
        exact Std.TransCmp.isLE_trans hab hbc

instance : Std.LawfulEqOrd Value where
  compare_self {a} := by
    cases a
    · exact compare_integer.trans Std.ReflCmp.compare_self
    · exact compare_text.trans Std.ReflCmp.compare_self
    · exact compare_binary.trans Std.ReflCmp.compare_self
  eq_of_compare {a b} h := by
    cases a <;> cases b <;>
      first
      | exact Ordering.noConfusion (show Ordering.lt = .eq from h)
      | exact Ordering.noConfusion (show Ordering.gt = .eq from h)
      | rw [compare_integer] at h
        exact congrArg integer (Std.LawfulEqCmp.eq_of_compare h)
      | rw [compare_text] at h
        exact congrArg text (Std.LawfulEqCmp.eq_of_compare h)
      | rw [compare_binary] at h
        exact congrArg binary (Std.LawfulEqCmp.eq_of_compare h)

end Order

/-- The order as a test: `a` is not above `b`. -/
def le (a b : Value) : Bool := (compare a b).isLE

end Value

end Directory
