import Directory.Filter.Basic

/-!
# Matching pieces

* `Pieces.fits`: a text starts with the initial piece, ends with the final one, and has the inner
  ones in between, in order and without overlap.
* `afterFirst?`: what follows the first occurrence of a piece, which leaves the most room for the
  pieces after it.
-/

namespace Directory

namespace Pieces

/-- What follows the piece at the start of the text. -/
def afterInitial? (piece cs : List Char) : Option (List Char) :=
  if piece.isPrefixOf cs then some (cs.drop piece.length) else none

/-- What follows the first occurrence of the piece. -/
def afterFirst? (piece : List Char) : List Char → Option (List Char)
  | [] => afterInitial? piece []
  | c :: cs =>
    match afterInitial? piece (c :: cs) with
    | some rest => some rest
    | none => afterFirst? piece cs

/-- The text has the inner pieces in order, and ends with the final one after them. -/
def fitsRest (final : List Char) : (inner : List (List Char)) → List Char → Bool
  | [], cs => final.isSuffixOf cs
  | piece :: inner, cs =>
    match afterFirst? piece cs with
    | some rest => fitsRest final inner rest
    | none => false

/-- The text has the pieces. -/
def fitsChars (p : Pieces) (cs : List Char) : Bool :=
  match afterInitial? (p.initial.getD "").toList cs with
  | some rest => fitsRest (p.final.getD "").toList (p.inner.map String.toList) rest
  | none => false

/-- The display form of the value has the pieces. -/
def fits (p : Pieces) (v : Value) : Bool := p.fitsChars v.display.toList

end Pieces

end Directory
