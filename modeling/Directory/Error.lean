import Directory.Name.Basic

/-!
# Errors

* `Error`: the causes for which an operation is refused.
* `ErrorKind`: the classes of causes; `Error.kind` names the class, `Error.message` the wording.
* A question that can be refused may stand among the steps of an operation that changes a state.
-/

namespace Directory

/-- The classes of causes. -/
inductive ErrorKind where
  | invalidPosition
  | closed
  | unsupportedOperation
  | unsupportedOrdering
  | noSuchIndex
  | invariantViolation
  | notFound
  | alreadyExists
  | notAllowedOnNonLeaf
  | notAllowed
  | invalidInput
  | parse
deriving DecidableEq, Inhabited

/-- The causes for which an operation is refused. -/
inductive Error where
  /- names -/
  | rdnWithoutEquals (written : String)
  | rdnWithEmptyPart (written : String)
  | danglingEscape (written : String)
  /- values -/
  | notAnInteger (written : String) (attr : AttributeId)
  | binaryForInteger (attr : AttributeId)
  | notUtf8 (attr : AttributeId)
  | noOrdering (attr : AttributeId)
  | noRangeOrdering (attr : AttributeId)
  | unknownRule (rule : String)
  | unsupportedRule (rule : String)
  /- filters -/
  | emptyFilter
  | trailingFilterInput (rest written : String)
  | invalidFilter (written : String)
  | filterTooDeep (depth limit : Nat)
  | noChildren
  | tooManyChildren (count limit : Nat)
  | badPartCount (attr : AttributeId) (count limit : Nat)
  | extensibleWithoutSubject
  /- documents -/
  | malformedDocument
  /- indices -/
  | tablesDisagree (index : String)
  | unorderedIndex (operation index : String)
  | noUserIndex (attr : AttributeId)
  | noSystemIndex (name : String)
  /- cursors -/
  | notPositioned (operation : String)
  | cursorClosed (operation : String)
  | notSupported (operation : String)
  | seekNeedsValue (operation : String)
  | pieceSeekNeedsValue
  | branchMismatch (cursors evaluators : Nat)
  /- entries -/
  | emptySuffix
  | noEntry (id : EntryId)
  | noEntryNamed (name : Dn)
  | entryExists (name : Dn)
  | outsidePartition (name suffix : Dn)
  | noParent (parent : Dn)
  | addBelowAlias (name : Dn)
  | hasChildren (name : Dn)
  | aliasTarget (name : Dn)
  | suffixFixed
  | noNewParent (parent : Dn)
  | moveBelowSelf (name : Dn)
  | moveBelowAlias (name : Dn)
  | emptyName (id : EntryId)
  | movedAliasTarget (name : Dn)
  | misplaced (name base : Dn)
  | parentCycle (id : EntryId)
  /- aliases -/
  | aliasWithoutTarget (name : Dn)
  | aliasToItself (name : Dn)
  | aliasToAncestor (name target : Dn)
  | targetBecomesAlias (name : Dn)
  | noAliasTarget (target : Dn)
  | aliasToAlias (name target : Dn)
  | aliasNotIndexed (id : EntryId) (what : String)
  /- searches and transactions -/
  | noSearchBase (base : Dn)
  | danglingBaseAlias (base target : Dn)
  | rollbackIncomplete (cause : Error)
deriving DecidableEq, Inhabited

namespace Error

/-- The class of a cause. -/
def kind : Error → ErrorKind
  | rdnWithoutEquals _ | rdnWithEmptyPart _ | danglingEscape _ => .invalidInput
  | notAnInteger .. | binaryForInteger _ | notUtf8 _ => .invalidInput
  | noOrdering _ => .unsupportedOrdering
  | noRangeOrdering _ => .noSuchIndex
  | unknownRule _ | unsupportedRule _ => .invalidInput
  | emptyFilter | trailingFilterInput .. | invalidFilter _ => .parse
  | filterTooDeep .. | noChildren | tooManyChildren .. | badPartCount .. => .invalidInput
  | extensibleWithoutSubject => .invalidInput
  | malformedDocument => .parse
  | tablesDisagree _ => .invariantViolation
  | unorderedIndex .. => .unsupportedOrdering
  | noUserIndex _ | noSystemIndex _ => .noSuchIndex
  | notPositioned _ => .invalidPosition
  | cursorClosed _ => .closed
  | notSupported _ => .unsupportedOperation
  | seekNeedsValue _ | pieceSeekNeedsValue | branchMismatch .. => .invalidInput
  | emptySuffix => .invalidInput
  | noEntry _ | noEntryNamed _ | noParent _ | noNewParent _ => .notFound
  | entryExists _ => .alreadyExists
  | hasChildren _ => .notAllowedOnNonLeaf
  | outsidePartition .. | addBelowAlias _ | aliasTarget _ | suffixFixed => .notAllowed
  | moveBelowSelf _ | moveBelowAlias _ | movedAliasTarget _ => .notAllowed
  | emptyName _ | misplaced .. | parentCycle _ | aliasNotIndexed .. => .invariantViolation
  | aliasWithoutTarget _ => .invalidInput
  | aliasToItself _ | aliasToAncestor .. | targetBecomesAlias _ | aliasToAlias .. => .notAllowed
  | noAliasTarget _ | noSearchBase _ | danglingBaseAlias .. => .notFound
  | rollbackIncomplete _ => .invariantViolation

/-- The wording of a cause. -/
def message : Error → String
  | rdnWithoutEquals w => s!"RDN '{w}' has no '='"
  | rdnWithEmptyPart w => s!"RDN '{w}' has an empty type or value"
  | danglingEscape w => s!"DN '{w}' ends with a dangling escape"
  | notAnInteger w a => s!"'{w}' is not a valid integer for '{a}'"
  | binaryForInteger a => s!"Binary value given for integer attribute '{a}'"
  | notUtf8 a => s!"Binary value for '{a}' is not valid UTF-8"
  | noOrdering a => s!"Attribute '{a}' has no ordering rule"
  | noRangeOrdering a => s!"Attribute '{a}' has no ordering rule for range matching"
  | unknownRule r => s!"Unknown matching rule '{r}'"
  | unsupportedRule r => s!"Unsupported matching rule '{r}'"
  | emptyFilter => "Empty filter"
  | trailingFilterInput r w => s!"Unexpected trailing input '{r}' in filter '{w}'"
  | invalidFilter w => s!"Invalid filter '{w}'"
  | filterTooDeep d n => s!"Filter depth {d} exceeds maximum {n}"
  | noChildren => "AND/OR filter needs at least one child"
  | tooManyChildren c n => s!"Filter has {c} children, max is {n}"
  | badPartCount a c n => s!"Substring filter on '{a}' has {c} parts, allowed 1..={n}"
  | extensibleWithoutSubject => "Extensible filter needs an attribute or a matching rule"
  | malformedDocument => "The document does not have the expected form"
  | tablesDisagree n => s!"index '{n}': Forward and reverse tables disagree"
  | unorderedIndex o n => s!"{o}: index '{n}' has no ordering"
  | noUserIndex a => s!"No user index on attribute '{a}'"
  | noSystemIndex n => s!"No system index named '{n}'"
  | notPositioned o => s!"{o}: cursor is not positioned on an element"
  | cursorClosed o => s!"{o}: cursor has been closed"
  | notSupported o => s!"{o} is not supported by this cursor"
  | seekNeedsValue o => s!"{o}: value-ordered cursor needs a value to seek to"
  | pieceSeekNeedsValue => "substring cursor needs a value to seek to"
  | branchMismatch c e => s!"{c} OR cursors for {e} evaluators"
  | emptySuffix => "Partition suffix must not be empty"
  | noEntry id => s!"No entry with id {id}"
  | noEntryNamed d => s!"No entry named '{d}'"
  | entryExists d => s!"Entry '{d}' already exists"
  | outsidePartition d s => s!"'{d}' is outside partition '{s}'"
  | noParent d => s!"Parent '{d}' does not exist"
  | addBelowAlias d => s!"Cannot add '{d}' below an alias"
  | hasChildren d => s!"Entry '{d}' has children"
  | aliasTarget d => s!"Entry '{d}' is the target of an alias"
  | suffixFixed => "The partition suffix cannot be moved or renamed"
  | noNewParent d => s!"New parent '{d}' does not exist"
  | moveBelowSelf d => s!"Cannot move '{d}' below itself"
  | moveBelowAlias d => s!"Cannot move '{d}' below an alias"
  | emptyName id => s!"Entry {id} has an empty DN"
  | movedAliasTarget d => s!"'{d}' is the target of an alias and cannot be moved"
  | misplaced d b => s!"'{d}' is indexed below '{b}' but is not named below it"
  | parentCycle id => s!"The parents of entry {id} form a cycle"
  | aliasWithoutTarget d => s!"Alias '{d}' has no target"
  | aliasToItself d => s!"Alias '{d}' refers to itself"
  | aliasToAncestor d t => s!"Alias '{d}' refers to its own ancestor '{t}'"
  | targetBecomesAlias d => s!"'{d}' is the target of another alias and cannot become one"
  | noAliasTarget t => s!"Alias target '{t}' does not exist"
  | aliasToAlias d t => s!"Alias '{d}' refers to another alias '{t}'"
  | aliasNotIndexed id what => s!"Alias {id} has no indexed {what}"
  | noSearchBase d => s!"Search base '{d}' does not exist"
  | danglingBaseAlias d t => s!"Alias '{d}' points to missing entry '{t}'"
  | rollbackIncomplete e => "rollback incomplete: " ++ e.message

end Error

/-- A refused question refuses the step that asks it, and changes nothing. -/
instance {σ : Type} : MonadLift (Except Error) (EStateM Error σ) where
  monadLift
    | .ok a => pure a
    | .error e => throw e

section Questions

variable {σ α β : Type}

theorem liftM_bind (x : Except Error α) (f : α → Except Error β) :
    (liftM (x >>= f) : EStateM Error σ β) = liftM x >>= fun a => liftM (f a) := by
  cases x <;> rfl

theorem liftM_self {m : Type → Type} (x : m α) : (liftM x : m α) = x := rfl

end Questions

end Directory
