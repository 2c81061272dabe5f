/-!
# Errors

Every failure of the compiler, as its cause. The wording of all of them is in this file, in one
function for each kind of cause.
-/

namespace QueryCompiler

/-- Why an operand, a payload or a nested query is refused. -/
inductive OperandFault where
  /-- the number of operands lies outside `least` to `most` -/
  | count (least most found : Nat)
  /-- an operand of this description has the wrong shape -/
  | shape (description : String)
  | parameterCount (expected found : Nat)
  | missingLambda (index : Nat)
  | missingQuery
  | missingInnerQuery
  | unexpectedPayload
  | emptyLog
  | noStart
  | lateSource
  | afterTerminal (terminal : String)
  | nestedModification
  | noTarget
  | thenByWithoutOrderBy
  | wholeRowAggregate
  | groupingArguments
  | keyCount (outer inner : Nat)
  | mixedKeys
  | includeWithoutEntity
  | includeAfterProjection
  | notNavigationPath (shown : String)
  | derivedModification
  | latePayload
  | payloadType (payload source : String)
  | insertNeedsObject
  | insertSelectNeedsObject
  | updateAfterProjection
  | assignmentsNotObject
  | noRows
  | noWritableColumns (ty : String)
  | notWritable (member : String)
  | typeMismatch (expected found : String)
  | missingKeyValue (member : String)
  | nothingToUpdate
  | nullPattern
  | nestedTooDeep
  deriving DecidableEq, Repr

def OperandFault.message : OperandFault → String
  | count least most found =>
    let expected := if least == most then toString least
      else toString least ++ ".." ++ toString most
    "expected " ++ expected ++ " operand(s), found " ++ toString found
  | shape description => "unexpected " ++ description ++ " operand"
  | parameterCount expected found =>
    "expected " ++ toString expected ++ " parameter(s), found " ++ toString found
  | missingLambda index => "missing lambda #" ++ toString index
  | missingQuery => "missing query"
  | missingInnerQuery => "missing inner query"
  | unexpectedPayload => "unexpected payload"
  | emptyLog => "empty operator log"
  | noStart => "a query must start with GetSource or an entity payload"
  | lateSource => "GetSource may only start a query"
  | afterTerminal terminal => "nothing may follow " ++ terminal
  | nestedModification => "a nested query cannot insert, update or delete"
  | noTarget => "no target entity"
  | thenByWithoutOrderBy => "ThenBy requires a preceding OrderBy"
  | wholeRowAggregate => "aggregate over whole rows needs a selector"
  | groupingArguments => "grouping aggregate takes at most one lambda"
  | keyCount outer inner =>
    toString outer ++ " outer key(s) against " ++ toString inner ++ " inner key(s)"
  | mixedKeys => "composite and single keys cannot be mixed"
  | includeWithoutEntity => "Include needs an entity source"
  | includeAfterProjection => "Include must precede any projection"
  | notNavigationPath shown => shown ++ " is not a navigation path"
  | derivedModification => "cannot modify rows of a derived table"
  | latePayload => "an entity payload cannot follow other operators"
  | payloadType payload source => "payload of type " ++ payload ++ " on a " ++ source ++ " source"
  | insertNeedsObject => "INSERT ... SELECT needs an object projection"
  | insertSelectNeedsObject => "INSERT ... SELECT needs an object-construction projector"
  | updateAfterProjection => "Update cannot follow a projection"
  | assignmentsNotObject => "assignments must be an object construction"
  | noRows => "no rows to insert"
  | noWritableColumns ty => ty ++ " has no writable columns"
  | notWritable member => "column '" ++ member ++ "' is not writable"
  | typeMismatch expected found => "expected " ++ expected ++ ", got " ++ found
  | missingKeyValue member => "missing key value '" ++ member ++ "'"
  | nothingToUpdate => "nothing to update"
  | nullPattern => "pattern must not be null"
  | nestedTooDeep => "queries are nested too deeply"

/-- Why an expression cannot be mapped onto rows and columns. -/
inductive Ambiguity where
  | unboundParameter (name : String)
  | memberOfCollection (member ty : String)
  | unflattenedGroupJoin
  | collectionProjection
  | collectionWithUnion
  | nestedProjection (shown : String)
  | groupJoinOutOfScope (join : Nat)
  | ownerNotEntity (shown : String)
  | memberNotColumn (member : String)
  | joinedRows (shown : String)
  | aggregateAcrossBoundary (shown : String)
  | anonymousRowAcrossBoundary
  | conflictingColumn (name : String)
  | noRowSource
  | sourceOutOfScope (id : Nat)
  | navigationAsValue (ty member : String)
  | navigationOfAnonymousRow (member : String)
  | unflattenedCollection (member : String)
  | rowAsValue (id : Nat)
  | objectAsValue
  | notAValue (shown : String)
  | missingSelector (function : String)
  | memberWithoutColumn (member target : String)
  | entityAsValue (entity : String)
  | notMemberPath (shown : String)
  | notEntity (shown : String)
  | anonymousColumns
  deriving DecidableEq, Repr

def Ambiguity.message : Ambiguity → String
  | unboundParameter name => "unbound parameter '" ++ name ++ "'"
  | memberOfCollection member ty =>
    "'" ++ member ++ "' is a member of a collection of " ++ ty
  | unflattenedGroupJoin => "a group join result must be flattened with SelectMany"
  | collectionProjection =>
    "a collection navigation cannot be the whole projection; use SelectMany"
  | collectionWithUnion => "one-to-many navigation cannot be combined with Union"
  | nestedProjection shown => "cannot nest projection " ++ shown
  | groupJoinOutOfScope join => "group join #" ++ toString join ++ " is not in scope"
  | ownerNotEntity shown => shown ++ " is not an entity"
  | memberNotColumn member =>
    "member '" ++ member ++ "' is not a column and cannot be read through a subquery"
  | joinedRows shown => "joined rows (" ++ shown ++ ") cannot be read through a subquery"
  | aggregateAcrossBoundary shown =>
    "aggregate " ++ shown ++ " cannot cross a subquery boundary"
  | anonymousRowAcrossBoundary =>
    "whole rows of an anonymous projection cannot cross a subquery boundary"
  | conflictingColumn name =>
    "output column '" ++ name ++ "' is bound to two different expressions"
  | noRowSource => "plan layer has no row source"
  | sourceOutOfScope id => "row source $" ++ toString id ++ " is not in scope"
  | navigationAsValue ty member => "navigation " ++ ty ++ "." ++ member ++ " used as a value"
  | navigationOfAnonymousRow member =>
    "'" ++ member ++ "' is not a navigation of an anonymous row"
  | unflattenedCollection member =>
    "collection navigation '" ++ member ++ "' must be flattened with SelectMany"
  | rowAsValue id => "row $" ++ toString id ++ " cannot be used as a value"
  | objectAsValue => "object construction is only valid as a projection"
  | notAValue shown => "'" ++ shown ++ "' cannot be used as a value"
  | missingSelector function => function ++ " needs a selector"
  | memberWithoutColumn member target =>
    "member '" ++ member ++ "' of '" ++ target ++ "' has no column"
  | entityAsValue entity => "entity '" ++ entity ++ "' cannot be used as a value"
  | notMemberPath shown => "'" ++ shown ++ "' is not a member path"
  | notEntity shown => "'" ++ shown ++ "' is not an entity"
  | anonymousColumns => "an anonymous row has no column list; project its members"

/-- Why a schema cannot be read. -/
inductive SchemaFault where
  | unexpectedContent (line : String)
  | unknownType (word entity member : String)
  | duplicateMember (entity member : String)
  /-- the JSON text is malformed or describes no schema -/
  | malformedJson
  deriving DecidableEq, Repr

def SchemaFault.message : SchemaFault → String
  | unexpectedContent line => "Unexpected content: '" ++ line ++ "'"
  | unknownType word entity member =>
    "Unknown type '" ++ word ++ "' for " ++ entity ++ "." ++ member
  | duplicateMember entity member => "Duplicate member " ++ entity ++ "." ++ member
  | malformedJson => "JSON deserialization failed"

/-- Why a configuration cannot be read. -/
inductive ConfigFault where
  | zeroBatch
  /-- the text is malformed or a setting has the wrong type -/
  | malformed
  /-- there is no text to read -/
  | unreadable
  deriving DecidableEq, Repr

def ConfigFault.message : ConfigFault → String
  | zeroBatch => "insert_batch_size must be at least 1"
  | malformed => "Invalid configuration"
  | unreadable => "Failed to read the file"

/-- A failure of the compiler. -/
inductive CompileError where
  | unsupportedOperator (shown : String)
  /-- rows are skipped without an order to count them in -/
  | missingOrder (skip : Nat)
  | missingKey (entity : String)
  | missingForeignKey (entity member : String)
  | ambiguous (cause : Ambiguity)
  | unknownEntity (ty : String)
  | unknownMember (entity member : String)
  | invalidOperand (subject : String) (fault : OperandFault)
  | unsupportedMethod (shown : String)
  | schema (fault : SchemaFault)
  | config (fault : ConfigFault)
  /-- a file cannot be read -/
  | unreadableFile
  /-- lambdas applied inside lambdas without end -/
  | endlessBinding
  deriving DecidableEq, Repr

def CompileError.message : CompileError → String
  | unsupportedOperator shown => "Unsupported operator: " ++ shown
  | missingOrder skip => "Pagination requires an OrderBy: Skip(" ++ toString skip ++ ")"
  | missingKey entity => "Entity '" ++ entity ++ "' declares no key member"
  | missingForeignKey entity member =>
    "Navigation '" ++ entity ++ "." ++ member ++ "' has no foreign key"
  | ambiguous cause => "Ambiguous binding: " ++ cause.message
  | unknownEntity ty => "Unknown entity type: '" ++ ty ++ "'"
  | unknownMember entity member => "Unknown member '" ++ member ++ "' on '" ++ entity ++ "'"
  | invalidOperand subject fault => "Invalid operand for " ++ subject ++ ": " ++ fault.message
  | unsupportedMethod shown => "Unsupported method: " ++ shown
  | schema fault => "Schema error: " ++ fault.message
  | config fault => "Configuration error: " ++ fault.message
  | unreadableFile => "IO error: the file cannot be read"
  | endlessBinding => "Ambiguous binding: lambda application does not end"

/-- The outcome of a step of the compiler. -/
abbrev Compiled := Except CompileError

end QueryCompiler
