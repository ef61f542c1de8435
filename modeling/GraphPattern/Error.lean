import GraphPattern.Identifier
import GraphPattern.Text.Quoted

/-!
# Errors

Every way in which an operation can fail is a constructor that carries what the failure is about.
The wording is decided in one place for each family, and `Error.message` puts the families
together.
-/

namespace GraphPattern

/-- An operation was handed something that no query can hold or use. -/
inductive ArgumentFault where
  /-- The lower bound of an annotation exceeds the upper one. -/
  | boundsInverted (min max : Nat)
  /-- A provenance marker lacks one of its names. -/
  | emptyProvenanceName
  /-- A test has no operator. -/
  | emptyConditionOperator
  /-- A test has no attribute. -/
  | emptyConditionAttribute
  /-- A constraint has no operator. -/
  | emptyConstraintOperator
  /-- An operand of a constraint names no item. -/
  | emptyConstraintItem
  /-- Both operands of a constraint are constants. -/
  | twoLiterals
  /-- The annotated item is none of the items that a constraint relates. -/
  | unrelatedAnnotatedItem (item : String)
  /-- A derived link lacks an end or an attribute. -/
  | emptyDerivedLinkName
  /-- An item has no name. -/
  | emptyItemName
  /-- A composite vertex has no names. -/
  | compositeWithoutNames
  /-- An end of an edge has no name. -/
  | emptyEndpointName (edge : String)
  /-- An item that is no vertex stands where a vertex is needed. -/
  | notAVertex (name : String)
  /-- An item that is no edge stands where an edge is needed. -/
  | notAnEdge (name : String)
  /-- A vertex to be added already has edges. -/
  | newVertexWithEdges
  /-- A vertex is to be replaced by something else. -/
  | replacementNotAVertex (name : String)
  /-- A cached item has no name. -/
  | emptyCachedName
  /-- The root cannot be removed. -/
  | rootRemoval
  /-- The root cannot be merged into anything. -/
  | rootFlattening
  /-- The root has no boundary. -/
  | rootBoundary
  /-- The vertex is not an end of the edge. -/
  | notAnEndpoint (vertex : ItemId) (edge : String)
  /-- A self-loop has no other end to absorb its vertex. -/
  | selfLoopAbsorption (edge : String)
  /-- An application has fewer items than its rule needs. -/
  | missingApplicationItem (args : String) (position : Nat)
  /-- An application lacks the constraint that its rule needs. -/
  | missingApplicationConstraint
  /-- The text is no query description. -/
  | malformedDescription
  /-- A query file cannot be read. -/
  | unreadableFile (path reason : String)
deriving DecidableEq

/-- An operation is not possible in the present state. -/
inductive StateFault where
  /-- No live item has the number. -/
  | unknownItem (item : ItemId)
  /-- No live container has the number. -/
  | unknownContainer (container : ContainerId)
  /-- A name belongs to another item. -/
  | nameTaken (name owner : String)
  /-- The item already belongs to a query. -/
  | alreadyOwned (name : String)
  /-- An edge belongs to no container. -/
  | edgeWithoutContainer
  /-- A vertex belongs to no container. -/
  | vertexWithoutContainer
  /-- An item belongs to no container. -/
  | itemWithoutContainer
  /-- A vertex that is to be removed has edges. -/
  | vertexHasEdges (name : String) (count : Nat)
  /-- A subquery that is to be removed has members. -/
  | subqueryNotEmpty (subquery : ContainerId)
  /-- No container declares the constraint. -/
  | unknownConstraint (constraint : String)
  /-- No container declares the derived link. -/
  | unknownDerivedLink (link : String)
  /-- No container caches the item. -/
  | notCached (item : String)
  /-- The container already caches the item. -/
  | alreadyCached (item : String)
  /-- A plain vertex cannot carry a provenance marker. -/
  | markerOnPlainVertex (name : String)
  /-- Only composite vertices take further names. -/
  | namesOnPlainItem (name : String)
  /-- An absorbed vertex carries none of the edge's endpoint names. -/
  | edgeMissesAbsorbed
  /-- The operator of a constraint takes only one operand. -/
  | operatorNotBinary (operator : String)
  /-- An operand names no item. -/
  | operandWithoutItem (operand : String)
  /-- A step that needs an edge is given something else. -/
  | stepNeedsEdge (name : String)
  /-- A step that needs a provenance marker finds none. -/
  | missingMarker (name : String)
  /-- The registry already holds tables under the name. -/
  | tablesExist (name : String)
  /-- The registry holds no tables under the name. -/
  | noTables (name : String)
  /-- The query has no plan. -/
  | unplanned (query : String)
  /-- The plan has nothing to execute. -/
  | emptyPlan (query : String)
  /-- The destination of a run is taken. -/
  | destinationExists (container : String)
deriving DecidableEq

/-- Something happened that correct rules never cause. -/
inductive InvariantFault where
  /-- A search was asked to expand a state that it does not hold. -/
  | unknownState (state : StateId)
  /-- A step leads back to the state it starts from or to one before it. -/
  | leadsBack (step : String) (state ancestor : StateId)
  /-- A search went deeper than any reduction of its query can. -/
  | tooDeep (state : StateId)
  /-- The last step of a run left other tables than those of the result. -/
  | leftoverTables (expected : String) (found : List String)
deriving DecidableEq

/-- The store refused an operation. -/
inductive StoreError where
  /-- The table was never created or has been released. -/
  | unknownTable (table : TableId)
  /-- The table has no such column. -/
  | unknownColumn (table : TableId) (column : String)
  /-- The table already has such a column. -/
  | columnExists (table : TableId) (column : String)
  /-- A table was to be created with a column named twice. -/
  | duplicateColumns (columns : List String)
  /-- A union needs at least one table. -/
  | emptyUnion
  /-- A union needs tables with equally many columns. -/
  | unionMismatch (first : TableId) (layout : List String) (other : TableId)
    (columns : List String)
  /-- The ends of a link must be integers. -/
  | linkEnds (source target : String)
  /-- A container of that name exists. -/
  | containerExists (name : String)
  /-- No container of that name exists. -/
  | unknownContainer (name : String)
  /-- The commit did not succeed. -/
  | commitFailed
deriving DecidableEq

/-- Source data could not be imported. -/
inductive ImportError where
  /-- The header lacks a column that holds identifiers. -/
  | missingColumn (file column : String)
  /-- An identifier is not an integer. Rows count from one. -/
  | notAnInteger (file : String) (row : Nat) (column value : String)
  /-- The file is not text. -/
  | notText
  /-- The file cannot be read. -/
  | unreadable (reason : String)
deriving DecidableEq

/-- Settings could not be loaded. -/
inductive ConfigError where
  /-- The file cannot be read. -/
  | unreadable (path reason : String)
  /-- The text is not a settings document. -/
  | malformed (path : String)
deriving DecidableEq

/-- Everything that can go wrong. -/
inductive Error where
  /-- An unusable argument. -/
  | argument (fault : ArgumentFault)
  /-- An operation that the present state does not allow. -/
  | state (fault : StateFault)
  /-- A broken promise of the library itself. -/
  | invariant (fault : InvariantFault)
  /-- A refusal of the store outside any step of a plan. -/
  | store (error : StoreError)
  /-- A refusal of the store while a step of a plan was running. -/
  | step (label : String) (error : StoreError)
  /-- Unusable settings. -/
  | config (error : ConfigError)
  /-- Unusable source data. -/
  | dataImport (error : ImportError)
deriving DecidableEq

namespace ArgumentFault

/-- What the fault is about. -/
def message : ArgumentFault → String
  | boundsInverted lo hi => s!"annotation minimum {lo} exceeds maximum {hi}"
  | emptyProvenanceName => "provenance names must be non-empty"
  | emptyConditionOperator => "condition operator is empty"
  | emptyConditionAttribute => "condition attribute is empty"
  | emptyConstraintOperator => "constraint operator is empty"
  | emptyConstraintItem => "constraint item name is empty"
  | twoLiterals => "constraint relates two literals"
  | unrelatedAnnotatedItem item => s!"annotated item '{item}' is not related by the constraint"
  | emptyDerivedLinkName => "derived link needs non-empty vertex and attribute names"
  | emptyItemName => "item name is empty"
  | compositeWithoutNames => "composite vertex needs at least one name"
  | emptyEndpointName edge => s!"edge '{edge}' has an empty endpoint name"
  | notAVertex name => s!"'{name}' is not a vertex"
  | notAnEdge name => s!"'{name}' is not an edge"
  | newVertexWithEdges => "a new vertex cannot carry edges"
  | replacementNotAVertex name => s!"replacement '{name}' is not a vertex"
  | emptyCachedName => "cached item name is empty"
  | rootRemoval => "the root container cannot be removed"
  | rootFlattening => "the root container cannot be flattened"
  | rootBoundary => "the root container has no boundary"
  | notAnEndpoint vertex edge => s!"vertex {vertex.text} is not an endpoint of '{edge}'"
  | selfLoopAbsorption edge => s!"'{edge}' is a self-loop and cannot absorb its vertex"
  | missingApplicationItem args position => s!"application {args} has no item #{position}"
  | missingApplicationConstraint => "application carries no constraint"
  | malformedDescription => "malformed query description"
  | unreadableFile path reason => s!"cannot read {path}: {reason}"

end ArgumentFault

namespace StateFault

/-- What the fault is about. -/
def message : StateFault → String
  | unknownItem item => s!"item {item.text} is not part of the query"
  | unknownContainer container => s!"container {container.text} is not part of the query"
  | nameTaken name owner => s!"name '{name}' is already used by '{owner}'"
  | alreadyOwned name => s!"'{name}' already belongs to a query"
  | edgeWithoutContainer => "edge has no owning container"
  | vertexWithoutContainer => "vertex has no owning container"
  | itemWithoutContainer => "item has no owning container"
  | vertexHasEdges name count => s!"vertex '{name}' still has {count} incident edge(s)"
  | subqueryNotEmpty subquery =>
    s!"subquery {subquery.text} still owns vertices, edges or subqueries"
  | unknownConstraint constraint => s!"constraint '{constraint}' is not part of the query"
  | unknownDerivedLink link => s!"derived link '{link}' is not part of the query"
  | notCached item => s!"item '{item}' is not cached"
  | alreadyCached item => s!"item '{item}' is already cached"
  | markerOnPlainVertex name => s!"vertex '{name}' cannot carry a provenance marker"
  | namesOnPlainItem name => s!"only composite vertices gain names, not '{name}'"
  | edgeMissesAbsorbed => "edge does not reach the absorbed vertex"
  | operatorNotBinary operator =>
    s!"constraint operator '{operator}' cannot relate two operands"
  | operandWithoutItem operand => s!"operand {operand} names no item"
  | stepNeedsEdge name => s!"'{name}' is not an edge"
  | missingMarker name => s!"'{name}' carries no provenance marker"
  | tablesExist name => s!"temp tables for '{name}' already exist"
  | noTables name => s!"no temp tables for '{name}'"
  | unplanned query => s!"query '{query}' has no execution plan"
  | emptyPlan query => s!"plan for '{query}' has no steps to execute"
  | destinationExists container => s!"destination container '{container}' already exists"

end StateFault

namespace InvariantFault

/-- What the fault is about. -/
def message : InvariantFault → String
  | unknownState state => s!"state {state.text} is not part of the search graph"
  | leadsBack step state ancestor =>
    s!"rewrite {step} from {state.text} leads back to ancestor {ancestor.text}"
  | tooDeep state => s!"search below state {state.text} does not end"
  | leftoverTables expected found =>
    s!"expected only '{expected}' to remain after the last step, found " ++ Text.quotedList found

end InvariantFault

namespace StoreError

/-- The text of a refusal. -/
def message : StoreError → String
  | unknownTable table => s!"unknown table {table.text}"
  | unknownColumn table column => s!"table {table.text} has no column '{column}'"
  | columnExists table column => s!"table {table.text} already has a column '{column}'"
  | duplicateColumns columns => "schema mismatch: duplicate columns in " ++ Text.quotedList columns
  | emptyUnion => "schema mismatch: union of zero tables"
  | unionMismatch first layout other columns =>
    s!"schema mismatch: cannot union {first.text} " ++ Text.quotedList layout ++
      s!" with {other.text} " ++ Text.quotedList columns
  | linkEnds source target =>
    s!"schema mismatch: link endpoints must be integers, got {source} and {target}"
  | containerExists name => s!"container already exists: '{name}'"
  | unknownContainer name => s!"unknown container '{name}'"
  | commitFailed => "commit failed"

end StoreError

namespace ImportError

/-- The text of a failed import. -/
def message : ImportError → String
  | missingColumn file column => s!"{file} has no '{column}' column"
  | notAnInteger file row column value =>
    s!"{file}: row {row} has non-integer '{column}' value '{value}'"
  | notText => "invalid UTF-8"
  | unreadable reason => reason

end ImportError

namespace ConfigError

/-- The text of unusable settings. -/
def message : ConfigError → String
  | unreadable path reason => s!"failed to read config {path}: {reason}"
  | malformed path => s!"failed to parse config {path}"

end ConfigError

namespace Error

/-- The text of an error. -/
def message : Error → String
  | argument fault => "invalid argument: " ++ fault.message
  | state fault => "invalid state: " ++ fault.message
  | invariant fault => "internal invariant violated: " ++ fault.message
  | store error => error.message
  | step label error => s!"step {label} failed: " ++ error.message
  | config error => error.message
  | dataImport error => error.message

/-- The name of the family of an error. -/
def code : Error → String
  | argument _ => "invalid_argument"
  | state _ => "invalid_state"
  | invariant _ => "invariant"
  | store _ => "backend"
  | step .. => "execution"
  | config _ => "config"
  | dataImport _ => "import"

/-- Whether an error puts the library itself in doubt. -/
def isFatal : Error → Bool
  | invariant _ => true
  | _ => false

/-- Say in which step of a plan the store refused; other errors stay as they are. -/
def inStep (label : String) : Error → Error
  | store error => step label error
  | error => error

end Error

/-- Fail because of an argument. -/
def refuseArgument {m : Type → Type} [MonadExceptOf Error m] {α : Type} (fault : ArgumentFault) :
    m α :=
  throw (Error.argument fault)

/-- Fail because of the present state. -/
def refuseState {m : Type → Type} [MonadExceptOf Error m] {α : Type} (fault : StateFault) : m α :=
  throw (Error.state fault)

end GraphPattern
