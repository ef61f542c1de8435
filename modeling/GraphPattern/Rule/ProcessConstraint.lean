import GraphPattern.Rule.Matches

/-!
# Processing a constraint

A constraint whose items all belong to one composite vertex is settled by filtering the matches of
the vertex. A match remains if some instance of the left operand and some instance of the right one
satisfy the operator; a constant is compared with every instance of the other operand.
-/

namespace GraphPattern

/-! The names of the columns of operand values. -/

namespace Column

/-- The value of the left operand. -/
def leftValue : String := "v1"

/-- The value of the right operand. -/
def rightValue : String := "v2"

end Column

end GraphPattern

namespace GraphPattern.Rule.ProcessConstraint

/-- The rule applies to every constraint without annotation whose items a settled vertex holds. -/
def applications (q : Query) (vertex : ItemId) : Except Error (List Application) := do
  let item ← q.item vertex
  if !isSettled item then return []
  let inside := (q.constraints .whole).filter fun c =>
    c.bounds.isNone && c.itemNames.all item.hasName
  inside.mapM fun c => return (← Application.ofItems q [vertex]).withConstraint c

/-- Remove the constraint. -/
def apply (q : Query) (a : Application) : Except Error Reduced := do
  let vertex ← a.item 0
  let constraint ← a.settled
  Reduced.ofEdit q do
    let _ ← Query.removeConstraint constraint
    return vertex

/-- The values of an operand in every match: the identifiers of the item, or the values of its
attribute. -/
def operandValues (rows : TableId) (kind : SourceKind) (operand : Operand) (column : String) :
    WorkStep TableId := do
  match operand with
  | .literal _ => refuseState (.operandWithoutItem operand.text)
  | .item name attr =>
    let named ← Workspace.rowsNamed rows name
    match attr with
    | none =>
      let ids ← Workspace.temporary (Store.distinct named [Column.subgraph, Column.itemId])
      Store.renameColumn ids Column.itemId column
      return ids
    | some attr =>
      let values ← Workspace.temporary (Store.attributeValues kind attr)
      Workspace.temporary (Store.join named values [(Column.itemId, Column.bearerId)]
        [.left Column.subgraph Column.subgraph, .right Column.bearerValue column])

/-- The rows of matches that satisfy a constraint. -/
def satisfying (rows : TableId) (kind : SourceKind) (operator : Comparison)
    (left right : Operand) : WorkStep TableId := do
  match left, right with
  | left, .literal value =>
    let values ← operandValues rows kind left Column.leftValue
    Workspace.temporary (Store.filter values (.columnValue Column.leftValue operator value))
  | .literal value, right =>
    let values ← operandValues rows kind right Column.rightValue
    Workspace.temporary
      (Store.filter values (.columnValue Column.rightValue operator.swapped value))
  | left, right =>
    let leftValues ← operandValues rows kind left Column.leftValue
    let rightValues ← operandValues rows kind right Column.rightValue
    let paired ← Workspace.temporary (Store.join leftValues rightValues
      [(Column.subgraph, Column.subgraph)]
      [.left Column.subgraph Column.subgraph, .left Column.leftValue Column.leftValue,
        .right Column.rightValue Column.rightValue])
    Workspace.temporary
      (Store.filter paired (.columns Column.leftValue operator Column.rightValue))

/-- The operator of a constraint, which must relate two operands. -/
def binaryOperator (c : Constraint) : Except Error Comparison :=
  match (Comparison.ofKeyword? c.operator).filter Comparison.isBinary with
  | some operator => pure operator
  | none => refuseState (.operatorNotBinary c.operator)

/-- Keep the matches that satisfy the constraint. -/
def replay (r : Replay) : WorkStep (Option String) := do
  let constraint ← r.application.settled
  let operator ← binaryOperator constraint
  Workspace.withScratch do
    let current ← Workspace.require r.result.joinedName
    let (rows, kind) :=
      if constraint.onEdges then (current.links, SourceKind.link)
      else (current.objects, SourceKind.object)
    let holding ← satisfying rows kind operator constraint.left constraint.right
    let kept ← Workspace.temporary (Store.distinct holding [Column.subgraph])
    let objects ← Workspace.temporary (Store.keepMatches current.objects kept Column.subgraph)
    let links ← Workspace.temporary (Store.keepMatches current.links kept Column.subgraph)
    let tables : SubgraphTables := ⟨← Workspace.keep objects, ← Workspace.keep links⟩
    Workspace.replace r.result.joinedName tables
  return some r.result.joinedName

end GraphPattern.Rule.ProcessConstraint

namespace GraphPattern.Rule

/-- Process a constraint. -/
def processConstraint : Rule :=
  ⟨"process-constraint", ProcessConstraint.applications, ProcessConstraint.apply,
    ProcessConstraint.replay⟩

end GraphPattern.Rule
