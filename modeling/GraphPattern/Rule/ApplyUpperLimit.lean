import GraphPattern.Rule.Matches

/-!
# Applying an upper limit

The upper bound that a provenance marker keeps is enforced, and the marker is removed.
-/

namespace GraphPattern.Rule.ApplyUpperLimit

/-- The rule applies to a marked composite vertex without annotation. -/
def applications (q : Query) (vertex : ItemId) : Except Error (List Application) := do
  let item ← q.item vertex
  if !item.isComposite || item.isAnnotated || !item.isMarked then return []
  return [← Application.ofItems q [vertex]]

/-- Remove the marker. -/
def apply (q : Query) (a : Application) : Except Error Reduced := do
  let vertex ← a.item 0
  Reduced.ofEdit q do
    Query.setProvenance vertex none
    return vertex

/-- Drop the matches that hold more objects of the absorbed vertex than allowed. -/
def enforce (vertex : Item) (marker : Provenance) (max : Nat) (output : String) :
    WorkStep Unit :=
  Workspace.withScratch do
    let current ← Workspace.require vertex.joinedName
    let named ← Workspace.rowsNamed current.objects marker.item
    let instances ← Workspace.temporary
      (Store.distinct named [Column.subgraph, Column.itemId])
    let counts ← Workspace.temporary
      (Store.countBy instances [Column.subgraph] Column.count)
    let excess ← Workspace.temporary
      (Store.filter counts (.columnValue Column.count .gt (.int max)))
    let same := [(Column.subgraph, Column.subgraph)]
    let objects ← Workspace.temporary (Store.antiJoin current.objects excess same)
    let links ← Workspace.temporary (Store.antiJoin current.links excess same)
    let tables : SubgraphTables := ⟨← Workspace.keep objects, ← Workspace.keep links⟩
    Workspace.replace output tables

/-- Enforce the bound of the marker, if it has one. -/
def replay (r : Replay) : WorkStep (Option String) := do
  let vertex ← r.before.item (← r.application.item 0)
  match vertex.provenance with
  | none => refuseState (.missingMarker vertex.joinedName)
  | some marker =>
    match marker.max with
    | some max => enforce vertex marker max r.result.joinedName
    | none => pure ()
    return some r.result.joinedName

end GraphPattern.Rule.ApplyUpperLimit

namespace GraphPattern.Rule

/-- Apply an upper limit. -/
def applyUpperLimit : Rule :=
  ⟨"apply-upper-limit", ApplyUpperLimit.applications, ApplyUpperLimit.apply,
    ApplyUpperLimit.replay⟩

end GraphPattern.Rule
