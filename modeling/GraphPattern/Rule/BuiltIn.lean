import GraphPattern.Rule.AbsorbAnnotatedVertex
import GraphPattern.Rule.AbsorbSelfLoop
import GraphPattern.Rule.ApplyUpperLimit
import GraphPattern.Rule.CollapseEdge
import GraphPattern.Rule.EliminateSubquery
import GraphPattern.Rule.GetVertex
import GraphPattern.Rule.ProcessConstraint

/-!
# The rules of the library
-/

namespace GraphPattern.Rule

/-- The rules in the order in which a search tries them. -/
def builtIn : List Rule :=
  [getVertex, absorbSelfLoop, collapseEdge, absorbAnnotatedVertex, applyUpperLimit,
    eliminateSubquery, processConstraint]

/-- The rule of a given name. -/
def named? (name : String) : Option Rule := builtIn.find? fun rule => rule.name = name

/-- Every way in which a rule of the library applies to a query: vertex by vertex, and for each in
the order of the rules. -/
def survey (q : Query) : Except Error (List (Rule × Application)) := do
  let found ← (q.vertices .whole).mapM fun vertex =>
    builtIn.mapM fun rule => return (← rule.applications q vertex).map (rule, ·)
  return found.flatten.flatten

end GraphPattern.Rule
