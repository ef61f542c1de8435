import GraphPattern.Query.View

/-!
# Editing a query

Each edit is a step on the query that either returns a result or fails. Every edit looks first and
changes afterwards, so a failing edit leaves a well-formed query as it was.
-/

namespace GraphPattern

/-- A computation that may fail, as a step that leaves the state alone. -/
instance liftExcept {ε σ : Type} : MonadLift (Except ε) (EStateM ε σ) where
  monadLift
    | .ok a => pure a
    | .error e => throw e

/-- A step on a query. -/
abbrev QueryEdit := EStateM Error Query

namespace Query

/-- Change a live item. -/
def modifyItem (i : ItemId) (f : Item → Item) : QueryEdit Unit := do
  let _ ← (← get).item i
  modify fun q => { q with items := q.items.modify i.index f }

/-- Change a live container. -/
def modifyContainer (c : ContainerId) (f : Container → Container) : QueryEdit Unit := do
  let _ ← (← get).container c
  modify fun q => { q with containers := q.containers.modify c.index f }

/-- The first of some names that an item has. -/
def clash? (names : List String) (item : Item) : Option String := names.find? item.hasName

/-- Refuse names that belong to a live item other than `except`. -/
def checkNames (q : Query) (names : List String) (except : Option ItemId) : Except Error Unit :=
  let others := q.items.indexed.filter fun e => some ⟨e.1⟩ ≠ except
  match others.findSome? fun e => (clash? names e.2).map (·, e.2) with
  | some (name, owner) => refuseState (.nameTaken name owner.joinedName)
  | none => pure ()

/-- Refuse an item that belongs to a query. -/
def checkDetached (item : Item) : Except Error Unit :=
  if item.container.isSome then refuseState (.alreadyOwned item.joinedName) else pure ()

/-- Give an item the next number and an owner. -/
def register (item : Item) (container : ContainerId) : QueryEdit ItemId := do
  let q ← get
  set { q with items := q.items.push { item with container := some container } }
  return ⟨q.items.next⟩

/-- Add a vertex to a container. -/
def addVertex (container : ContainerId) (vertex : Item) : QueryEdit ItemId := do
  match vertex.edges? with
  | none => refuseArgument (.notAVertex vertex.joinedName)
  | some edges => if !edges.isEmpty then refuseArgument .newVertexWithEdges
  checkDetached vertex
  let _ ← (← get).container container
  (← get).checkNames vertex.names none
  let id ← register vertex container
  modifyContainer container fun c => { c with vertices := c.vertices ++ [id] }
  return id

/-- Add an edge to a container and join it to the vertices that its endpoint names belong to. An
end whose name belongs to no vertex stays open. -/
def addEdge (container : ContainerId) (edge : Item) : QueryEdit ItemId := do
  match edge.ends? with
  | none => refuseArgument (.notAnEdge edge.joinedName)
  | some ends =>
    checkDetached edge
    let _ ← (← get).container container
    (← get).checkNames edge.names none
    let source := (← get).vertexContaining? ends.sourceName
    let target := (← get).vertexContaining? ends.targetName
    let id ← register (edge.mapEnds fun e => { e with source := source, target := target })
      container
    [source, target].reduceOption.forM fun vertex => modifyItem vertex (Item.attach id)
    modifyContainer container fun c => { c with edges := c.edges ++ [id] }
    return id

/-- Add a subquery without members below a container. -/
def addSubquery (parent : ContainerId) (bounds : Option Annotation) :
    QueryEdit ContainerId := do
  let _ ← (← get).container parent
  let q ← get
  let id : ContainerId := ⟨q.containers.next⟩
  set { q with containers := q.containers.push (Container.bare (.subquery parent bounds)) }
  modifyContainer parent fun c => { c with subqueries := c.subqueries ++ [id] }
  return id

/-- Add a constraint, noting whether its first item is an edge. -/
def addConstraint (container : ContainerId) (constraint : Constraint) : QueryEdit Unit := do
  let q ← get
  let onEdges :=
    (constraint.itemNames.head?.bind q.itemNamed?).any (q.itemSatisfies Item.isEdge)
  modifyContainer container fun c =>
    { c with constraints := c.constraints ++ [{ constraint with onEdges := onEdges }] }

/-- Add a request for derived links. -/
def addDerivedLink (container : ContainerId) (link : DerivedLink) : QueryEdit Unit :=
  modifyContainer container fun c => { c with links := c.links ++ [link] }

/-- Record that the matches of an item are stored in a result container. -/
def addCachedItem (container : ContainerId) (item source : String) : QueryEdit Unit := do
  if item = "" then refuseArgument .emptyCachedName
  let owner ← (← get).container container
  if owner.cached.contains item then refuseState (.alreadyCached item)
  modifyContainer container fun c => { c with cached := c.cached.insert item source }

/-- Empty the slot of an item and return it as one that belongs to no query. -/
def takeItem (i : ItemId) : QueryEdit Item := do
  let item ← (← get).item i
  modify fun q => { q with items := q.items.erase i.index }
  return { item with container := none }

/-- Remove an edge from its container and from its ends. -/
def removeEdge (edge : ItemId) : QueryEdit Item := do
  let item ← (← get).item edge
  let ends ← (← get).edgeEnds edge
  match item.container with
  | none => refuseState .edgeWithoutContainer
  | some container =>
    modifyContainer container fun c => { c with edges := c.edges.filter (· ≠ edge) }
    [ends.source, ends.target].reduceOption.forM fun vertex => do
      if (← get).hasItem vertex then modifyItem vertex (Item.detach edge)
    takeItem edge

/-- Remove a vertex at which no edge ends. -/
def removeVertex (vertex : ItemId) : QueryEdit Item := do
  let edges ← (← get).vertexEdges vertex
  let item ← (← get).item vertex
  if !edges.isEmpty then refuseState (.vertexHasEdges item.joinedName edges.length)
  match item.container with
  | none => refuseState .vertexWithoutContainer
  | some container =>
    modifyContainer container fun c => { c with vertices := c.vertices.filter (· ≠ vertex) }
    takeItem vertex

/-- Put an item at the first place of another one. -/
def replaceFirst (old new : ItemId) : List ItemId → List ItemId
  | [] => []
  | i :: is => if i = old then new :: is else i :: replaceFirst old new is

/-- Put a vertex in the place of another one, with its edges. -/
def replaceVertex (current : ItemId) (replacement : Item) : QueryEdit ItemId := do
  if !replacement.isVertex then refuseArgument (.replacementNotAVertex replacement.joinedName)
  checkDetached replacement
  let edges ← (← get).vertexEdges current
  match (← (← get).item current).container with
  | none => refuseState .vertexWithoutContainer
  | some container =>
    (← get).checkNames replacement.names (some current)
    let _ ← takeItem current
    let id ← register replacement container
    modifyContainer container fun c => { c with vertices := replaceFirst current id c.vertices }
    edges.forM fun edge => do
      modifyItem edge (Item.mapEnds fun e => e.redirect current id)
      modifyItem id (Item.attach edge)
    return id

/-- Remove a subquery that owns nothing; its constraints, derived links and cached items go with
it. -/
def removeSubquery (subquery : ContainerId) : QueryEdit Container := do
  let container ← (← get).container subquery
  match container.parent? with
  | none => refuseArgument .rootRemoval
  | some parent =>
    if !container.isEmpty then refuseState (.subqueryNotEmpty subquery)
    modifyContainer parent fun c => { c with subqueries := c.subqueries.filter (· ≠ subquery) }
    modify fun q => { q with containers := q.containers.erase subquery.index }
    return container

/-- Take the first element that satisfies a predicate out of a list. -/
def takeFirst {α : Type} (p : α → Bool) : List α → Option (α × List α)
  | [] => none
  | a :: as => if p a then some (a, as) else (takeFirst p as).map fun (b, bs) => (b, a :: bs)

/-- Change the first live container, by number, that a partial change applies to. -/
def updateFirst {α : Type} (change : Container → Option (α × Container)) :
    QueryEdit (Option α) := do
  let q ← get
  match q.containers.indexed.findSome? fun e => (change e.2).map (e.1, ·) with
  | none => return none
  | some (index, a, container) =>
    set { q with containers := q.containers.modify index fun _ => container }
    return some a

/-- Remove the first constraint that states the given relation, from whichever container declares
it. -/
def removeConstraint (constraint : Constraint) : QueryEdit Constraint := do
  let removed ← updateFirst fun c =>
    (takeFirst constraint.sameRelation c.constraints).map fun (found, rest) =>
      (found, { c with constraints := rest })
  match removed with
  | some found => return found
  | none => refuseState (.unknownConstraint constraint.text)

/-- Remove the first equal request for derived links, from whichever container declares it. -/
def removeDerivedLink (link : DerivedLink) : QueryEdit DerivedLink := do
  let removed ← updateFirst fun c =>
    (takeFirst (· = link) c.links).map fun (found, rest) => (found, { c with links := rest })
  match removed with
  | some found => return found
  | none => refuseState (.unknownDerivedLink link.text)

/-- Remove the entry of a cached item from the first container that has one, and return the name
of the result container. -/
def removeCachedItem (item : String) : QueryEdit String := do
  let removed ← updateFirst fun c =>
    (c.cached.find? item).map fun source => (source, { c with cached := c.cached.erase item })
  match removed with
  | some source => return source
  | none => refuseState (.notCached item)

/-- Remove an edge, move every other edge of one of its ends to the other end, and remove the
vertex so emptied. An edge that joined the same two vertices becomes a self-loop; every moved edge
stays in its own container. -/
def absorb (edge absorbed : ItemId) : QueryEdit Unit := do
  let ends ← (← get).edgeEnds edge
  let name := (← (← get).item edge).joinedName
  match ends.opposite? absorbed with
  | none => refuseArgument (.notAnEndpoint absorbed name)
  | some kept =>
    if kept = absorbed then refuseArgument (.selfLoopAbsorption name)
    let _ ← removeEdge edge
    let moved ← (← get).vertexEdges absorbed
    moved.forM fun other => do
      modifyItem other (Item.mapEnds fun e => e.redirect absorbed kept)
      modifyItem kept (Item.attach other)
    moved.forM fun other => modifyItem absorbed (Item.detach other)
    let _ ← removeVertex absorbed

/-- Add names, which no other item may have, to a composite vertex. -/
def addNames (target : ItemId) (names : List String) : QueryEdit Unit := do
  let candidate ← Item.newComposite names
  (← get).checkNames candidate.names (some target)
  let renamed ← (← (← get).item target).withNames names
  modifyItem target fun _ => renamed

/-- Move the members of a subquery into its parent and remove it. Where both cache an item, the
parent's entry stays. -/
def flatten (subquery : ContainerId) : QueryEdit Unit := do
  let inner ← (← get).container subquery
  match inner.parent? with
  | none => refuseArgument .rootFlattening
  | some parent =>
    modifyContainer subquery fun _ => Container.bare inner.kind
    (inner.vertices ++ inner.edges).forM fun i =>
      modifyItem i fun item => { item with container := some parent }
    inner.subqueries.forM fun nested => modifyContainer nested (Container.reparent parent)
    modifyContainer parent fun c =>
      { c with
        vertices := c.vertices ++ inner.vertices
        edges := c.edges ++ inner.edges
        subqueries := c.subqueries ++ inner.subqueries
        constraints := c.constraints ++ inner.constraints
        links := c.links ++ inner.links
        cached := inner.cached.entries.foldl (fun m e => m.insertNew e.1 e.2) c.cached }
    let _ ← removeSubquery subquery

/-- Replace the annotation of an item. -/
def setBounds (i : ItemId) (bounds : Option Annotation) : QueryEdit Unit :=
  modifyItem i fun item => { item with bounds := bounds }

/-- Replace the provenance marker of an item. -/
def setProvenance (i : ItemId) (marker : Option Provenance) : QueryEdit Unit := do
  let marked ← (← (← get).item i).withProvenance marker
  modifyItem i fun _ => marked

end Query

end GraphPattern
