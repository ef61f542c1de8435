import GraphPattern.Proofs.Atomic
import GraphPattern.Proofs.Query.History

/-!
# Refused edits

An edit that takes several steps could fail between two of them. On a well-formed query it does not:
whatever could stop it, it has looked for before its first change. The queries that edits lead to
are well formed, also if items are put in that were copied from a query or taken out of one.
-/

namespace GraphPattern

open Step

mutual

/-- The queries that come about by edits, successful or refused, from one that is new. Whatever item
is at hand may be put in. -/
inductive Query.Reachable : Query → Prop
  /-- A new query. -/
  | bare (name description : String) : Query.Reachable (.bare name description)
  /-- An edit is made. -/
  | edit {q : Query} (e : Edit) : Query.Reachable q → Query.Reachable (e.after q)
  /-- A vertex is added. -/
  | addVertex {q : Query} {x : Item} (c : ContainerId) : Query.Reachable q → Item.Obtained x →
    Query.Reachable (Step.after (Query.addVertex c x) q)
  /-- An edge is added. -/
  | addEdge {q : Query} {x : Item} (c : ContainerId) : Query.Reachable q → Item.Obtained x →
    Query.Reachable (Step.after (Query.addEdge c x) q)
  /-- A vertex is replaced. -/
  | replaceVertex {q : Query} {x : Item} (i : ItemId) : Query.Reachable q → Item.Obtained x →
    Query.Reachable (Step.after (Query.replaceVertex i x) q)

/-- The items that can be at hand: new ones, copies of those in a query and those that were taken
out of a query, also with another condition, annotation or marker. -/
inductive Item.Obtained : Item → Prop
  /-- A new item. -/
  | made {x : Item} : x.Made → Item.Obtained x
  /-- A copy of an item in a query. -/
  | copied {q : Query} {i : ItemId} {x : Item} : Query.Reachable q → q.item? i = some x →
    Item.Obtained x
  /-- An edge that was removed. -/
  | removedEdge {q q' : Query} {e : ItemId} {x : Item} : Query.Reachable q →
    Query.removeEdge e q = .ok x q' → Item.Obtained x
  /-- A vertex that was removed. -/
  | removedVertex {q q' : Query} {v : ItemId} {x : Item} : Query.Reachable q →
    Query.removeVertex v q = .ok x q' → Item.Obtained x
  /-- With another condition. -/
  | condition {x : Item} (condition : Option Condition) : Item.Obtained x →
    Item.Obtained { x with condition := condition }
  /-- With another annotation. -/
  | bounds {x : Item} (bounds : Option Annotation) : Item.Obtained x →
    Item.Obtained { x with bounds := bounds }
  /-- With another marker. -/
  | provenance {x y : Item} {marker : Option Provenance} : Item.Obtained x →
    x.withProvenance marker = .ok y → Item.Obtained y

end

/-- What an item brings along wherever it comes from. -/
structure Item.Fit (x : Item) : Prop where
  /-- It is well named. -/
  named : x.WellNamed
  /-- If it belongs to no query, no edge ends at it. -/
  edges : x.container = none → x.isVertex = true → x.edges? = some []

theorem Item.Fit.of_same {x y : Item} (h : x.Fit) (hn : y.names = x.names) (hb : y.body = x.body)
    (hc : y.container = x.container) : y.Fit := by
  have hk : y.isComposite = x.isComposite := by
    rw [Item.isComposite,Item.isComposite,Item.kind,Item.kind,hb]
  refine ⟨h.named.of_same hn hk,fun ho hv => ?_⟩
  rw [Item.edges?,hb]
  exact h.edges (hc ▸ ho) (by rwa [Item.isVertex,hb] at hv)

theorem Item.Fit.withProvenance {x y : Item} {marker : Option Provenance} (h : x.Fit)
    (hy : x.withProvenance marker = .ok y) : y.Fit := by
  obtain ⟨-,rfl⟩ := Query.withProvenance_eq_ok.mp hy
  exact h.of_same rfl rfl rfl

namespace Query

variable {q q' : Query} {x : Item}

theorem WellFormed.addVertex (h : q.WellFormed) (c : ContainerId) (hx : x.Fit) :
    (Step.after (Query.addVertex c x) q).WellFormed := by
  rcases addVertex_cases q c x with ⟨e,hr⟩|⟨C,he,ho,hc,hf⟩
  · rwa [Step.after,hr]
  · rw [Step.after_of_ok (addVertex_ok he ho hc hf)]
    exact h.withVertex he hx.named hc hf

theorem WellFormed.addEdge (h : q.WellFormed) (c : ContainerId) (hx : x.Fit) :
    (Step.after (Query.addEdge c x) q).WellFormed := by
  rcases addEdge_cases q c x with ⟨e,hr⟩|⟨ends,C,he,ho,hc,hf⟩
  · rwa [Step.after,hr]
  · rw [Step.after_of_ok (addEdge_ok he ho hc hf)]
    exact h.withEdge he hx.named hc hf

theorem WellFormed.replaceVertex (h : q.WellFormed) (i : ItemId) (hx : x.Fit) :
    (Step.after (Query.replaceVertex i x) q).WellFormed := by
  rcases replaceVertex_cases h i x with ⟨e,hr⟩|⟨y,edges,c,hv,ho,hy,he,hc,hf⟩
  · rwa [Step.after,hr]
  · rw [Step.after_of_ok (replaceVertex_ok h hv ho hy he hc hf)]
    exact h.withReplaced (hx.edges ho hv) hx.named hy he hc hf

/-- An item in a query has an owner. -/
theorem WellFormed.fit (h : q.WellFormed) {i : ItemId} (hx : q.item? i = some x) : x.Fit := by
  obtain ⟨c,C,hc,-⟩ := h.owner hx
  refine ⟨h.named.named hx,fun ho => ?_⟩
  rw [hc] at ho
  cases ho

theorem WellFormed.fit_of_removeEdge (h : q.WellFormed) {e : ItemId}
    (hr : Query.removeEdge e q = .ok x q') : x.Fit := by
  obtain ⟨y,ends,c,hy,hends,hc⟩ := not_refused (removeEdge_cases h e) hr
  rw [removeEdge_ok h hy hends hc] at hr
  cases hr
  refine ⟨(h.named.named hy).of_same rfl rfl,fun _ hv => ?_⟩
  -- What has ends is not a vertex.
  cases hb : y.body with
  | vertex composite edges => simp [Item.ends?,hb] at hends
  | edge ends => simp [Item.isVertex,hb] at hv

theorem WellFormed.fit_of_removeVertex (h : q.WellFormed) {v : ItemId}
    (hr : Query.removeVertex v q = .ok x q') : x.Fit := by
  obtain ⟨y,c,hy,hedges,hc⟩ := not_refused (removeVertex_cases h v) hr
  rw [removeVertex_ok h hy hedges hc] at hr
  cases hr
  exact ⟨(h.named.named hy).of_same rfl rfl,fun _ _ => hedges⟩

/-- An edit of a well-formed query fails before its first change or not at all. -/
theorem WellFormed.atomic_run (h : q.WellFormed) (e : Edit) : Atomic e.run q := by
  rcases h.run_cases e with hr|⟨q',hq,-⟩
  · exact .of_refuses hr
  · exact .of_ok hq

theorem atomic_addVertex (q : Query) (c : ContainerId) (x : Item) :
    Atomic (Query.addVertex c x) q := by
  rcases addVertex_cases q c x with hr|⟨C,he,ho,hc,hf⟩
  · exact .of_refuses hr
  · exact .of_ok (addVertex_ok he ho hc hf)

theorem atomic_addEdge (q : Query) (c : ContainerId) (x : Item) :
    Atomic (Query.addEdge c x) q := by
  rcases addEdge_cases q c x with hr|⟨ends,C,he,ho,hc,hf⟩
  · exact .of_refuses hr
  · exact .of_ok (addEdge_ok he ho hc hf)

theorem WellFormed.atomic_replaceVertex (h : q.WellFormed) (i : ItemId) (x : Item) :
    Atomic (Query.replaceVertex i x) q := by
  rcases replaceVertex_cases h i x with hr|⟨y,edges,c,hv,ho,hy,he,hc,hf⟩
  · exact .of_refuses hr
  · exact .of_ok (replaceVertex_ok h hv ho hy he hc hf)

end Query

/-- Edits lead to well-formed queries only. The induction is on both kinds of derivations at once: an
item at hand can be put into a query if it belongs to none. -/
theorem Query.Reachable.wellFormed {q : Query} (h : q.Reachable) : q.WellFormed := by
  refine @Query.Reachable.rec (fun q _ => q.WellFormed) (fun x _ => x.Fit) ?bare ?edit ?addVertex
    ?addEdge ?replaceVertex ?made ?copied ?removedEdge ?removedVertex ?condition ?bounds ?provenance
    q h
  case bare => exact Query.wellFormed_bare
  case edit => exact fun e _ hq => (hq.after e).1
  case addVertex => exact fun c _ _ hq hx => hq.addVertex c hx
  case addEdge => exact fun c _ _ hq hx => hq.addEdge c hx
  case replaceVertex => exact fun i _ _ hq hx => hq.replaceVertex i hx
  case made => exact fun h => ⟨h.detached.named,fun _ => h.detached.edges⟩
  case copied => exact fun _ hx hq => hq.fit hx
  case removedEdge => exact fun _ hr hq => hq.fit_of_removeEdge hr
  case removedVertex => exact fun _ hr hq => hq.fit_of_removeVertex hr
  case condition => exact fun _ _ hx => hx.of_same rfl rfl rfl
  case bounds => exact fun _ _ hx => hx.of_same rfl rfl rfl
  case provenance => exact fun _ hy hx => hx.withProvenance hy

namespace Query

theorem Reachable.edited {q : Query} (h : q.Reachable) (es : List Edit) :
    (q.edited es).Reachable := by
  induction es generalizing q with
  | nil => exact h
  | cons e es ih => exact ih (h.edit e)

/-- An edit that a query refuses, for whatever arguments, leaves it as it was, with the numbers that
the next item and the next container get. The items that are put in may be any, also such as never
come about. -/
theorem unchanged_of_refused {q : Query} (h : q.Reachable) :
    (∀ e : Edit, Atomic e.run q) ∧ (∀ c x, Atomic (addVertex c x) q) ∧
    (∀ c x, Atomic (addEdge c x) q) ∧ ∀ i x, Atomic (replaceVertex i x) q :=
  ⟨h.wellFormed.atomic_run,atomic_addVertex q,atomic_addEdge q,
    h.wellFormed.atomic_replaceVertex⟩

/-- A vertex with a self-loop. -/
def looped : Query := (bare "q" "").edited
  [.addVertex .root ⟨.bare ["V"] (.vertex false []),@Item.Made.vertex "V" _ rfl⟩,
    .addEdge .root ⟨.bare ["e"] (.edge ⟨none,none,"V","V",true⟩),
      @Item.Made.edge "e" "V" "V" true _ rfl⟩]

/-- A self-loop cannot absorb its vertex, and it stays in its place. -/
theorem unchanged_of_refused_looped : looped.Reachable ∧ ∃ e q',
    absorb ⟨1⟩ ⟨0⟩ looped = .error e q' ∧ q' = looped := by
  have hl : looped.Reachable := (Reachable.bare "q" "").edited _
  have h : absorb ⟨1⟩ ⟨0⟩ looped = .error (.argument (.selfLoopAbsorption "e")) looped := rfl
  exact ⟨hl,_,_,h,(unchanged_of_refused hl).1 (.absorb ⟨1⟩ ⟨0⟩) _ _ h⟩

end Query

end GraphPattern
