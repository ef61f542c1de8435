import GraphPattern.Proofs.Query.History
import GraphPattern.Proofs.Store.Tables

/-!
# The order of cached entries

A container lists its cached entries in the order of their names. Every edit leaves them so, since
it enters and drops them one at a time.
-/

namespace GraphPattern

namespace OrderedMap

variable {κ α : Type} [DecidableEq κ]

/-- The keys come in strictly increasing order. -/
def Increasing [LT κ] (m : OrderedMap κ α) : Prop := m.keys.Pairwise (· < ·)

theorem Increasing.erase [LT κ] {m : OrderedMap κ α} (h : m.Increasing) (k : κ) :
    (m.erase k).Increasing := by
  rw [Increasing,keys_erase]
  exact h.filter _

variable [LT κ] [DecidableLT κ] [Trans (fun a b : κ => a < b) (fun a b => a < b) (fun a b => a < b)]
variable [Std.Trichotomous fun a b : κ => a < b] {m : OrderedMap κ α}

theorem Increasing.insert (h : m.Increasing) (k : κ) (a : α) : (m.insert k a).Increasing := by
  rw [Increasing,keys_insert]
  exact pairwise_insertOrdered h

theorem Increasing.insertNew (h : m.Increasing) (k : κ) (a : α) : (m.insertNew k a).Increasing := by
  rw [OrderedMap.insertNew]
  split
  · exact h
  · exact h.insert k a

end OrderedMap

namespace Query

open Step

variable {α : Type} {q : Query}

/-- The cached entries of every container stand in the order of their names. -/
def Shelved (q : Query) : Prop := ∀ c C, q.container? c = some C → C.cached.Increasing

/-- The step leaves the cached entries in order. -/
abbrev KeepsShelved (x : QueryEdit α) : Prop := Keeps Shelved (fun _ => True) x

theorem shelved_bare (name description : String) : (bare name description).Shelved :=
  fun c C hC => by
    obtain ⟨-,rfl⟩ := container?_bare hC
    exact .nil

theorem Shelved.mapContainer (h : q.Shelved) (c : ContainerId) {f : Container → Container}
    (hf : ∀ C : Container, C.cached.Increasing → (f C).cached.Increasing) :
    (q.mapContainer c f).Shelved := fun d D hD => by
  rw [container?_mapContainer] at hD
  split at hD
  · obtain ⟨C,hC,rfl⟩ := Option.map_eq_some_iff.mp hD
    exact hf C (h d C hC)
  · exact h d D hD

theorem Shelved.pushContainer (h : q.Shelved) {C : Container} (hC : C.cached.Increasing) :
    (q.pushContainer C).Shelved := fun d D hD => by
  rw [container?_pushContainer] at hD
  split at hD
  · cases hD
    exact hC
  · exact h d D hD

theorem Shelved.dropContainer (h : q.Shelved) (c : ContainerId) : (q.dropContainer c).Shelved :=
  fun d D hD => by
    rw [container?_dropContainer] at hD
    split at hD
    · cases hD
    · exact h d D hD

/-! ## Parts of edits -/

/-- What begins with a look at the query and goes on with the answer. -/
theorem keepsShelved_look {β : Type} {question : Query → Except Error β} {next : β → QueryEdit α}
    (h : ∀ b, KeepsShelved (next b)) :
    KeepsShelved (do let q ← get; let b ← liftM (question q); next b) :=
  Keeps.get.bind fun _ _ => (Keeps.lift (Q:=fun _ => True) fun _ _ => trivial).bind fun b _ => h b

theorem keepsShelved_ignored {x : QueryEdit α} (h : KeepsShelved x) :
    KeepsShelved (do let _ ← x : QueryEdit Unit) := h.bind fun _ _ => .pure trivial

theorem keepsShelved_unless {β : Type} {p : Prop} [Decidable p] {x : QueryEdit β} {next : QueryEdit α}
    (hx : KeepsShelved x) (h : KeepsShelved next) :
    KeepsShelved (if p then do let _ ← x; next else next) := by
  split
  · exact hx.bind fun _ _ => h
  · exact h

theorem keepsShelved_modifyItem (i : ItemId) (f : Item → Item) : KeepsShelved (modifyItem i f) :=
  keepsShelved_look fun _ => .modify fun _ h => h

theorem keepsShelved_modifyContainer (c : ContainerId) {f : Container → Container}
    (hf : ∀ C : Container, C.cached.Increasing → (f C).cached.Increasing) :
    KeepsShelved (modifyContainer c f) :=
  keepsShelved_look fun _ => .modify fun _ h => h.mapContainer c hf

theorem keepsShelved_register (x : Item) (c : ContainerId) : KeepsShelved (register x c) :=
  fun q _ _ h hx => by
    cases hx
    exact ⟨h,trivial⟩

theorem keepsShelved_takeItem (i : ItemId) : KeepsShelved (takeItem i) :=
  keepsShelved_look fun _ => Keeps.bind (.modify fun _ h => h) fun _ _ => .pure trivial

theorem keepsShelved_checkDetached (x : Item) :
    KeepsShelved (liftM (checkDetached x) : QueryEdit Unit) := .lift fun _ _ => trivial

theorem keepsShelved_removeEdge (e : ItemId) : KeepsShelved (removeEdge e) := by
  refine keepsShelved_look fun x => keepsShelved_look fun ends => ?_
  split
  · exact .throw _
  · refine Keeps.bind (keepsShelved_modifyContainer _ fun _ h => h) fun _ _ => ?_
    refine (Keeps.forM fun v _ => Keeps.get.bind fun q _ => ?_).bind fun _ _ => keepsShelved_takeItem e
    split
    · exact keepsShelved_modifyItem v _
    · exact .pure trivial

theorem keepsShelved_removeVertex (v : ItemId) : KeepsShelved (removeVertex v) := by
  refine keepsShelved_look fun edges => keepsShelved_look fun x => ?_
  refine keepsShelved_unless (.throw _) ?_
  split
  · exact .throw _
  · exact Keeps.bind (keepsShelved_modifyContainer _ fun _ h => h) fun _ _ => keepsShelved_takeItem v

theorem keepsShelved_moveEdges (old new : ItemId) (edges : List ItemId) :
    KeepsShelved (edges.forM fun edge => do
      modifyItem edge (Item.mapEnds fun e => e.redirect old new)
      modifyItem new (Item.attach edge)) :=
  .forM fun _ _ => Keeps.bind (keepsShelved_modifyItem _ _) fun _ _ => keepsShelved_modifyItem _ _

theorem increasing_foldl_insertNew (es : List (String × String)) {m : OrderedMap String String}
    (h : m.Increasing) : (es.foldl (fun m e => m.insertNew e.1 e.2) m).Increasing := by
  induction es generalizing m with
  | nil => exact h
  | cons e es ih => exact ih (h.insertNew e.1 e.2)

/-! ## Edits -/

theorem keepsShelved_addVertex (c : ContainerId) (v : Item) : KeepsShelved (addVertex c v) := by
  have hadd : KeepsShelved (do
      checkDetached v
      let _ ← (← get).container c
      (← get).checkNames v.names none
      let id ← register v c
      modifyContainer c fun c => { c with vertices := c.vertices ++ [id] }
      return id) :=
    (keepsShelved_checkDetached v).bind fun _ _ => keepsShelved_look fun _ =>
      keepsShelved_look fun _ => (keepsShelved_register v c).bind fun _ _ =>
        Keeps.bind (keepsShelved_modifyContainer c fun _ h => h) fun _ _ => .pure trivial
  rw [addVertex]
  split
  · exact (Keeps.throw (Q:=fun _ => True) _).bind fun _ _ => hadd
  · exact keepsShelved_unless (.throw _) hadd

theorem keepsShelved_addEdge (c : ContainerId) (e : Item) : KeepsShelved (addEdge c e) := by
  rw [addEdge]
  split
  · exact .throw _
  · refine (keepsShelved_checkDetached e).bind fun _ _ => keepsShelved_look fun _ =>
      keepsShelved_look fun _ => Keeps.get.bind fun _ _ => Keeps.get.bind fun _ _ =>
        (keepsShelved_register _ c).bind fun _ _ => ?_
    exact (Keeps.forM fun _ _ => keepsShelved_modifyItem _ _).bind fun _ _ =>
      Keeps.bind (keepsShelved_modifyContainer c fun _ h => h) fun _ _ => .pure trivial

theorem keepsShelved_addSubquery (p : ContainerId) (bounds : Option Annotation) :
    KeepsShelved (addSubquery p bounds) :=
  keepsShelved_look fun _ => Keeps.get.bind fun q hq =>
    Keeps.bind (Q:=fun _ => True) (fun _ _ _ _ hx => by
      cases hx
      exact ⟨hq.pushContainer .nil,trivial⟩) fun _ _ =>
        Keeps.bind (keepsShelved_modifyContainer p fun _ h => h) fun _ _ => .pure trivial

theorem keepsShelved_addCachedItem (c : ContainerId) (item source : String) :
    KeepsShelved (addCachedItem c item source) := by
  refine keepsShelved_unless (.throw _) ?_
  refine keepsShelved_look fun owner => keepsShelved_unless (.throw _) ?_
  exact keepsShelved_modifyContainer c fun _ h => h.insert item source

theorem keepsShelved_removeSubquery (s : ContainerId) : KeepsShelved (removeSubquery s) := by
  refine keepsShelved_look fun C => ?_
  split
  · exact .throw _
  · refine keepsShelved_unless (.throw _) ?_
    exact Keeps.bind (keepsShelved_modifyContainer _ fun _ h => h) fun _ _ =>
      Keeps.bind (.modify fun _ h => h.dropContainer s) fun _ _ => .pure trivial

theorem keepsShelved_removeConstraint (k : Constraint) : KeepsShelved (removeConstraint k) :=
  fun q _ _ h hx => by
    obtain ⟨c,C,_,_,hC,-,hq⟩ := not_refused ((removeConstraint_cases q k).imp_left And.left) hx
    rw [hq] at hx
    cases hx
    exact ⟨h.mapContainer c fun _ _ => h c C hC,trivial⟩

theorem keepsShelved_removeDerivedLink (l : DerivedLink) : KeepsShelved (removeDerivedLink l) :=
  fun q _ _ h hx => by
    obtain ⟨c,C,_,_,hC,-,hq⟩ := not_refused (removeDerivedLink_cases q l) hx
    rw [hq] at hx
    cases hx
    exact ⟨h.mapContainer c fun _ _ => h c C hC,trivial⟩

theorem keepsShelved_removeCachedItem (item : String) : KeepsShelved (removeCachedItem item) :=
  fun q _ _ h hx => by
    obtain ⟨c,C,_,hC,-,hq⟩ := not_refused (removeCachedItem_cases q item) hx
    rw [hq] at hx
    cases hx
    exact ⟨h.mapContainer c fun _ _ => (h c C hC).erase item,trivial⟩

theorem keepsShelved_replaceVertex (i : ItemId) (v : Item) : KeepsShelved (replaceVertex i v) := by
  refine keepsShelved_unless (.throw _) ?_
  refine (keepsShelved_checkDetached v).bind fun _ _ => keepsShelved_look fun edges =>
    keepsShelved_look fun x => ?_
  split
  · exact .throw _
  · exact keepsShelved_look fun _ => (keepsShelved_takeItem i).bind fun _ _ =>
      (keepsShelved_register v _).bind fun id _ =>
        Keeps.bind (keepsShelved_modifyContainer _ fun _ h => h) fun _ _ =>
          (keepsShelved_moveEdges i id edges).bind fun _ _ => .pure trivial

theorem keepsShelved_absorb (e old : ItemId) : KeepsShelved (absorb e old) := by
  refine keepsShelved_look fun ends => keepsShelved_look fun x => ?_
  split
  · exact .throw _
  · rename_i kept _
    exact keepsShelved_unless (.throw _) <| (keepsShelved_removeEdge e).bind fun _ _ =>
      keepsShelved_look fun moved => (keepsShelved_moveEdges old kept moved).bind fun _ _ =>
        (Keeps.forM fun _ _ => keepsShelved_modifyItem old _).bind fun _ _ =>
          keepsShelved_ignored (keepsShelved_removeVertex old)

theorem keepsShelved_addNames (i : ItemId) (names : List String) :
    KeepsShelved (addNames i names) :=
  (Keeps.lift (Q:=fun _ => True) fun _ _ => trivial).bind fun _ _ => keepsShelved_look fun _ =>
    keepsShelved_look fun _ => (Keeps.lift (Q:=fun _ => True) fun _ _ => trivial).bind fun _ _ =>
      keepsShelved_modifyItem i _

theorem cached_reparent (p : ContainerId) (C : Container) : (C.reparent p).cached = C.cached := by
  rw [Container.reparent]
  split <;> rfl

theorem keepsShelved_flatten (s : ContainerId) : KeepsShelved (flatten s) := by
  refine keepsShelved_look fun S => ?_
  split
  · exact .throw _
  · exact Keeps.bind (keepsShelved_modifyContainer s fun _ _ => .nil) fun _ _ =>
      (Keeps.forM fun i _ => keepsShelved_modifyItem i _).bind fun _ _ =>
        Keeps.bind (.forM fun c _ => keepsShelved_modifyContainer c fun C h => by
          rwa [cached_reparent]) fun _ _ =>
          Keeps.bind (keepsShelved_modifyContainer _ fun _ h =>
            increasing_foldl_insertNew S.cached.entries h) fun _ _ =>
              keepsShelved_ignored (keepsShelved_removeSubquery s)

theorem keepsShelved_setProvenance (i : ItemId) (marker : Option Provenance) :
    KeepsShelved (setProvenance i marker) :=
  keepsShelved_look fun _ => (Keeps.lift (Q:=fun _ => True) fun _ _ => trivial).bind fun _ _ =>
    keepsShelved_modifyItem i _

/-- An edit that is made leaves the cached entries in order. -/
theorem keepsShelved_run (e : Edit) : KeepsShelved e.run := by
  cases e with
  | addVertex c v => exact keepsShelved_ignored (keepsShelved_addVertex c v.1)
  | addEdge c e => exact keepsShelved_ignored (keepsShelved_addEdge c e.1)
  | addSubquery p bounds => exact keepsShelved_ignored (keepsShelved_addSubquery p bounds)
  | addConstraint c k => exact Keeps.get.bind fun _ _ => keepsShelved_modifyContainer c fun _ h => h
  | addDerivedLink c l => exact keepsShelved_modifyContainer c fun _ h => h
  | addCachedItem c item source => exact keepsShelved_addCachedItem c item source
  | removeEdge e => exact keepsShelved_ignored (keepsShelved_removeEdge e)
  | removeVertex v => exact keepsShelved_ignored (keepsShelved_removeVertex v)
  | removeSubquery s => exact keepsShelved_ignored (keepsShelved_removeSubquery s)
  | removeConstraint k => exact keepsShelved_ignored (keepsShelved_removeConstraint k)
  | removeDerivedLink l => exact keepsShelved_ignored (keepsShelved_removeDerivedLink l)
  | removeCachedItem item => exact keepsShelved_ignored (keepsShelved_removeCachedItem item)
  | replaceVertex i v => exact keepsShelved_ignored (keepsShelved_replaceVertex i v.1)
  | absorb e old => exact keepsShelved_absorb e old
  | addNames i names => exact keepsShelved_addNames i names
  | flatten s => exact keepsShelved_flatten s
  | setBounds i bounds => exact keepsShelved_modifyItem i _
  | setProvenance i marker => exact keepsShelved_setProvenance i marker

/-- One edit, whether it is made or refused, leaves the cached entries in order. -/
theorem Shelved.after (hs : q.Shelved) (h : q.WellFormed) (e : Edit) : (e.after q).Shelved := by
  rcases h.run_cases e with hr|⟨q',hq,-⟩
  · rwa [after_of_refuses hr]
  · rw [after_of_ok hq]
    exact (keepsShelved_run e _ _ _ hs hq).1

/-- A history of edits leaves the cached entries in order. -/
theorem Shelved.edited (hs : q.Shelved) (h : q.WellFormed) (es : List Edit) :
    (q.edited es).Shelved := by
  induction es generalizing q with
  | nil => exact hs
  | cons e es ih => exact ih (hs.after h e) (h.after e).1

end Query

end GraphPattern
