import GraphPattern.Proofs.Custody.Closing
import GraphPattern.Proofs.Rule.Replay
import GraphPattern.Rule.BuiltIn

/-!
# What replays leave behind

Replaying a reduction leaves the tables of the registry and no other one, in whatever way it ends,
but for one case: two rules keep the tables of their result before they learn that an entry of its
name exists. Nothing is asked of the reduction or of the contents of tables.
-/

namespace GraphPattern

open Step Workspace

variable {α β : Type} {w : Workspace} {F : TableId → Prop} {leak : Option String}
  {name : String}

/-! ## Questions -/

/-- A question whose answers and refusals do not speak of entries. -/
def Asks (x : Except Error α) : Prop := ∀ e, x = .error e → e.Unclashed

theorem Asks.bind {x : Except Error α} {f : α → Except Error β} (hx : Asks x)
    (hf : ∀ a, Asks (f a)) : Asks (x >>= f) := fun e he => by
  cases x with
  | error e' => exact hx e (by cases he; rfl)
  | ok a => exact hf a e he

theorem Asks.ok (a : α) : Asks (.ok a : Except Error α) := nofun

theorem asks_item (a : Application) (n : Nat) : Asks (a.item n) := fun e he => by
  rw [Application.item] at he
  split at he
  · cases he
  · cases he
    exact fun _ hn => by cases hn

theorem asks_settled (a : Application) : Asks a.settled := fun e he => by
  rw [Application.settled] at he
  split at he
  · cases he
  · cases he
    exact fun _ hn => by cases hn

theorem Query.asks_item (q : Query) (i : ItemId) : Asks (q.item i) := fun e he => by
  rw [Query.item] at he
  split at he
  · cases he
  · cases he
    exact fun _ hn => by cases hn

theorem asks_replayedEdge (r : Replay) (n : Nat) : Asks (Rule.replayedEdge r n) :=
  (asks_item _ _).bind fun i => (Query.asks_item _ _).bind fun edge => by
    split
    · exact .ok _
    · intro e he
      cases he
      exact fun _ hn => by cases hn

/-! ## Making scratch tables -/

namespace Workspace

theorem Drafts.asked {x : Except Error α} (hx : Asks x) : Drafts F (liftM x : WorkStep α) :=
  .ask hx

theorem drafts_vertexTables (q : Query) (v : ItemId) : Drafts F (vertexTables q v) :=
  (Drafts.asked (q.asks_item v)).bind fun item => by
    split
    · exact .take _
    · exact (Drafts.temporary (Store.adds_objectMatches _ _)).bind fun _ =>
        (Drafts.temporary (Store.adds_createTable _)).bind fun _ => .pure _

theorem drafts_rowsNamed (rows : TableId) (name : String) : Drafts F (rowsNamed rows name) :=
  .temporary (Store.adds_derive _ _)

theorem drafts_linksAlong (links sources targets : TableId) (near far : String)
    (sameMatch : Bool) : Drafts F (linksAlong links sources targets near far sameMatch) :=
  (Drafts.temporary (Store.adds_join _ _ _ _)).bind fun _ => .temporary (Store.adds_join _ _ _ _)

theorem drafts_linkMatches (edge : Item) (ends : EdgeEnds) (sources targets : TableId)
    (sameMatch : Bool) : Drafts F (linkMatches edge ends sources targets sameMatch) :=
  (Drafts.temporary (Store.adds_matchingLinks _)).bind fun _ =>
    (drafts_linksAlong _ _ _ _ _ _).bind fun _ => by
      split
      · exact .pure _
      · exact (drafts_linksAlong _ _ _ _ _ _).bind fun _ =>
          (Drafts.temporary (Store.adds_union _)).bind fun _ =>
            .temporary (Store.adds_derive _ _)

theorem drafts_joinedPairs (found : TableId) (bounds : Annotation) :
    Drafts F (joinedPairs found bounds) :=
  (Drafts.temporary (Store.adds_derive _ _)).bind fun _ =>
    (Drafts.temporary (Store.adds_derive _ _)).bind fun _ => .temporary (Store.adds_derive _ _)

end Workspace

namespace Rule

/-- A replay leaves the foreign tables that there were, writes at most the named entry, and fails as
is said. -/
abbrev Leaves (name : String) (F : TableId → Prop) (leak : Option String) (x : WorkStep α)
    (w : Workspace) : Prop :=
  Ends x w (fun _ w' => Restores name F w w') (Fails (Restores name) F leak w)

theorem Leaves.asking {x : Except Error α} {f : α → WorkStep β} (hx : Asks x) (hw : w.Custody F)
    (hf : ∀ a, Leaves name F leak (f a) w) :
    Leaves name F leak ((liftM x : WorkStep α) >>= f) w := by
  cases x with
  | ok a => exact hf a
  | error e => exact .of_error rfl (.inl ⟨Error.Unclashed.not_strands (hx e rfl),.refl hw⟩)

/-- A replay works with scratch tables of its own. -/
theorem Leaves.work {x : WorkStep α} {g : α → β} (hw : w.Custody F)
    (h : Closes name (fun i => F i ∨ i ∈ w.scratch) leak x { w with scratch := [] }
      { w with scratch := [] }) : Leaves name F leak (do return g (← withScratch x)) w := by
  have hback : ∀ {G w'}, Settles name G { w with scratch := [] } w' → Settles name G w w' :=
    fun h' => ⟨h'.custody,h'.data,h'.created,h'.registry⟩
  refine (Closes.withScratch w rfl (fun i hi => ⟨hw.scratch hi,
    hw.counted ((hw.live i).mpr (.inr (.inr hi)))⟩) (h.imp (fun _ _ h' => hback h')
      fun _ _ h' => ?_)).bind fun _ _ h' => .of_ok rfl h'
  exact h'.imp (fun h' => ⟨h'.1,hback h'.2⟩) fun ⟨hs,o,l,hne,ho,hl,h'⟩ =>
    ⟨hs,o,l,hne,ho,hl,hback h'⟩

/-- The objects of a vertex become an entry, and if there is one already they are released. -/
theorem GetVertex.closes_put (hw : w.Custody F) {o : TableId} {s : Store}
    (hs : w.store.Added o s) (name : String) :
    Closes name (fun i => F i ∨ i ∈ w.scratch) none (do
      let _ ← track o
      put name o none
      let _ ← keep o) w ⟨s,w.registry,[]⟩ := by
  have hbase : Custody (fun i => F i ∨ i ∈ w.scratch) ⟨s,w.registry,[o]⟩ := by
    have hout : Custody (fun i => (F i ∨ i ∈ w.scratch) ∨ i ∈ [o]) ⟨s,w.registry,[]⟩ :=
      (hw.added hs).untrack.congr fun i => by
        rw [List.mem_singleton]
        exact or_right_comm
    refine hout.track fun i hi => ?_
    rw [List.mem_singleton.mp hi]
    exact hw.untrack.not_foreign hs.fresh
  have hcreated : w.store.created ≤ s.created :=
    Nat.le_trans (Nat.le_of_lt hs.fresh) hs.bounded
  refine Ends.bind (P:=fun _ w' => w' = ⟨s,w.registry,[o]⟩) (.of_ok (a:=o) rfl rfl)
    fun _ w₁ hw₁ => ?_
  subst hw₁
  cases hn : w.registry.find? name with
  | some t =>
    have hput : put name o none ⟨s,w.registry,[o]⟩ =
        .error (.state (.tablesExist name)) ⟨s,w.registry,[o]⟩ := by
      have hc : w.registry.contains name = true := by
        rw [OrderedMap.contains,hn]
        rfl
      simp only [put,bind_apply,get_apply,hc,if_true,refuseState_apply]
    exact .of_error (bind_of_error hput _)
      (.inl ⟨not_strands_none,hbase,hs.data,hcreated,List.subset_cons_self _ _⟩)
  | none =>
    have hc : w.registry.contains name = false := by
      rw [OrderedMap.contains,hn]
      rfl
    obtain ⟨l,s₂,hl,hm⟩ := (createTable_matched s).ok
    have hput : put name o none ⟨s,w.registry,[o]⟩ =
        .ok ⟨⟩ ⟨s₂,w.registry.insert name ⟨o,l⟩,[o]⟩ := by
      simp only [put,bind_apply,get_apply,hc,Bool.false_eq_true,if_false,lift_apply,hl,
        modify_apply]
    have hadded : s.Added l s₂ := (Store.adds_createTable _ s hbase.counted).of_eq hl
    have hne : o ≠ l := fun he => Nat.not_lt_of_le hs.bounded (he ▸ hadded.fresh)
    refine .of_ok (a:=⟨⟩) (t:=⟨s₂,w.registry.insert name ⟨o,l⟩,[o].filter (· ≠ o)⟩)
      (bind_of_ok hput _) ⟨?_,hs.data.trans hadded.data,
        Nat.le_trans hcreated (Nat.le_trans (Nat.le_of_lt hadded.fresh) hadded.bounded),
        keys_insert_subset _ _ _⟩
    refine (((hbase.added hadded).keep (o:=o) List.mem_cons_self).congr fun i => ?_).put
      (t:=⟨o,l⟩) (fun i hi => ?_) hne hn
    · rw [SubgraphTables.ids,List.mem_pair,or_assoc (b:=i = l),or_comm (a:=i = l)]
    · rcases List.mem_pair.mp hi with rfl|rfl
      · exact hw.untrack.not_foreign hs.fresh
      · exact hbase.not_foreign hadded.fresh

theorem GetVertex.leaves_replay (hw : w.Custody F) (r : Replay) :
    Leaves r.result.joinedName F none (GetVertex.replay r) w := by
  refine .asking (asks_item _ _) hw fun v => .asking (Query.asks_item _ _) hw fun vertex => ?_
  refine Ends.bind (P:=fun o w' => ∃ s, w.store.Added o s ∧ w' = { w with store := s })
    (ends_lift ((Store.adds_objectMatches _ _ _ hw.counted).imp (fun _ s hs => ⟨s,hs,rfl⟩)
      fun e s hs => .inl ⟨not_strands_none,⟨hw.spared hs,hs.data,hs.created,
        List.subset_cons_self _ _⟩,rfl⟩))
    fun o w₁ hw₁ => ?_
  obtain ⟨s,hs,rfl⟩ := hw₁
  refine (Closes.withScratch w (w:={ w with store := s }) rfl (fun i hi => ⟨hw.scratch hi,
    hw.counted ((hw.live i).mpr (.inr (.inr hi)))⟩) (closes_put hw hs _)).bind
      fun _ _ h' => .of_ok rfl h'

theorem AbsorbSelfLoop.leaves_replay (hw : w.Custody F) (r : Replay) :
    Leaves r.result.joinedName F leak (AbsorbSelfLoop.replay r) w := by
  refine .asking (asks_item _ _) hw fun v => .asking (asks_replayedEdge _ _) hw fun (edge,ends) => ?_
  refine .work hw ?_
  refine .after (drafts_vertexTables _ _) (.refl hw.untrack) fun current w₁ h₁ => ?_
  refine .after (drafts_rowsNamed _ _) h₁ fun sources w₂ h₂ => ?_
  refine .after (drafts_rowsNamed _ _) h₂ fun targets w₃ h₃ => ?_
  refine .after (drafts_linkMatches _ _ _ _ _) h₃ fun found w₄ h₄ => ?_
  refine .after (.temporary (Store.adds_derive _ _)) h₄ fun kept w₅ h₅ => ?_
  refine .after (.temporary (Store.adds_edgeMatches _ _ _)) h₅ fun loops w₆ h₆ => ?_
  refine .making (Store.adds_join _ _ _ _) h₆ fun o w₇ h₇ _ ho hom _ => ?_
  refine .making (Store.adds_join _ _ _ _) h₇ fun oldLinks w₈ h₈ hsub₈ _ _ _ => ?_
  refine .making (Store.adds_union _) h₈ fun l w₉ h₉ hsub₉ hl hlm hnew => ?_
  exact closes_replace hw.untrack h₉ ho hl (hsub₉ (hsub₈ hom)) hlm fun he => hnew (he ▸ hsub₈ hom)

theorem CollapseEdge.drafts_numberedPairs (edge : Item) (found : TableId) :
    Drafts F (CollapseEdge.numberedPairs edge found) := by
  have hrest : ∀ pairs : TableId, Drafts F (do
      liftM (Store.addRowNumber pairs Column.newMatch)
      return pairs : WorkStep TableId) := fun pairs =>
    (Drafts.store (Store.spares_alter _ _)).bind fun _ => .pure _
  rw [CollapseEdge.numberedPairs]
  cases edge.bounds with
  | none => exact (Drafts.temporary (Store.adds_derive _ _)).bind hrest
  | some bounds => exact (drafts_joinedPairs _ _).bind hrest

theorem CollapseEdge.leaves_replay (hw : w.Custody F) (r : Replay) :
    Leaves r.result.joinedName F (some r.result.joinedName) (CollapseEdge.replay r) w := by
  refine .asking (asks_item _ _) hw fun left => .asking (asks_item _ _) hw fun right =>
    .asking (asks_replayedEdge _ _) hw fun (edge,ends) => ?_
  refine .work hw ?_
  refine .after (drafts_vertexTables _ _) (.refl hw.untrack) fun leftTables w₁ h₁ => ?_
  refine .after (drafts_vertexTables _ _) h₁ fun rightTables w₂ h₂ => ?_
  refine .after (.asked (Query.asks_item _ _)) h₂ fun leftItem w₃ h₃ => ?_
  split
  rename_i source target _
  refine .after (drafts_rowsNamed _ _) h₃ fun sources w₄ h₄ => ?_
  refine .after (drafts_rowsNamed _ _) h₄ fun targets w₅ h₅ => ?_
  refine .after (drafts_linkMatches _ _ _ _ _) h₅ fun found w₆ h₆ => ?_
  refine .after (drafts_numberedPairs _ _) h₆ fun pairs w₇ h₇ => ?_
  refine .after (.temporary (Store.adds_join _ _ _ _)) h₇ fun numbered w₈ h₈ => ?_
  refine .after (.temporary (Store.adds_edgeMatches _ _ _)) h₈ fun edgeRows w₉ h₉ => ?_
  have hmoved : ∀ rows old, Drafts (fun i => F i ∨ i ∈ w.scratch)
      (temporary (Store.moveMatches rows pairs old Column.newMatch)) := fun rows old =>
    .temporary (Store.adds_join _ _ _ _)
  refine .after (hmoved _ _) h₉ fun sourceObjects w₁₀ h₁₀ => ?_
  refine .after (hmoved _ _) h₁₀ fun sourceLinks w₁₁ h₁₁ => ?_
  refine .after (hmoved _ _) h₁₁ fun targetObjects w₁₂ h₁₂ => ?_
  refine .after (hmoved _ _) h₁₂ fun targetLinks w₁₃ h₁₃ => ?_
  refine .making (Store.adds_union _) h₁₃ fun o w₁₄ h₁₄ _ ho hom _ => ?_
  refine .making (Store.adds_union _) h₁₄ fun l w₁₅ h₁₅ hsub hl hlm hnew => ?_
  exact closes_put hw.untrack h₁₅ ho hl (hsub hom) hlm fun he => hnew (he ▸ hom)

theorem AbsorbAnnotatedVertex.drafts_survivors (min : Nat) (pairs objects : TableId)
    (column : String) : Drafts F (AbsorbAnnotatedVertex.survivors min pairs objects column) := by
  rw [AbsorbAnnotatedVertex.survivors]
  split
  · exact (Drafts.temporary (Store.adds_derive _ _)).bind fun _ =>
      (Drafts.temporary (Store.adds_derive _ _)).bind fun _ => .pure _
  · exact (Drafts.temporary (Store.adds_derive _ _)).bind fun _ => .pure _

theorem AbsorbAnnotatedVertex.leaves_replay (hw : w.Custody F) (r : Replay) :
    Leaves r.result.joinedName F (some r.result.joinedName) (AbsorbAnnotatedVertex.replay r) w := by
  refine .asking (asks_item _ _) hw fun keptId => .asking (asks_item _ _) hw fun absorbedId =>
    .asking (asks_replayedEdge _ _) hw fun (edge,ends) =>
      .asking (Query.asks_item _ _) hw fun absorbedItem => ?_
  refine .work hw ?_
  refine .after (drafts_vertexTables _ _) (.refl hw.untrack) fun kept w₁ h₁ => ?_
  refine .after (drafts_vertexTables _ _) h₁ fun absorbed w₂ h₂ => ?_
  refine .after (.asked (Query.asks_item _ _)) h₂ fun keptItem w₃ h₃ => ?_
  split
  rename_i source target keptColumn absorbedColumn _
  refine .after (drafts_rowsNamed _ _) h₃ fun sources w₄ h₄ => ?_
  refine .after (drafts_rowsNamed _ _) h₄ fun targets w₅ h₅ => ?_
  refine .after (drafts_linkMatches _ _ _ _ _) h₅ fun found w₆ h₆ => ?_
  refine .after (drafts_joinedPairs _ _) h₆ fun pairs w₇ h₇ => ?_
  refine .after (drafts_survivors _ _ _ _) h₇ fun (remaining,column) w₈ h₈ => ?_
  refine .after (.temporary (Store.adds_join _ _ _ _)) h₈ fun livePairs w₉ h₉ => ?_
  refine .after (.temporary (Store.adds_join _ _ _ _)) h₉ fun liveLinks w₁₀ h₁₀ => ?_
  refine .after (.temporary (Store.adds_edgeMatches _ _ _)) h₁₀ fun edgeRows w₁₁ h₁₁ => ?_
  refine .after (.temporary (Store.adds_join _ _ _ _)) h₁₁ fun keptObjects w₁₂ h₁₂ => ?_
  refine .after (.temporary (Store.adds_join _ _ _ _)) h₁₂ fun keptLinks w₁₃ h₁₃ => ?_
  refine .after (.temporary (Store.adds_join _ _ _ _)) h₁₃ fun movedObjects w₁₄ h₁₄ => ?_
  refine .after (.temporary (Store.adds_join _ _ _ _)) h₁₄ fun movedLinks w₁₅ h₁₅ => ?_
  refine .after (.temporary (Store.adds_union _)) h₁₅ fun objects w₁₆ h₁₆ => ?_
  refine .after (.temporary (Store.adds_union _)) h₁₆ fun links w₁₇ h₁₇ => ?_
  refine .making (Store.adds_derive _ _) h₁₇ fun o w₁₈ h₁₈ _ ho hom _ => ?_
  refine .making (Store.adds_derive _ _) h₁₈ fun l w₁₉ h₁₉ hsub hl hlm hnew => ?_
  exact closes_put hw.untrack h₁₉ ho hl (hsub hom) hlm fun he => hnew (he ▸ hom)

theorem ApplyUpperLimit.leaves_enforce (hw : w.Custody F) (vertex : Item) (marker : Provenance)
    (max : Nat) (output : String) {g : Unit → β} :
    Leaves output F leak (do return g (← ApplyUpperLimit.enforce vertex marker max output)) w := by
  refine .work hw ?_
  refine .after (.require _) (.refl hw.untrack) fun current w₁ h₁ => ?_
  refine .after (drafts_rowsNamed _ _) h₁ fun named w₂ h₂ => ?_
  refine .after (.temporary (Store.adds_derive _ _)) h₂ fun instances w₃ h₃ => ?_
  refine .after (.temporary (Store.adds_derive _ _)) h₃ fun counts w₄ h₄ => ?_
  refine .after (.temporary (Store.adds_derive _ _)) h₄ fun excess w₅ h₅ => ?_
  refine .making (Store.adds_antiJoin _ _ _) h₅ fun o w₆ h₆ _ ho hom _ => ?_
  refine .making (Store.adds_antiJoin _ _ _) h₆ fun l w₇ h₇ hsub hl hlm hnew => ?_
  exact closes_replace hw.untrack h₇ ho hl (hsub hom) hlm fun he => hnew (he ▸ hom)

theorem ApplyUpperLimit.leaves_replay (hw : w.Custody F) (r : Replay) :
    Leaves r.result.joinedName F leak (ApplyUpperLimit.replay r) w := by
  refine .asking (asks_item _ _) hw fun v => .asking (Query.asks_item _ _) hw fun vertex => ?_
  split
  · exact .of_error rfl (.inl ⟨Error.Unclashed.not_strands (by rintro _ ⟨⟩),.refl hw⟩)
  · split
    · exact leaves_enforce hw _ _ _ _
    · exact .of_ok rfl (.refl hw)

theorem EliminateSubquery.leaves_replay (hw : w.Custody F) (r : Replay) :
    Leaves r.result.joinedName F leak (EliminateSubquery.replay r) w :=
  .of_ok rfl (.refl hw)

theorem ProcessConstraint.asks_binaryOperator (k : Constraint) :
    Asks (ProcessConstraint.binaryOperator k) := fun e he => by
  rw [ProcessConstraint.binaryOperator] at he
  split at he
  · cases he
  · cases he
    exact fun _ hn => by cases hn

theorem ProcessConstraint.drafts_operandValues (rows : TableId) (kind : SourceKind)
    (operand : Operand) (column : String) :
    Drafts F (ProcessConstraint.operandValues rows kind operand column) := by
  rw [ProcessConstraint.operandValues.eq_def]
  split
  · exact fun w hw => .of_error rfl ⟨.refl hw,nofun⟩
  · refine (drafts_rowsNamed _ _).bind fun named => ?_
    split
    · exact (Drafts.temporary (Store.adds_derive _ _)).bind fun _ =>
        (Drafts.store (Store.spares_alter _ _)).bind fun _ => .pure _
    · exact (Drafts.temporary (Store.adds_attributeValues _ _)).bind fun _ =>
        .temporary (Store.adds_join _ _ _ _)

theorem ProcessConstraint.drafts_satisfying (rows : TableId) (kind : SourceKind)
    (operator : Comparison) (left right : Operand) :
    Drafts F (ProcessConstraint.satisfying rows kind operator left right) := by
  rw [ProcessConstraint.satisfying.eq_def]
  split
  · exact (drafts_operandValues _ _ _ _).bind fun _ => .temporary (Store.adds_derive _ _)
  · exact (drafts_operandValues _ _ _ _).bind fun _ => .temporary (Store.adds_derive _ _)
  · exact (drafts_operandValues _ _ _ _).bind fun _ => (drafts_operandValues _ _ _ _).bind fun _ =>
      (Drafts.temporary (Store.adds_join _ _ _ _)).bind fun _ => .temporary (Store.adds_derive _ _)

theorem ProcessConstraint.leaves_replay (hw : w.Custody F) (r : Replay) :
    Leaves r.result.joinedName F leak (ProcessConstraint.replay r) w := by
  refine .asking (asks_settled _) hw fun k => .asking (asks_binaryOperator _) hw fun operator => ?_
  refine .work hw ?_
  refine .after (.require _) (.refl hw.untrack) fun current w₁ h₁ => ?_
  split
  rename_i rows kind _
  refine .after (drafts_satisfying _ _ _ _ _) h₁ fun holding w₂ h₂ => ?_
  refine .after (.temporary (Store.adds_derive _ _)) h₂ fun kept w₃ h₃ => ?_
  refine .making (Store.adds_join _ _ _ _) h₃ fun o w₄ h₄ _ ho hom _ => ?_
  refine .making (Store.adds_join _ _ _ _) h₄ fun l w₅ h₅ hsub hl hlm hnew => ?_
  exact closes_replace hw.untrack h₅ ho hl (hsub hom) hlm fun he => hnew (he ▸ hom)

/-- The name of the entry of a result that a rule puts into the registry after it has kept the
tables. -/
def stranding (rule : Rule) (r : Replay) : Option String :=
  if rule.name = collapseEdge.name ∨ rule.name = absorbAnnotatedVertex.name then
    some r.result.joinedName
  else none

/-- Whatever is replayed in whatever workspace: the tables that are left are those of the registry
and those that were foreign before, unless tables are stranded. -/
theorem leaves_replay {rule : Rule} (hr : rule ∈ builtIn) (hw : w.Custody F) (r : Replay) :
    Leaves r.result.joinedName F (stranding rule r) (rule.replay r) w := by
  simp only [builtIn,List.mem_cons,List.not_mem_nil,or_false] at hr
  rcases hr with rfl|rfl|rfl|rfl|rfl|rfl|rfl
  · rw [stranding,if_neg (by decide)]
    exact GetVertex.leaves_replay hw r
  · exact AbsorbSelfLoop.leaves_replay hw r
  · rw [stranding,if_pos (.inl rfl)]
    exact CollapseEdge.leaves_replay hw r
  · rw [stranding,if_pos (.inr rfl)]
    exact AbsorbAnnotatedVertex.leaves_replay hw r
  · exact ApplyUpperLimit.leaves_replay hw r
  · exact EliminateSubquery.leaves_replay hw r
  · exact ProcessConstraint.leaves_replay hw r

end Rule

end GraphPattern
