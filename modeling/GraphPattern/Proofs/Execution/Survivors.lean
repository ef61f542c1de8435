import GraphPattern.Proofs.Execution.Completed
import GraphPattern.Proofs.Execution.Course

/-!
# Which matches survive a subquery

What is left of an annotated subquery is absorbed along an edge that led out of it, and its upper
bound is enforced by a later step. A match survives both if enough matches of the subquery hang at
the end of the edge, and if these hold no more objects than the annotation allows under the name that
is written for the end. Matches of the subquery can share such an object, so there can be more of
them than the annotation allows.
-/

namespace GraphPattern

open Matches Rule Step Workspace

/-! ## What is counted -/

/-- Enough bindings hang at an end of an edge, and under the name of the end they hold no more objects
than an annotation allows. -/
structure Store.Sustains (s : Store) (y : Item) (ends : EdgeEnds) (t : Bool) (b : Annotation)
    (B : Set Binding) (c : Binding) : Prop where
  /-- There are enough of them. -/
  enough : b.min.getD 0 ≤ (s.hanging y ends t B c).ncard
  /-- They hold few objects. -/
  few : ∀ most, b.max = some most → (s.gathered y ends t B c .object (ends.nameAt t)).ncard ≤ most

/-- The annotation admits what hangs there, if the bindings hold as many objects as there are
bindings. -/
theorem Store.sustains_iff {s : Store} {y : Item} {ends : EdgeEnds} {t : Bool} {b : Annotation}
    {B : Set Binding} {c : Binding} (h : (s.gathered y ends t B c .object (ends.nameAt t)).ncard =
      (s.hanging y ends t B c).ncard) :
    s.Sustains y ends t b B c ↔ b.admits (s.hanging y ends t B c).ncard = true := by
  rw [ Annotation.admits_iff,← h]
  exact ⟨fun hc => ⟨h ▸ hc.enough,hc.few⟩,fun hc => ⟨h ▸ hc.1,hc.2⟩⟩

namespace Matches

/-- What is left when an upper bound is enforced on the objects under a name, if there is one. -/
def enforced (n : String) : Option Nat → Rows × Rows → Rows × Rows
  | none,X => X
  | some most,X => ApplyUpperLimit.result n most X

variable {s : Store} {X Z : Rows × Rows} {G : Set Binding} {N : Set String} {x y z : Item}
  {ends : EdgeEnds} {t : Bool} {b : Annotation} {g : Int} (hs : s.Keyed) (hX : Proper X)
  (hZ : Presents Z G) (ht : x.hasName ends.sourceName = !t)

include hs hX hZ ht

/-- A match is kept if enough matches hang at the end of the edge. -/
theorem mem_numbers_absorb (hb : z.bounds = some b) :
    g ∈ numbers (AbsorbAnnotatedVertex.result (s.linkRows y.condition) x y z ends X Z) ↔
      g ∈ numbers X ∧ b.min.getD 0 ≤ (s.hanging y ends t G (bound X g)).ncard :=
  (describes_hanging hs hX.tidy hZ ht hb).mem_numbers

/-- Under the name of the end a match that is kept holds the objects of the matches that hang there. -/
theorem bound_absorb (hb : z.bounds = some b)
    (hg : g ∈ numbers (AbsorbAnnotatedVertex.result (s.linkRows y.condition) x y z ends X Z))
    (hN : (bound X g).Within N) (hn : ends.nameAt t ∉ N) :
    bound (AbsorbAnnotatedVertex.result (s.linkRows y.condition) x y z ends X Z) g .object
        (ends.nameAt t) =
      s.gathered y ends t G (bound X g) .object (ends.nameAt t) := by
  have hd := describes_hanging (y:=y) hs hX.tidy hZ ht hb
  rw [hd.bound_eq (hd.mem_numbers.mp hg),Binding.sup_apply,hN.eq_empty hn,Set.empty_union]

/-- A match survives an absorption and the enforcement of the upper bound exactly if it is
sustained. -/
theorem mem_numbers_enforced (hb : z.bounds = some b)
    (hN : ∀ g ∈ numbers X, (bound X g).Within N) (hn : ends.nameAt t ∉ N) :
    g ∈ numbers (enforced (ends.nameAt t) b.max
        (AbsorbAnnotatedVertex.result (s.linkRows y.condition) x y z ends X Z)) ↔
      g ∈ numbers X ∧ s.Sustains y ends t b G (bound X g) := by
  have habsorb := mem_numbers_absorb (y:=y) (g:=g) hs hX hZ ht hb
  cases hmax : b.max with
  | none =>
    rw [enforced,habsorb]
    refine and_congr_right fun _ => ⟨fun h => ⟨h,fun most hmost => ?_⟩,fun h => h.enough⟩
    rw [hmax] at hmost
    cases hmost
  | some most =>
    have hproper := (describes_hanging (y:=y) hs hX.tidy hZ ht hb).proper
    rw [enforced,(describes_applyUpperLimit hproper _ _).mem_numbers]
    constructor
    · rintro ⟨hg,hfew⟩
      obtain ⟨hgX,henough⟩ := habsorb.mp hg
      rw [bound_absorb hs hX hZ ht hb hg (hN g hgX) hn] at hfew
      refine ⟨hgX,henough,fun most' hmost' => ?_⟩
      rw [hmax] at hmost'
      cases hmost'
      exact hfew
    · rintro ⟨hgX,hsustains⟩
      have hg := habsorb.mpr ⟨hgX,hsustains.enough⟩
      refine ⟨hg,?_⟩
      rw [bound_absorb hs hX hZ ht hb hg (hN g hgX) hn]
      exact hsustains.few most hmax

end Matches

/-! ## Absorptions -/

/-- The step absorbs a composite vertex that is annotated. -/
structure PlanStep.Absorbs (st : PlanStep) (v e u : ItemId) (x y z : Item) (ends : EdgeEnds)
    (b : Annotation) : Prop where
  /-- This is the rule. -/
  rule : st.step.rule = absorbAnnotatedVertex
  /-- A vertex absorbs another one along an edge. -/
  items : st.step.application.items = [v,e,u]
  /-- The vertex that stays. -/
  kept : st.before.item? v = some x
  /-- The edge. -/
  edge : st.before.item? e = some y
  /-- Its ends. -/
  ended : y.ends? = some ends
  /-- The vertex that is absorbed. -/
  absorbed : st.before.item? u = some z
  /-- It is a composite vertex. -/
  kind : z.kind = .composite
  /-- It may occur as often as this says. -/
  bounds : z.bounds = some b

/-- Where an upper bound is enforced on a vertex that has absorbed something: nowhere if there is no
bound, or else at the next step in which the vertex takes part. -/
inductive EnforcedAt (steps : List PlanStep) (i : Nat) (v : ItemId) : Option Nat → Nat → Prop
  /-- There is no upper bound. -/
  | unlimited : EnforcedAt steps i v none i
  /-- A later step enforces it. -/
  | limited {most k : Nat} {st : PlanStep} (found : steps[i+1+k]? = some st)
    (rule : st.step.rule = applyUpperLimit) (items : st.step.application.items = [v])
    (idle : ∀ j st', j < k → steps[i+1+j]? = some st' → v ∉ st'.step.application.items) :
    EnforcedAt steps i v (some most) (i+1+k)

/-- Where a bound is enforced in the rest of the steps. -/
theorem EnforcedAt.of_drop {steps : List PlanStep} {i k : Nat} {v : ItemId} {most : Option Nat}
    (h : EnforcedAt (steps.drop i) 0 v most k) :
    EnforcedAt steps i v most (i+k) := by
  have hfound : ∀ {j}, (steps.drop i)[0+1+j]? = steps[i+1+j]? := fun {j} => by
    rw [List.getElem?_drop,Nat.zero_add,Nat.add_assoc]
  cases h with
  | unlimited => exact .unlimited
  | @limited most k st found rule items idle =>
    rw [hfound] at found
    rw [show i+(0+1+k) = i+1+k by omega]
    exact .limited found rule items fun j st' hj hst' => idle j st' hj (hfound.trans hst')

/-- What a rule makes when the last of its three items is an annotated composite vertex. -/
theorem Rule.Makes.absorbed {q : Query} {s : Store} {R : ItemId → Rows × Rows → Prop}
    {a : Application} {rule : Rule} {marker : Option Provenance} {Y : Rows × Rows}
    {out v e u : ItemId} {x y z : Item} {ends : EdgeEnds} {b : Annotation}
    (h : Makes q s R a out rule marker Y) (hi : a.items = [v,e,u]) (hx : q.item? v = some x)
    (hy : q.item? e = some y) (he : y.ends? = some ends) (hz : q.item? u = some z)
    (hk : z.kind = .composite) (hb : z.bounds = some b) :
    out = v ∧ ∃ t X Z, q.Absorbs v e t u ∧ R v X ∧ R u Z ∧
      Y = AbsorbAnnotatedVertex.result (s.linkRows y.condition) x y z ends X Z ∧
        marker.map Provenance.item = if b.max.isSome then some (ends.nameAt t) else none := by
  cases h with
  | getVertex items | absorbSelfLoop items | applyUpperLimit items | eliminateSubquery items
  | processConstraint items =>
    rw [items] at hi
    cases hi
  | @collapseEdge e' u' x' y' z' ends' t X Z items settles live settled edge ended absorbed settled' =>
    rw [items] at hi
    cases hi
    rw [hz] at absorbed
    cases absorbed
    rw [settled'.bounds] at hb
    cases hb
  | @absorbAnnotatedVertex e' u' x' y' z' ends' b' t marker X Z items settles live settled edge ended
      absorbed bounds absorbs owed given given' plain =>
    rw [items] at hi
    cases hi
    rw [hx] at live
    cases live
    rw [hy] at edge
    cases edge
    rw [he] at ended
    cases ended
    rw [hz] at absorbed
    cases absorbed
    rw [hb] at bounds
    cases bounds
    exact ⟨rfl,t,X,Z,absorbs,given,given' hk,rfl,owed⟩

namespace Execution

open Query

variable {q₀ q q' u' : Query} {f : ItemId → ItemId} {x' : SearchStep} {steps : List PlanStep}
  {st : PlanStep} {out v e u : ItemId} {x y z x₁ : Item} {ends : EdgeEnds} {b : Annotation}
  {config : ExecutionConfig} {finalName label : String} {names : List String} {s : Store}
  {w w' : Workspace} {total position i : Nat}

/-- The step finds an entry for either vertex, and makes the entry of the vertex that stays. -/
theorem absorbed_execute (lineal : q₀.Lineal q f) (able : q.Replayable)
    (reduced : Reduction q x'.rule x'.application q' out) (live : q'.item? out = some x₁)
    (named : x'.result = ⟨x₁.joinedName,x₁.names⟩) (ha : PlanStep.Absorbs ⟨q,x'⟩ v e u x y z ends b)
    (hw : Finds q s w) (hw' : w'.Orderly) (ht : q'.Tracked w'.registry.keys names)
    (hstep : runStep config label ⟨q,x'⟩ .execute w = .ok () w') :
    out = v ∧ ∃ t X Z, q.Absorbs v e t u ∧ (q.Sorted v X ∧ w.Entry x.joinedName X.1 X.2) ∧
      (q.Sorted u Z ∧ w.Entry z.joinedName Z.1 Z.2) ∧
      w'.Entry x₁.joinedName (AbsorbAnnotatedVertex.result (s.linkRows y.condition) x y z ends X Z).1
        (AbsorbAnnotatedVertex.result (s.linkRows y.condition) x y z ends X Z).2 ∧
      x₁.provenance.map Provenance.item = if b.max.isSome then some (ends.nameAt t) else none := by
  have hc := reduced.changes lineal.wellFormed
  -- The entry of the vertex that comes out is what the rule makes of the two entries.
  have hmakes : q'.Entries w' fun j Y => j = out → Makes q s (fun i X => q.Sorted i X ∧
      ∀ z, q.item? i = some z → w.Entry z.joinedName X.1 X.2) x'.application out x'.rule
        x₁.provenance Y :=
    entries_execute lineal.reducible able reduced live named hw.orderly hw.objects hw.links
      ht hstep (R:=fun i X => q.Sorted i X ∧
        ∀ z, q.item? i = some z → w.Entry z.joinedName X.1 X.2)
      (fun i z X hz hk hX => ⟨hw.sorted i z X hz hk hX,fun z' hz' => by
        rw [hz] at hz'
        cases hz'
        exact hX⟩)
      (fun i z X hz hi _ he => absurd he (hc.forth hz hi).1) fun X hX _ => hX
  obtain ⟨Y,hentry,hY⟩ := exists_entry hmakes hw' ht live (hc.kind_out live)
  obtain ⟨rfl,t,X,Z,habsorbs,⟨hF,hX⟩,⟨hG,hZ⟩,rfl,howed⟩ := (hY rfl).absorbed ha.items ha.kept ha.edge
    ha.ended ha.absorbed ha.kind ha.bounds
  exact ⟨rfl,t,X,Z,habsorbs,⟨hF,hX x ha.kept⟩,⟨hG,hZ z ha.absorbed⟩,hentry,howed⟩

/-- The bound that the vertex owes is that of the annotation. -/
theorem max_of_absorbs (hq : q.WellFormed)
    (reduced : Reduction q x'.rule x'.application q' out) (live : q'.item? out = some x₁)
    (ha : PlanStep.Absorbs ⟨q,x'⟩ v e u x y z ends b) {m : Provenance}
    (hm : x₁.provenance = some m) : m.max = b.max := by
  obtain ⟨e',u',-,-,z',-,b',most,name,hitems,-,-,-,hz,hb,hmost,-,rfl⟩ := reduced.marking hq live hm
  obtain ⟨-,-,rfl⟩ : v = out ∧ e = e' ∧ u = u' := by simpa using ha.items.symm.trans hitems
  rw [ha.absorbed] at hz
  cases hz
  rw [ha.bounds] at hb
  cases hb
  exact hmost.symm

/-- An upper bound that a composite vertex may owe is enforced, and what its entry holds is left alone
until then. -/
theorem enforces_of_owed (h : Course q₀ q steps u') (hconsolidated : u'.isConsolidated = true)
    {n : String} {most : Option Nat} {X : Rows × Rows} (hz : q.item? v = some z)
    (hk : z.kind = .composite)
    (howed : z.provenance.map Provenance.item = if most.isSome then some n else none)
    (hmost : ∀ m, z.provenance = some m → m.max = most) (hw : w.Orderly)
    (hX : w.Entry z.joinedName X.1 X.2)
    (hrun : runSteps config total position (scheduled .empty finalName steps) w = .ok () w')
    (hu : u'.Tracked w'.registry.keys [finalName]) :
    ∃ k w₁, EnforcedAt (st :: steps) 0 v most k ∧
      runSteps config total position ((scheduled .empty finalName steps).take k) w = .ok () w₁ ∧
      w₁.Entry z.joinedName (enforced n most X).1 (enforced n most X).2 := by
  cases most with
  | none => exact ⟨0,w,.unlimited,rfl,hX⟩
  | some most =>
    obtain ⟨m,hm,rfl⟩ := Option.map_eq_some_iff.mp howed
    obtain ⟨k,st',hst,hrule,hitems,hidle,w₁,hrun₁,hentry⟩ := enforces_of_marked h hconsolidated
      (hmost m hm) hz hk hm hw hX hrun hu
    have hcons : ∀ {j}, (st :: steps)[0+1+j]? = steps[j]? := fun {j} => by
      rw [Nat.zero_add,Nat.add_comm,List.getElem?_cons_succ]
    refine ⟨0+1+k,w₁,.limited (hcons.trans hst) hrule hitems
      fun j st'' hj hst'' => hidle j st'' hj (hcons.symm.trans hst''),?_,hentry⟩
    rwa [Nat.zero_add,Nat.add_comm]

/-- The first step of a course that absorbs what is left of a subquery, with the matches that it
finds and those that remain in the end. -/
theorem survivors_first (h : Course q₀ q (st :: steps) u') (hconsolidated : u'.isConsolidated = true)
    (hs : s.Keyed) (hreg : q₀.Regular) (ha : st.Absorbs v e u x y z ends b) (hw : Finds q s w)
    (hrun : runSteps config total position (scheduled .empty finalName (st :: steps)) w = .ok () w')
    (hu : u'.Tracked w'.registry.keys [finalName]) :
    ∃ t c, ends.nameAt t ∈ z.names ∧ q₀.Crosses e t c ∧ q₀.subqueryBounds c = some b ∧
      {n | n ∈ z.names} = (Limb.subquery c).names q₀ ∧
      ∃ X Z : Rows × Rows, w.Entry x.joinedName X.1 X.2 ∧ w.Entry z.joinedName Z.1 Z.2 ∧
      ∃ k w₁, ∃ Y : Rows × Rows, EnforcedAt (st :: steps) 0 v b.max k ∧
        runSteps config total position ((scheduled .empty finalName (st :: steps)).take (k+1)) w =
          .ok () w₁ ∧
        w₁.Entry st.step.result.joinedName Y.1 Y.2 ∧
        ∀ g, g ∈ numbers Y ↔ g ∈ numbers X ∧
          s.Sustains y ends t b (bound Z '' numbers Z) (bound X g) := by
  cases h with
  | cons lineal able reduced live named rest =>
    obtain ⟨hscheduled,-,w₁,hstep,hrest,hreplays,htracked⟩ := executes_of_tracked lineal.wellFormed
      able reduced live named hw.orderly hrun fun hv hrest => tracked_of_tour rest.tour hv hrest hu
    obtain ⟨rfl,t,X,Z,habsorbs,⟨⟨F,hF,hN⟩,hX⟩,⟨⟨G,hG,-⟩,hZ⟩,hentry,howed⟩ := absorbed_execute lineal
      able reduced live named ha hw hreplays.orderly htracked hstep
    obtain rfl := hG.image
    have hforward := lineal.reducible.hasName ha.kept ha.edge ha.ended habsorbs.near
      (by rw [Bool.not_not]; exact habsorbs.far) habsorbs.ne
    have hfar := lineal.reducible.nameAt ha.edge ha.ended habsorbs.far
    have hname := fun hn => habsorbs.ne (lineal.wellFormed.eq_of_name hn hfar)
    obtain ⟨l,hlead,hlb,hln⟩ := lineal.limb_names hreg habsorbs
    rw [itemNames_of_some ha.absorbed] at hfar hln
    obtain ⟨c,rfl⟩ := lineal.exists_subquery hreg hlead
      (by rw [itemNames_of_some ha.absorbed]; exact hln) ha.absorbed ha.kind
    cases hlead with
    | subquery hcrosses hbounds =>
    obtain ⟨k,w₂,hk,hrun₂,hentry₂⟩ := enforces_of_owed rest hconsolidated live
      ((reduced.changes lineal.wellFormed).kind_out live) howed
      (fun m hm => max_of_absorbs lineal.wellFormed reduced live ha hm) hreplays.orderly hentry hrest hu
    refine ⟨t,c,hfar,hcrosses,hlb.trans ((itemBounds_of_some ha.absorbed).trans ha.bounds),hln,X,Z,
      hX,hZ,k,w₂,_,hk,?_,?_,fun g => mem_numbers_enforced hs hF.toProper hG hforward ha.bounds
        (fun g _ => hF.within hN g) hname⟩
    · rw [hscheduled,List.take_succ_cons,runSteps,bind_of_ok hstep]
      exact hrun₂
    · rw [named]
      exact hentry₂

/-- A step of a course that absorbs what is left of a subquery, with the matches that it finds and
those that remain in the end. -/
theorem survivors_of_course (h : Course q₀ q steps u') (hconsolidated : u'.isConsolidated = true)
    (hs : s.Keyed) (h₀ : q₀.Written) (hreg : q₀.Regular) (hst : steps[i]? = some st)
    (ha : st.Absorbs v e u x y z ends b) (hw : Finds q s w)
    (hrun : runSteps config total position (scheduled .empty finalName steps) w = .ok () w')
    (hu : u'.Tracked w'.registry.keys [finalName]) :
    ∃ t c, ends.nameAt t ∈ z.names ∧ q₀.Crosses e t c ∧ q₀.subqueryBounds c = some b ∧
      {n | n ∈ z.names} = (Limb.subquery c).names q₀ ∧
      ∃ w₁, ∃ X Z : Rows × Rows,
        runSteps config total position ((scheduled .empty finalName steps).take i) w = .ok () w₁ ∧
        w₁.Entry x.joinedName X.1 X.2 ∧ w₁.Entry z.joinedName Z.1 Z.2 ∧
      ∃ j w₂, ∃ Y : Rows × Rows, EnforcedAt steps i v b.max j ∧
        runSteps config total position ((scheduled .empty finalName steps).take (j+1)) w =
          .ok () w₂ ∧
        w₂.Entry st.step.result.joinedName Y.1 Y.2 ∧
        ∀ g, g ∈ numbers Y ↔ g ∈ numbers X ∧
          s.Sustains y ends t b (bound Z '' numbers Z) (bound X g) := by
  obtain ⟨hi,rfl⟩ := List.getElem?_eq_some_iff.mp hst
  obtain ⟨p,w₁,hp,hw₁,hdrop,hbefore,hafter⟩ := reaches h hs h₀ hi.le hw hrun hu
  rw [List.drop_eq_getElem_cons hi] at hp hafter
  obtain ⟨t,c,hend,hcrosses,hb,hn,X,Z,hX,hZ,k,w₂,Y,hk,hrun₂,hY,hiff⟩ :=
    survivors_first hp hconsolidated hs hreg ha hw₁ hafter hu
  rw [← List.drop_eq_getElem_cons hi] at hk hrun₂
  have hlength : i ≤ (scheduled .empty finalName steps).length := by
    rw [scheduled,List.length_zip,length_modes,Nat.min_self]
    exact hi.le
  refine ⟨t,c,hend,hcrosses,hb,hn,w₁,X,Z,hbefore,hX,hZ,i+k,w₂,Y,hk.of_drop,?_,hY,hiff⟩
  rw [Nat.add_assoc]
  exact runSteps_take hlength hbefore (hdrop ▸ hrun₂)

/-- Which matches survive a subquery. For every query that is built, that validation accepts and that
caches no items, whatever the rules, the configurations, the store and the name of the container, take
a run that answers and a step of it that absorbs an annotated composite vertex. This vertex is what
is left of an annotated subquery, out of which the edge leads, and it has the annotation of that
subquery. Compare what the run holds before this step with what it holds after the upper bound is
enforced: a match of the other vertex survives exactly if enough matches of the subquery hang at the
end of the edge, that is, are joined to it by as many links as the edge allows, and if these hold no
more objects under the name of the end than the annotation allows. So it survives exactly if the
annotation admits the number of these matches, if they hold as many objects there as there are
matches. -/
theorem survives_iff {d : Description} {plan : Plan} {rules : List Rule} {search : SearchConfig}
    {destination : String} {report : ExecutionReport} {s' : Store} {last : PlanStep}
    (hq : d.build = .ok q) (hv : q.violations = []) (hcached : q.cachedItems .whole = .empty)
    (hr : ∀ rule ∈ rules, rule ∈ Rule.builtIn) (hplan : Plan.ofQuery rules search q = .ok plan)
    (hs : s.Keyed) (hrun : run config plan destination s = .ok report s')
    (hlast : plan.steps.getLast? = some last) (hst : plan.steps[i]? = some st)
    (ha : st.Absorbs v e u x y z ends b) :
    ∃ t c, ends.nameAt t ∈ z.names ∧ q.Crosses e t c ∧ q.subqueryBounds c = some b ∧
      {n | n ∈ z.names} = (Limb.subquery c).names q ∧
      ∃ w₁, ∃ X Z : Rows × Rows,
        runUpTo config q plan.steps last.step.result.joinedName destination i (.fresh s) =
          .ok () w₁ ∧
        w₁.Entry x.joinedName X.1 X.2 ∧ w₁.Entry z.joinedName Z.1 Z.2 ∧
      ∃ j w₂, ∃ Y : Rows × Rows, EnforcedAt plan.steps i v b.max j ∧
        runUpTo config q plan.steps last.step.result.joinedName destination (j+1) (.fresh s) =
          .ok () w₂ ∧
        w₂.Entry st.step.result.joinedName Y.1 Y.2 ∧
        ∀ g, (g ∈ numbers Y ↔ g ∈ numbers X ∧
            s.Sustains y ends t b (bound Z '' numbers Z) (bound X g)) ∧
          ((s.gathered y ends t (bound Z '' numbers Z) (bound X g) .object (ends.nameAt t)).ncard =
              (s.hanging y ends t (bound Z '' numbers Z) (bound X g)).ncard →
            (g ∈ numbers Y ↔ g ∈ numbers X ∧
              b.admits (s.hanging y ends t (bound Z '' numbers Z) (bound X g)).ncard = true)) := by
  obtain ⟨hsolved,start,last',w,hstart,hlast',hsteps,-⟩ := exists_runPlan hrun
  cases hlast.symm.trans hlast'
  have hw := Description.written_build hq
  have hreg := regular_of_violations hw.wellFormed hv
  have hable := hw.replayable (Plan.comparable_of_isSolved hq hr hplan hsolved) hv
  obtain ⟨hf,F,es,hfirst,hpath⟩ := Plan.first_of_isSolved hr hw.reducible hplan hsolved
  obtain ⟨st₀,hst₀,rfl⟩ := hf.start
  rw [hst₀] at hstart
  cases hstart
  have hsettling := (hfirst.leads.solvable hr hst₀ hw.wellFormed).settling hw.wellFormed
  obtain ⟨u',hu',hcourse⟩ := hfirst.leads.course hr hreg hst₀ (.refl hw hreg.flat hsettling) hable
  rw [← Plan.steps_eq hpath] at hcourse
  rw [runPlan_eq] at hsteps
  obtain ⟨⟨⟩,w₀,hclear,hsteps⟩ := bind_eq_ok.mp hsteps
  obtain ⟨s₀,rfl,ho,hl,hd,-⟩ := (outcome_clearDestination _ _ _).of_eq hclear
  obtain ⟨w',hrun',hu,-⟩ := tracked_of_cleared hcourse.tour hu' hcached hlast hd hsteps
  have hfinds : Finds start.query s (.fresh s₀) := ⟨orderly_fresh s₀,ho,hl,fun i x X hx hk _ =>
    absurd hk (hw.item hx).plain⟩
  obtain ⟨t,c,hend,hcrosses,hb,hn,w₁,X,Z,hbefore,hX,hZ,j,w₂,Y,hj,hafter,hY,hiff⟩ :=
    survivors_of_course hcourse hu' hs hw hreg hst ha hfinds hrun' hu
  have hupTo : ∀ {k v}, runSteps config plan.steps.length 1
      ((scheduled .empty last.step.result.joinedName plan.steps).take k) (.fresh s₀) = .ok () v →
        runUpTo config start.query plan.steps last.step.result.joinedName destination k (.fresh s) =
          .ok () v := fun hk => by
    rw [runUpTo,planned_uncached hcached,bind_of_ok hclear]
    exact hk
  refine ⟨t,c,hend,hcrosses,hb,hn,w₁,X,Z,hupTo hbefore,hX,hZ,j,w₂,Y,hj,hupTo hafter,hY,fun g =>
    ⟨hiff g,fun hcard => ?_⟩⟩
  rw [hiff g,Store.sustains_iff hcard]

/-- A vertex and an edge to it from an annotated subquery, which is an edge between two vertices and
may occur at most once, as described. -/
def sharing : Description :=
  ⟨"q","",⟨[⟨"A",none,none⟩],[⟨"e","C","A",true,none,some ⟨some 1,none⟩⟩],[],[],[]⟩,
    [.mk (some ⟨none,some 1⟩) ⟨[⟨"C",none,none⟩,⟨"D",none,none⟩],[⟨"f","C","D",true,none,none⟩],
      [],[],[]⟩ []]⟩

/-- Three objects, and links from the second one to the others. -/
def shared : Store :=
  { Store.empty with
    objects := ⟨[(1,.empty),(2,.empty),(3,.empty)]⟩
    links := ⟨[(1,⟨2,1,.empty⟩),(2,⟨2,3,.empty⟩)]⟩ }

/-- Two matches of the subquery that hold the second object are joined to one that holds the first
object. They sustain it, though the annotation does not admit two. -/
theorem sustains_shared {y : Item} {ends : EdgeEnds} {B : Set Binding} {c d d' : Binding}
    (hcondition : y.condition = none) (hbounds : y.bounds = some ⟨some 1,none⟩)
    (hsource : ends.sourceName = "C") (htarget : ends.targetName = "A") (hc : 1 ∈ c .object "A")
    (hB : B.Finite) (hsecond : ∀ d ∈ B, d .object "C" = {2}) (hd : d ∈ B) (hd' : d' ∈ B)
    (hne : d ≠ d') : shared.Sustains y ends true ⟨none,some 1⟩ B c ∧
      Annotation.admits ⟨none,some 1⟩ (shared.hanging y ends true B c).ncard = false := by
  have hlinks : ∀ d ∈ B, y.Permits (shared.linksAcross y ends false c d) := fun d hd => by
    have hfinite : (shared.linksAcross y ends false c d).Finite :=
      (shared.links.keys.finite_toSet).subset fun l hl => by
        obtain ⟨link,hlink,-⟩ := hl
        exact List.mem_map_of_mem (f:=Prod.fst) hlink
    have hfirst : 1 ∈ shared.linksAcross y ends false c d := by
      rw [Store.linksAcross,hsource,htarget,hcondition]
      refine ⟨⟨2,1,.empty⟩,List.mem_cons_self,rfl,.inl ⟨?_,hc⟩⟩
      rw [if_neg Bool.false_ne_true,hsecond d hd]
      rfl
    refine ⟨⟨1,hfirst⟩,fun a ha => ?_⟩
    rw [hbounds] at ha
    cases ha
    exact Annotation.admits_iff.mpr ⟨(Set.ncard_pos hfinite).mpr ⟨1,hfirst⟩,fun _ hm => by cases hm⟩
  have hobjects : shared.gathered y ends true B c .object (ends.nameAt true) ⊆ {2} := by
    rintro o ⟨d,⟨hd,-⟩,ho|⟨⟨hk,-⟩,-⟩⟩
    · rw [EdgeEnds.nameAt,hsource,hsecond d hd] at ho
      exact ho
    · cases hk
  have htwo : 1 < (shared.hanging y ends true B c).ncard :=
    (Set.one_lt_ncard_iff (hB.subset fun d hd => hd.1)).mpr
      ⟨d,d',⟨hd,hlinks d hd⟩,⟨hd',hlinks d' hd'⟩,hne⟩
  constructor
  · refine ⟨Nat.zero_le _,fun most hmost => ?_⟩
    cases hmost
    exact (Set.ncard_le_ncard hobjects (Set.finite_singleton 2)).trans (Set.ncard_singleton 2).le
  · rw [Bool.eq_false_iff,ne_eq, Annotation.admits_iff]
    exact fun h => absurd (h.2 1 rfl) (Nat.not_le_of_lt htwo)

/-- A match survives to which two matches of the subquery are joined, though the subquery may occur at
most once: the two share the object at the end of the edge. -/
theorem survives_iff_shared : ∃ q plan report s' last st x y z ends, sharing.build = .ok q ∧
    q.violations = [] ∧ Plan.ofQuery Rule.builtIn .standard q = .ok plan ∧
    run .standard plan "out" shared = .ok report s' ∧ plan.steps.getLast? = some last ∧
    plan.steps[5]? = some st ∧ st.Absorbs ⟨5⟩ ⟨3⟩ ⟨6⟩ x y z ends ⟨none,some 1⟩ ∧
    ∃ t w₁, ∃ X Z : Rows × Rows, ∃ j w₂, ∃ Y : Rows × Rows,
      runUpTo .standard q plan.steps last.step.result.joinedName "out" 5 (.fresh shared) =
        .ok () w₁ ∧
      w₁.Entry x.joinedName X.1 X.2 ∧ w₁.Entry z.joinedName Z.1 Z.2 ∧
      EnforcedAt plan.steps 5 ⟨5⟩ (some 1) j ∧
      runUpTo .standard q plan.steps last.step.result.joinedName "out" (j+1) (.fresh shared) =
        .ok () w₂ ∧
      w₂.Entry st.step.result.joinedName Y.1 Y.2 ∧ 1 ∈ numbers X ∧ 1 ∈ numbers Y ∧
      Annotation.admits ⟨none,some 1⟩
        (shared.hanging y ends t (bound Z '' numbers Z) (bound X 1)).ncard = false := by
  obtain ⟨q,plan,last,hq,hv,hplan,hsolved,hlast,hcheck⟩ := exists_solved (d:=sharing)
    (c:=fun q plan last => (q.cachedItems .whole).entries.isEmpty &&
      (q.items.live.all fun x => x.names.all fun n => '.' ∉ n.toList) &&
      (plan.steps[5]?).any (fun (st : PlanStep) => decide (st.step.rule.name = "absorb-annotated-vertex") &&
        decide (st.step.application.items = [⟨5⟩,⟨3⟩,⟨6⟩]) &&
        (st.before.item? ⟨5⟩).any (fun (x : Item) => decide (x.joinedName = "A")) &&
        (st.before.item? ⟨3⟩).any (fun (y : Item) => y.condition.isNone &&
          decide (y.bounds = some ⟨some 1,none⟩) && y.ends?.any fun ends =>
            decide (ends.sourceName = "C") && decide (ends.targetName = "A")) &&
        (st.before.item? ⟨6⟩).any fun (z : Item) => decide (z.kind = .composite) &&
          decide (z.bounds = some ⟨none,some 1⟩) && decide (z.joinedName = "C.D.f") &&
            decide ("A" ∉ z.names)) &&
      decide (held? (runUpTo .standard q plan.steps last.step.result.joinedName "out" 5) "A"
        shared = some (⟨Column.matched,[[.int 1,.int 1,.string "A"],[.int 2,.int 2,.string "A"],
          [.int 3,.int 3,.string "A"]]⟩,⟨Column.matched,[]⟩)) &&
      decide (held? (runUpTo .standard q plan.steps last.step.result.joinedName "out" 5) "C.D.f"
        shared = some (⟨Column.matched,[[.int 2,.int 1,.string "C"],[.int 2,.int 2,.string "C"],
          [.int 1,.int 1,.string "D"],[.int 3,.int 2,.string "D"]]⟩,
            ⟨Column.matched,[[.int 1,.int 1,.string "f"],[.int 2,.int 2,.string "f"]]⟩))) (by
      rw [Description.build,Description.addAll,sharing]
      simp only [Description.addSubqueries]
      decide +kernel)
  simp only [Bool.and_eq_true,decide_eq_true_eq,Option.any_eq_true,Option.isNone_iff_eq_none] at hcheck
  obtain ⟨⟨⟨⟨hcached,hdotless⟩,st,hst,⟨⟨⟨hname,hitems⟩,x,hx,hxn⟩,y,hy,⟨hyc,hyb⟩,ends,he,hsource,
    htarget⟩,z,hz,⟨⟨hzk,hzb⟩,hzn⟩,hzA⟩,hX⟩,hZ⟩ := hcheck
  have hfree : "out" ∉ shared.containers.keys := List.not_mem_nil
  obtain ⟨report,s',hrun⟩ := (run_answers hq hv (fun _ hr => hr) hplan hsolved hlast rfl
    (fun item source hfound => by
      rw [OrderedMap.find?,List.isEmpty_iff.mp hcached] at hfound
      cases hfound) hfree).2 (dotless_of_all hdotless)
  have hrule : st.step.rule = absorbAnnotatedVertex := by
    have hmem := Plan.rule_of_mem_steps hplan (List.mem_of_getElem? hst)
    simp only [builtIn,List.mem_cons,List.not_mem_nil,or_false] at hmem
    rcases hmem with h|h|h|h|h|h|h
    all_goals
      rw [h] at hname
      first
        | exact h
        | exact absurd hname (by decide)
  have ha : st.Absorbs ⟨5⟩ ⟨3⟩ ⟨6⟩ x y z ends ⟨none,some 1⟩ := ⟨hrule,hitems,hx,hy,he,hz,hzk,hzb⟩
  obtain ⟨t,-,hend,-,-,-,w₁,X,Z,hbefore,hXe,hZe,j,w₂,Y,hj,hafter,hY,hiff⟩ := survives_iff hq hv
    (congrArg OrderedMap.mk (List.isEmpty_iff.mp hcached)) (fun _ hr => hr) hplan
    ⟨by decide,by decide⟩ hrun hlast hst ha
  cases t with
  | false => exact absurd (htarget ▸ hend) hzA
  | true =>
  have hgiven : ∀ {n} {X : Rows × Rows} {O L : Rows}, w₁.Entry n X.1 X.2 →
      held? (runUpTo .standard q plan.steps last.step.result.joinedName "out" 5) n shared =
        some (⟨Column.matched,O⟩,⟨Column.matched,L⟩) → X = (O,L) := fun hX hheld => by
    obtain ⟨w,hw,hentry⟩ := entry_of_held? hheld
    cases hbefore.symm.trans hw
    obtain ⟨ho,hl⟩ := hX.unique hentry
    exact Prod.ext ho hl
  have hXA := hgiven (hxn ▸ hXe) hX
  have hZC := hgiven (hzn ▸ hZe) hZ
  have hfirst : 1 ∈ bound X 1 .object "A" := by
    rw [hXA]
    exact List.mem_cons_self
  have hsecond : ∀ d ∈ bound Z '' numbers Z, d .object "C" = {2} := by
    rintro _ ⟨h,⟨i,n,hrow⟩,rfl⟩
    ext o
    rw [mem_bound,hZC]
    rw [hZC] at hrow
    simp [MatchRow.cells,rowsOf] at hrow ⊢
    omega
  have hthird : 3 ∈ bound Z 2 .object "D" ∧ 3 ∉ bound Z 1 .object "D" := by
    rw [mem_bound,mem_bound,hZC]
    exact ⟨by simp [MatchRow.cells,rowsOf],by simp [MatchRow.cells,rowsOf]⟩
  have hnumber : 1 ∈ numbers Z ∧ 2 ∈ numbers Z := by
    rw [hZC]
    exact ⟨⟨2,"C",by simp [MatchRow.cells]⟩,2,"C",by simp [MatchRow.cells]⟩
  obtain ⟨hsustains,hadmits⟩ := sustains_shared hyc hyb hsource htarget hfirst
    ((finite_numbers Z).image _) hsecond ⟨1,hnumber.1,rfl⟩ ⟨2,hnumber.2,rfl⟩
      fun he => hthird.2 (he ▸ hthird.1)
  have hone : 1 ∈ numbers X := ⟨1,"A",hfirst⟩
  exact ⟨q,plan,report,s',last,st,x,y,z,ends,hq,hv,hplan,hrun,hlast,hst,ha,true,w₁,X,Z,j,w₂,Y,
    hbefore,hXe,hZe,hj,hafter,hY,hone,(hiff 1).1.mpr ⟨hone,hsustains⟩,hadmits⟩

end Execution

end GraphPattern
