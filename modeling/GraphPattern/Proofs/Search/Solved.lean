import GraphPattern.Proofs.Rule.Ahead
import GraphPattern.Proofs.Rule.Dues
import GraphPattern.Proofs.Search.Choice
import GraphPattern.Proofs.Search.Total

/-!
# What a search tells about the query

A search that has found a goal has solved the query: the steps to the first goal are reductions one
after another. A search that has explored everything without a goal knows that there is no solution.
It follows only one of the queries with a given content, but of these none can be solved unless all
of them can.
-/

namespace GraphPattern

open Relation

namespace Query

variable {q₀ : Query}

/-- At every query that comes from a regular one that can be solved the rules of the library
answer. -/
theorem Solvable.reliable (hs : q₀.Solvable) (h₀ : q₀.Regular) : q₀.Reliable := by
  intro q hq
  obtain ⟨f,hf⟩ := exists_descends h₀ (hs.settling h₀.wellFormed) hq
  refine ⟨hf.wellFormed,fun hC hk => ?_,fun {e u v y w ends b} hy he ho hne hw hb hmax => ?_⟩
  · exact hs.sameRelation_self h₀.wellFormed (hf.declared (mem_declared.mpr ⟨_,hC,hk⟩))
  · obtain ⟨s,hv,hu⟩ := EdgeEnds.opposite?_iff.mp ho
    obtain ⟨z,ends',hz,he',hname⟩ := hf.bound_named h₀ (hs.orderly h₀.wellFormed h₀.flat)
      (s:=!s) ⟨y,ends,hy,he,hu⟩ ⟨y,ends,hy,he,by rwa [Bool.not_not]⟩ hne.symm
      ((itemBounds_of_some hw).trans hb) hmax
    rw [hy] at hz
    cases hz
    rw [he] at he'
    cases he'
    rw [itemNames_of_some hw] at hname
    exact EdgeEnds.nameAmong?_isSome.mpr hname

/-- A regular query that can be solved weighs no more than the depth to which a search goes. -/
theorem Solvable.weight_le_depthLimit (hs : q₀.Solvable) (h₀ : q₀.Regular) (exhaustive : Bool) :
    q₀.weight ≤ Search.depthLimit ⟨exhaustive,none⟩ q₀ := by
  refine weight_le h₀.wellFormed fun {e y} hy hv => ?_
  have hplain := (hs.orderly h₀.wellFormed h₀.flat).plain ⟨y,hy,hv⟩
  rwa [itemMarker_of_some hy] at hplain

end Query

namespace SearchGraph

variable {rules : List Rule} {q₀ : Query} {g : SearchGraph} {s : StateId} {st : SearchState}
  {F : StateId → Prop} {es : List StepId}

/-- The query of a state from which steps lead to a goal can be solved. -/
theorem Leads.solvable (hl : g.Leads rules F s es) (hr : Rule.AllBuiltIn rules)
    (hs : g.state? s = some st) (h : st.query.WellFormed) : st.query.Solvable := by
  induction hl generalizing st with
  | @goal s hgoal =>
    rw [isGoal,hs,Option.any_some] at hgoal
    exact ⟨st.query,.refl,hgoal⟩
  | @step s e x a b before after es aimless out found source idle here there carries later rest ih =>
    rw [hs] at here
    cases here
    obtain ⟨out,hred⟩ := exists_reduction hr h carries
    exact (ih there (hred.applied h).2).head ⟨_,_,_,hred⟩

/-- Every reduction of the query of an explored state has led to a state with the content that came
out. -/
theorem Explored.exists_state (he : g.Explored rules s) (hf : g.Faithful rules q₀)
    (hr : ∀ rule ∈ Rule.builtIn, rule ∈ rules) (hs : g.state? s = some st)
    (h : st.query.WellFormed) {q : Query} (hq : st.query.ReducesTo q) :
    ∃ t ∈ g.successors s, ∃ st', g.state? t = some st' ∧ st'.query.content = q.content := by
  obtain ⟨rule,a,out,hred⟩ := hq
  obtain ⟨v,hv,as,has,ha⟩ := hred.listedAt h
  obtain ⟨bs,hbs,htried⟩ := he st hs v hv rule (hr rule hred.mem_builtIn)
  rw [has] at hbs
  cases hbs
  obtain ⟨e,x,hx,rfl,rfl,rfl,rfl⟩ := htried a ha
  obtain ⟨p,t,q',hp,ht,hcarries,hcontent⟩ := hf.step hx
  rw [hs] at hp
  cases hp
  obtain ⟨out',happ,-⟩ := hcarries.applied
  rw [(hred.applied h).1] at happ
  cases happ
  refine ⟨x.target,List.mem_filterMap.mpr ⟨e,?_,by rw [target?,hx]; rfl⟩,t,ht,hcontent.symm⟩
  rw [out_of_some hs]
  exact (hf.listed hs).mpr ⟨x,hx,rfl⟩

/-- Where everything is finished no query can be solved. -/
theorem Shut.not_solvable (hF : g.Shut rules F) (hf : g.Faithful rules q₀)
    (hr : ∀ rule, rule ∈ rules ↔ rule ∈ Rule.builtIn) (h₀ : q₀.Regular) (hFs : F s)
    (hs : g.state? s = some st) : ¬st.query.Solvable := by
  -- The induction is on the weight, which does not depend on which query of a content it is.
  induction hw : st.query.weight using Nat.strongRecOn generalizing s st with
  | _ n ih =>
    rintro ⟨u,hu,hgoal⟩
    have hall : Rule.AllBuiltIn rules := fun rule hrule => (hr rule).mp hrule
    have hq := hf.reduced hall h₀.wellFormed hs
    have hqw := hf.wellFormed hall h₀.wellFormed hs
    rcases hu.cases_head with rfl|⟨q,hstep,hrest⟩
    · have haim := hF.aimless hFs
      rw [isGoal,hs,Option.any_some,SearchState.isGoal,hgoal] at haim
      cases haim
    · obtain ⟨t,ht,st',hst',hcontent⟩ := (hF.explored hFs).exists_state hf
        (fun rule => (hr rule).mpr) hs hqw hstep
      have hsolv : st'.query.Solvable := .of_content h₀ (hf.reduced hall h₀.wellFormed hst')
        (hq.tail hstep) hcontent ⟨u,hrest,hgoal⟩
      obtain ⟨rule,a,out,hred⟩ := hstep
      have hlt := hred.weight_lt hqw
      have hsame : st'.query.weight = q.weight := by
        rw [← Query.weight_content (hf.wellFormed hall h₀.wellFormed hst').nested,hcontent,
          Query.weight_content (hred.applied hqw).2.nested]
      exact ih st'.query.weight (by omega) (hF.closed hFs t ht) hst' rfl hsolv

end SearchGraph

end GraphPattern

/-!
## All ways to a goal are equally long

The effort that contents show is that of every query with the same content. A step takes one off it,
also where it leads to a state that was known before, and none of it is left at a goal. So it tells
how far away a goal is.
-/

namespace GraphPattern.SearchGraph

variable {rules : List Rule} {q₀ : Query} {g : SearchGraph} {s : StateId} {st : SearchState}
  {k : Nat}

/-- The rules can work on the query of every state, and reductions have led to it. -/
theorem Faithful.traced (h : g.Faithful rules q₀) (hr : Rule.AllBuiltIn rules)
    (h₀ : q₀.Reducible) (hs : g.state? s = some st) :
    st.query.Reducible ∧ q₀.Traced st.query := by
  refine h.preserved (P:=fun q => q.Reducible ∧ q₀.Traced q) ⟨h₀,h₀.traced⟩ ?_ hs
  intro x q q' hq hx
  obtain ⟨out,hred,hq'⟩ := reducible_of_carries hr hq.1 hx
  exact ⟨hq',hred.traced hq.2 hq.1⟩

/-- A goal is as far away as the content shows effort. -/
theorem Faithful.dues_eq (h : g.Faithful rules q₀) (hr : Rule.AllBuiltIn rules)
    (h₀ : q₀.Reducible) (hg : g.GoalIn k s) (hs : g.state? s = some st) :
    st.query.gauged (.dues q₀) = k+1 := by
  induction hg generalizing st with
  | goal hgoal =>
    rw [isGoal,hs,Option.any_some] at hgoal
    exact Rule.dues_consolidated (h.traced hr h₀ hs).1.wellFormed hgoal
  | step ht rest ih =>
    obtain ⟨e,he,x,hx,rfl⟩ := mem_successors ht
    obtain ⟨a,b,q',ha,hb,hcarries,hcontent⟩ := h.step hx
    rw [h.source_of_out he hx,hs] at ha
    cases ha
    obtain ⟨hq,htraced⟩ := h.traced hr h₀ hs
    obtain ⟨out,hred,hq'⟩ := reducible_of_carries hr hq hcarries
    have hdrop := hred.dues_eq htraced hq
    have hsame : q'.gauged (.dues q₀) = b.query.gauged (.dues q₀) := by
      rw [← Query.gauged_content hq'.wellFormed.nested (Gauge.visible_dues q₀),hcontent,
        Query.gauged_content (h.traced hr h₀ hb).1.wellFormed.nested (Gauge.visible_dues q₀)]
    have hrest := ih hb
    omega

/-- All ways from a state to a goal are equally long. -/
theorem Faithful.even (h : g.Faithful rules q₀) (hr : Rule.AllBuiltIn rules)
    (h₀ : q₀.Reducible) : g.Even := by
  intro s k l hk hl
  have hlive : ∃ st, g.state? s = some st := by
    cases hs : g.state? s with
    | some st => exact ⟨st,rfl⟩
    | none =>
      cases hk with
      | goal hgoal =>
        rw [isGoal,hs] at hgoal
        cases hgoal
      | step ht =>
        obtain ⟨e,he,-⟩ := mem_successors ht
        rw [out,hs] at he
        cases he
  obtain ⟨st,hst⟩ := hlive
  have hdk := h.dues_eq hr h₀ hk hst
  have hdl := h.dues_eq hr h₀ hl hst
  omega

end GraphPattern.SearchGraph
