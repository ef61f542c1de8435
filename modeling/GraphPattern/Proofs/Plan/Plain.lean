import GraphPattern.Proofs.Plan.Solution
import GraphPattern.Proofs.Rule.Plain

/-!
# Plans for plain queries

A query without subqueries and annotations that validation accepts is always planned. Every vertex,
every edge and every constraint takes one step, and the vertex that is left has all names.
-/

namespace GraphPattern

open SearchGraph

namespace Plan

variable {rules : List Rule} {config : SearchConfig} {q : Query} {plan : Plan}

/-- The query to which a solved plan leads comes from the query that was planned. -/
theorem finalQuery_descends (h₀ : q.Regular) (hr : Rule.AllBuiltIn rules) (hred : q.Reducible)
    (h : ofQuery rules config q = .ok plan) (hs : plan.isSolved = true) :
    ∃ final f, plan.finalQuery? = some final ∧ final.isConsolidated = true ∧ q.Descends final f := by
  obtain ⟨hf,F,es,hfirst,hpath⟩ := first_of_isSolved hr hred h hs
  obtain ⟨st,hst,rfl⟩ := hf.start
  obtain ⟨⟨t,u,hlast,hu,hcons,-⟩,-⟩ := hfirst.leads.replays hst
  have hsolvable := hfirst.leads.solvable hr hst h₀.wellFormed
  obtain ⟨f,hdesc⟩ := Query.exists_descends h₀ (hsolvable.settling h₀.wellFormed)
    (hf.reduced hr h₀.wellFormed hu)
  exact ⟨u.query,f,by rw [finalQuery?_eq hpath,hlast,Option.bind_some,hu]; rfl,hcons,hdesc⟩

/-- The only vertex of a consolidated query has all names of the query that it comes from. -/
theorem names_of_consolidated {final : Query} {f : ItemId → ItemId} (h : q.WellFormed)
    (hf : q.Descends final f) (hc : final.isConsolidated = true) :
    ∃ v x, final.item? v = some x ∧ x.kind = .composite ∧
      (∀ i y, final.item? i = some y → i = v) ∧
      ∀ n, n ∈ x.names ↔ ∃ i ∈ q.vertices .whole ++ q.edges .whole, n ∈ q.itemNames i := by
  obtain ⟨v,x,hx,hset,honly,-,-⟩ := Query.eq_of_consolidated hf.wellFormed hc
  refine ⟨v,x,hx,hset.kind,honly,fun n => ?_⟩
  rw [← Query.itemNames_of_some hx,hf.names]
  constructor
  · rintro ⟨i,-,hn⟩
    obtain ⟨y,hy,-⟩ := Query.mem_itemNames.mp hn
    refine ⟨i,List.mem_append.mpr ?_,hn⟩
    cases hyv : y.isVertex with
    | true => exact .inl (h.mem_vertices.mpr ⟨y,hy,hyv⟩)
    | false => exact .inr (h.mem_edges.mpr ⟨y,hy,hyv⟩)
  · rintro ⟨i,-,hn⟩
    obtain ⟨y,hy,-⟩ := Query.mem_itemNames.mp hn
    obtain ⟨w,hw⟩ := hf.live h hy
    exact ⟨i,honly _ w hw,hn⟩

/-- The length of a plan for a plain query. -/
theorem length_steps_of_plain {d : Description} (hq : d.build = .ok q) (hp : q.Plain)
    (hr : Rule.AllBuiltIn rules) (h : ofQuery rules config q = .ok plan)
    (hs : plan.isSolved = true) : plan.steps.length =
      (q.vertices .whole).length + (q.edges .whole).length + (q.constraints .whole).length := by
  have hw := Description.written_build hq
  have heffort := effort_eq hr hw.reducible h hs
  rw [Query.effort_plain hw.wellFormed fun hx => (hw.item hx).plain,hp.subqueries,List.length_nil,
    List.filter_nil,List.length_nil] at heffort
  have hbare : ((q.vertices .whole).filter fun v => (q.itemBounds v).isNone) = q.vertices .whole :=
    List.filter_eq_self.mpr fun v _ => by rw [hp.bounds]; rfl
  have hbound : ((q.vertices .whole).filter fun v =>
      ((q.itemBounds v).bind Annotation.max).isSome) = [] :=
    List.filter_eq_nil_iff.mpr fun v _ => by rw [hp.bounds]; exact Bool.false_ne_true
  rw [hbare,hbound,List.length_nil] at heffort
  omega

/-- Two vertices, an edge between them, a self-loop and a constraint, as they are written. -/
def looped : String :=
  "\x7b\"name\":\"q\",\"vertices\":[[\"A\"],[\"B\"]]," ++
  "\"edges\":[[\"e\",\"A\",\"B\"],[\"f\",\"A\",\"A\"]]," ++
  "\"constraints\":[[\"ne\",\x7b\"item\":\"A\"\x7d,\x7b\"item\":\"B\"\x7d]]\x7d"

/-- A query is plain if computing shows it. -/
theorem plain_of_all (h : ((q.subqueries .whole).isEmpty &&
    (q.items.live.all (·.bounds.isNone)) && (q.constraints .whole).all (·.bounds.isNone)) = true) :
    q.Plain := by
  simp only [Bool.and_eq_true,List.isEmpty_iff,List.all_eq_true,Option.isNone_iff_eq_none] at h
  refine ⟨h.1.1,fun {i} => ?_,h.2⟩
  cases hx : q.item? i with
  | none => rw [Query.itemBounds,hx]; rfl
  | some x => exact (Query.itemBounds_of_some hx).trans (h.1.2 x (Arena.mem_live.mpr ⟨i.index,hx⟩))

/-- What they describe. -/
def loopedDescription : Description :=
  ⟨"q","",⟨[⟨"A",none,none⟩,⟨"B",none,none⟩],
    [⟨"e","A","B",false,none,none⟩,⟨"f","A","A",false,none,none⟩],
    [⟨"ne",.item "A" none,.item "B" none,none,none⟩],[],[]⟩,[]⟩

end Plan

end GraphPattern
