import GraphPattern.Execution
import GraphPattern.Proofs.Rule.Changes
import GraphPattern.Proofs.Rule.Replay

/-!
# Replaying the steps of a plan

A step of a plan does to the registry what the ledger says, whatever the data are, and fails where
the ledger has no answer. That needs some things of the query before the step which validation has
checked and which every reduction keeps.
-/

/-!
## The ledger of a run

The names under which a run keeps tables, step by step, without the tables. A replayed step takes
the entries of the composite vertices that take part and writes one entry, in one of a few ways that
depend on the rule alone. A run is in order if every entry that a step takes is there, if no entry
that must be new exists, and if in the end the result alone remains.
-/

namespace GraphPattern

open Step Workspace

/-- How a rule writes its entry. -/
inductive Writing where
  /-- It writes none. -/
  | nothing
  /-- It changes an entry that must be there. -/
  | inPlace
  /-- It takes entries and writes another one, whatever there was. -/
  | replacing
  /-- It takes entries and writes another one, which must be new. -/
  | anew
deriving DecidableEq

/-- How a rule of the library writes its entry. -/
def Rule.writing (rule : Rule) : Writing :=
  if rule.name = eliminateSubquery.name then .nothing
  else if rule.name = applyUpperLimit.name ∨ rule.name = processConstraint.name then .inPlace
  else if rule.name = absorbSelfLoop.name then .replacing
  else .anew

namespace PlanStep

/-- The names of the composite vertices that take part in a step. -/
def taken (s : PlanStep) : List String :=
  s.step.application.items.flatMap fun i => (s.before.item? i).elim [] held

/-- The names after a step is replayed, if it can be. -/
def replayed? (s : PlanStep) (names : List String) : Option (List String) :=
  let result := s.step.result.joinedName
  let rest := names.filter (· ∉ s.taken)
  let offered := s.taken.Nodup ∧ ∀ n ∈ s.taken, n ∈ names
  match s.step.rule.writing with
  | .nothing => some names
  | .inPlace => if result ∈ names then some (insertOrdered result names) else none
  | .replacing => if offered then some (insertOrdered result rest) else none
  | .anew => if offered ∧ result ∉ rest then some (insertOrdered result rest) else none

end PlanStep

namespace Execution

/-- The names after several steps, if they can be taken. -/
def ledger? : List (PlanStep × StepMode) → List String → Option (List String)
  | [], names => some names
  | (s, mode) :: steps, names =>
    match mode with
    | .skip => ledger? steps names
    | .fetch _ => ledger? steps (insertOrdered s.step.result.joinedName names)
    | .execute => (s.replayed? names).bind (ledger? steps)

/-- The names of the results that are fetched. -/
def fetched (steps : List (PlanStep × StepMode)) : List String :=
  steps.filterMap fun (s, mode) =>
    match mode with
    | .fetch _ => some s.step.result.joinedName
    | _ => none

/-- Every step finds the entries that it needs, and in the end the result alone remains. -/
def InOrder (finalName : String) (steps : List (PlanStep × StepMode)) : Prop :=
  (ledger? steps []).map (List.filter fun n => n = finalName ∨ n ∉ fetched steps) =
    some [finalName]

instance (finalName : String) (steps : List (PlanStep × StepMode)) :
    Decidable (InOrder finalName steps) :=
  inferInstanceAs (Decidable (_ = _))

end Execution

end GraphPattern

/-! ## Replays -/

namespace GraphPattern

open Step Workspace

/-- A constraint that can be enforced: it compares, and one of its operands is an item. -/
structure Constraint.Decided (k : Constraint) : Prop where
  /-- The operator compares two operands. -/
  binary : ∃ operator, Comparison.ofKeyword? k.operator = some operator ∧ operator.isBinary = true
  /-- An operand is an item. -/
  item : ¬(k.left.isLiteral = true ∧ k.right.isLiteral = true)

/-- A query whose reductions can be replayed. -/
structure Query.Replayable (q : Query) : Prop where
  /-- Plans can be made of it. -/
  plannable : q.Plannable
  /-- Every marker has an upper bound. -/
  limited : ∀ {i x m}, q.item? i = some x → x.provenance = some m → m.max.isSome = true
  /-- Every constraint can be enforced. -/
  decided : ∀ {c C k}, q.container? c = some C → k ∈ C.constraints → k.Decided

namespace Rule

open Query

/-- The marker of the vertex that comes out has an upper bound. -/
theorem Reduction.limited {q q' : Query} {rule : Rule} {a : Application} {out : ItemId}
    (h : q.WellFormed) (hr : Reduction q rule a q' out) {y : Item} {m : Provenance}
    (hy : q'.item? out = some y) (hm : y.provenance = some m) : m.max.isSome = true := by
  obtain ⟨-,-,-,-,-,-,-,max,name,-,-,-,-,-,-,-,-,rfl⟩ := hr.marking h hy hm
  rfl

/-- Every marker has an upper bound after a reduction if every one had before. -/
theorem Reduction.keeps_limited {q q' : Query} {rule : Rule} {a : Application} {out : ItemId}
    (h : q.WellFormed) (hr : Reduction q rule a q' out)
    (hl : ∀ {i x m}, q.item? i = some x → x.provenance = some m → m.max.isSome = true)
    {i : ItemId} {y : Item} {m : Provenance} (hy : q'.item? i = some y)
    (hm : y.provenance = some m) : m.max.isSome = true := by
  by_cases hi : i = out
  · exact hr.limited h (hi ▸ hy) hm
  · obtain ⟨-,x,hx,hf⟩ := (hr.changes h).back hy hi
    exact hl hx (hf.provenance.symm.trans hm)

/-- What a reduction leaves can be replayed again. -/
theorem Reduction.replayable {q q' : Query} {rule : Rule} {a : Application} {out : ItemId}
    (h : q.Replayable) (hr : Reduction q rule a q' out) (hq : q'.Plannable) : q'.Replayable where
  plannable := hq
  limited := hr.keeps_limited h.plannable.wellFormed h.limited
  decided hC hk := by
    obtain ⟨d,D,hD,hm⟩ := (hr.changes h.plannable.wellFormed).constraints hC hk
    exact h.decided hD hm

end Rule

/-! ## Numbers of objects -/

/-- Every row begins with the number of an object or a link. -/
def Numbered (rows : Rows) : Prop := ∀ row ∈ rows, ∃ i, Table.cell row 0 = .int i

namespace Numbered

open Matches Table

variable {rows rows' : Rows} {lk rk ps : List Nat} {picks : List (JoinSide × Nat)}

theorem append (h : Numbered rows) (h' : Numbered rows') : Numbered (rows ++ rows') := by
  intro row hr
  rcases List.mem_append.mp hr with hr|hr
  · exact h row hr
  · exact h' row hr

theorem filter (h : Numbered rows) (p : List Value → Bool) : Numbered (rows.filter p) :=
  fun row hr => h row (List.mem_filter.mp hr).1

theorem laid (h : Numbered rows) : Numbered (laid rows) := by
  intro row hr
  obtain ⟨r,hm,rfl⟩ := List.mem_map.mp hr
  exact h r hm

theorem distinct (h : Numbered rows) : Numbered (distinctRows [0,1,2] rows) := by
  intro row hr
  obtain ⟨r,hm,rfl⟩ := mem_distinctRows.mp hr
  exact h r hm

theorem join (h : Numbered rows) : Numbered (joinRows lk rk ((.left,0) :: picks) rows rows') := by
  intro row hr
  obtain ⟨l,hl,r,-,-,rfl⟩ := mem_joinRows.mp hr
  exact h l hl

theorem ofObjects (s : Store) (condition : Option Condition) (name : String) :
    Numbered (ofObjects s condition name) := by
  intro row hr
  obtain ⟨r,hm,rfl⟩ := List.mem_map.mp hr
  obtain ⟨i,hi,rfl⟩ := List.mem_mapIdx.mp hm
  have hm := List.getElem_mem hi
  obtain ⟨e,-,he⟩ := List.mem_map.mp hm
  rw [← he]
  exact ⟨e.1,rfl⟩

end Numbered

namespace Workspace

variable {w w' : Workspace} {taken : List String} {name : String} {O L : Rows} {x : Item}
  {X : Rows × Rows}

/-- The registry is sound, its objects have numbers, and no scratch table is left. -/
structure Orderly (w : Workspace) : Prop where
  /-- The registry is sound. -/
  sound : w.Sound
  /-- The objects of every entry have numbers. -/
  numbered : ∀ {n O L}, w.Entry n O L → Numbered O
  /-- No scratch table is left. -/
  tidy : w.scratch = []

theorem Orderly.supplied (h : w.Orderly) (hX : w.Supplies x X) : Numbered X.1 := by
  rw [Supplies] at hX
  split at hX
  · exact h.numbered hX
  · rw [hX]
    exact .ofObjects w.store x.condition x.firstName

theorem Orderly.wrote (h : w.Orderly) (hw : Wrote w taken name O L w') (hO : Numbered O) :
    w'.Orderly where
  sound := hw.sound
  tidy := hw.scratch.trans h.tidy
  numbered {n O' L'} he := by
    by_cases hn : n = name
    · rw [hn] at he
      rw [← (hw.entry.unique he).1]
      exact hO
    · exact h.numbered ((hw.others hn).mp he).2

/-- How often changes were made durable does not matter. -/
theorem Orderly.commits (h : w.Orderly) (n : Nat) :
    Orderly { w with store := { w.store with commits := n } } :=
  ⟨⟨fun he => by
      obtain ⟨O,L,ho,hl⟩ := h.sound.entry he
      exact ⟨O,L,⟨ho.bounded,ho.holds⟩,⟨hl.bounded,hl.holds⟩⟩,
    fun he => h.sound.pair he,fun he hf => h.sound.apart he hf⟩,fun he => h.numbered he,h.tidy⟩

end Workspace

namespace Numbered

open Matches Rule

variable {links : Rows} {X Z : Rows × Rows}

theorem kept {rows remaining : Rows} (h : Numbered rows) : Numbered (kept rows remaining) := h.join

theorem moved {rows pairs : Rows} {m n : Nat} (h : Numbered rows) :
    Numbered (moved m n rows pairs) := h.join

theorem absorbSelfLoop {y : Item} {ends : EdgeEnds} (h : Numbered X.1) :
    Numbered (AbsorbSelfLoop.result links y ends X).1 := h.kept

theorem collapseEdge {x y : Item} {ends : EdgeEnds} (hX : Numbered X.1) (hZ : Numbered Z.1) :
    Numbered (CollapseEdge.result links x y ends X Z).1 := by
  by_cases hn : x.hasName ends.sourceName = true
  · simp only [CollapseEdge.result,if_pos hn]
    exact hX.moved.append hZ.moved.laid
  · simp only [CollapseEdge.result,if_neg hn]
    exact hZ.moved.append hX.moved.laid

theorem absorbAnnotatedVertex {x y z : Item} {ends : EdgeEnds} (hX : Numbered X.1)
    (hZ : Numbered Z.1) : Numbered (AbsorbAnnotatedVertex.result links x y z ends X Z).1 :=
  (hX.kept.append hZ.moved.laid).distinct

theorem applyUpperLimit {item : String} {max : Nat} (h : Numbered X.1) :
    Numbered (ApplyUpperLimit.result item max X).1 := h.filter _

theorem processConstraint {s : Store} {k : Constraint} {operator : Comparison}
    (h : Numbered X.1) : Numbered (ProcessConstraint.result s k operator X).1 := h.kept

end Numbered

namespace PlanStep

open Query Rule

variable {s : PlanStep} {w w' : Workspace}

/-- The step is a reduction that can be replayed. -/
structure Carried (s : PlanStep) : Prop where
  /-- The query before it is one whose reductions can be replayed. -/
  replayable : s.before.Replayable
  /-- The rule reduces it, and the result is known by its names. -/
  reduced : ∃ q' out y, Reduction s.before s.step.rule s.step.application q' out ∧
    q'.item? out = some y ∧ s.step.result = ⟨y.joinedName,y.names⟩

/-- What replaying a step does to a workspace. -/
structure Replays (s : PlanStep) (w w' : Workspace) : Prop where
  /-- The names are those that the ledger gives. -/
  names : s.replayed? w.registry.keys = some w'.registry.keys
  /-- The registry is in order. -/
  orderly : w'.Orderly
  /-- The data are the same. -/
  data : w.store.SameData w'.store

theorem taken_eq {items : List ItemId} {xs : List Item} (hi : s.step.application.items = items)
    (hx : List.Forall₂ (fun i x => s.before.item? i = some x) items xs) :
    s.taken = xs.flatMap held := by
  rw [taken,hi]
  clear hi
  induction hx with
  | nil => rfl
  | cons h _ ih => rw [List.flatMap_cons,List.flatMap_cons,h,ih]; rfl

theorem held_edge {y : Item} {ends : EdgeEnds} (he : y.ends? = some ends) : held y = [] := by
  have hk := Item.kind_edge_iff.mpr ⟨ends,he⟩
  rw [held,Item.isComposite,hk]
  rfl

/-- A rule about two vertices and the edge between them takes the tables of the vertices. -/
theorem taken_merging {v e u : ItemId} {x y z : Item} {ends : EdgeEnds} {edges : List ItemId}
    {c d : ContainerId} (hi : s.step.application.items = [v,e,u])
    (h : s.before.Absorbable e u v y z x ends edges c d) : s.taken = held x ++ held z := by
  rw [taken_eq hi (.cons h.kept (.cons h.edge (.cons h.absorbed .nil)))]
  simp only [List.flatMap_cons,held_edge h.ended,List.flatMap_nil,List.append_nil,List.nil_append]

theorem replayed?_anew (names : List String) (h : s.step.rule.writing = .anew) : s.replayed? names =
    if (s.taken.Nodup ∧ ∀ n ∈ s.taken, n ∈ names) ∧
      s.step.result.joinedName ∉ names.filter (· ∉ s.taken) then
      some (insertOrdered s.step.result.joinedName (names.filter (· ∉ s.taken))) else none := by
  rw [replayed?,h]

theorem replayed?_replacing (names : List String) (h : s.step.rule.writing = .replacing) :
    s.replayed? names = if s.taken.Nodup ∧ ∀ n ∈ s.taken, n ∈ names then
      some (insertOrdered s.step.result.joinedName (names.filter (· ∉ s.taken))) else none := by
  rw [replayed?,h]

theorem replayed?_inPlace (names : List String) (h : s.step.rule.writing = .inPlace) :
    s.replayed? names = if s.step.result.joinedName ∈ names then
      some (insertOrdered s.step.result.joinedName names) else none := by
  rw [replayed?,h]

theorem filter_untaken (names : List String) : names.filter (· ∉ ([] : List String)) = names :=
  List.filter_eq_self.mpr fun _ _ => rfl

/-- A step is replayed as the ledger says. -/
theorem outcome_replay (hc : s.Carried) (hw : w.Orderly) :
    Outcome (s.step.rule.replay s.replay) w (fun _ w' => s.Replays w w')
      (s.replayed? w.registry.keys = none) := by
  obtain ⟨h,q',out,y,hr,hy,hres⟩ := hc
  generalize hrule : s.step.rule = rule at hr
  generalize happ : s.step.application = a at hr
  have hitems : s.replay.application.items = a.items := congrArg Application.items happ
  cases hr with
  | @getVertex v x edges c live kind bounds listed owner unmarked =>
    have hnames := replayed?_anew (s:=s) w.registry.keys (by rw [hrule]; rfl)
    have ht : s.taken = [] := by
      rw [taken_eq hitems (.cons live .nil),List.flatMap_cons,held,Item.isComposite,kind]
      rfl
    rw [ht,filter_untaken] at hnames
    refine (GetVertex.outcome_replay hw.sound hitems live).imp (fun _ w' hw' => ?_) fun hf => ?_
    · obtain ⟨hn,hw'⟩ := hw'
      refine ⟨?_,hw.wrote hw' (.ofObjects _ _ _),hw'.data⟩
      rw [hnames,if_pos ⟨⟨List.nodup_nil,fun _ h => absurd h List.not_mem_nil⟩,hn⟩,hw'.keys,
        filter_untaken]
      rfl
    · rw [hnames,if_neg fun hn => hf hn.2]
  | @absorbSelfLoop _ e x y' ends c live settled edge ended loop owner bounds unmarked =>
    have hnames := replayed?_replacing (s:=s) w.registry.keys (by rw [hrule]; rfl)
    have ht : s.taken = held x := by
      rw [taken_eq hitems (.cons live (.cons edge .nil))]
      simp only [List.flatMap_cons,held_edge ended,List.flatMap_nil,List.append_nil]
    rw [ht] at hnames
    refine (AbsorbSelfLoop.outcome_replay hw.sound hitems live edge ended).imp
      (fun _ w' hw' => ?_) fun hf => ?_
    · obtain ⟨ho,X,hX,hw'⟩ := hw'
      refine ⟨?_,hw.wrote hw' (.absorbSelfLoop (hw.supplied hX)),hw'.data⟩
      exact (hnames.trans (if_pos ho)).trans (congrArg some hw'.keys.symm)
    · exact hnames.trans (if_neg hf)
  | @collapseEdge _ e u x y' z ends edges c d able settled settled' unmarked together =>
    have hnames := replayed?_anew (s:=s) w.registry.keys (by rw [hrule]; rfl)
    rw [taken_merging hitems able] at hnames
    refine (CollapseEdge.outcome_replay hw.sound hitems able.kept able.edge able.absorbed
      able.ended).imp (fun _ w' hw' => ?_) fun hf => ?_
    · obtain ⟨ho,X,Z,hX,hZ,hw'⟩ := hw'
      refine ⟨?_,hw.wrote hw' (.collapseEdge (hw.supplied hX) (hw.supplied hZ)),hw'.data⟩
      exact (hnames.trans (if_pos ho)).trans (congrArg some hw'.keys.symm)
    · exact hnames.trans (if_neg hf)
  | @absorbAnnotatedVertex _ e u x y' z ends c d a marker able settled bounds annotated unmarked
      unmarked' together marking marked =>
    have hnames := replayed?_anew (s:=s) w.registry.keys (by rw [hrule]; rfl)
    rw [taken_merging hitems able] at hnames
    refine (AbsorbAnnotatedVertex.outcome_replay hw.sound hitems able.kept able.edge able.absorbed
      able.ended).imp (fun _ w' hw' => ?_) fun hf => ?_
    · obtain ⟨ho,X,Z,hX,hZ,hw'⟩ := hw'
      refine ⟨?_,hw.wrote hw' (.absorbAnnotatedVertex (hw.supplied hX) (hw.supplied hZ)),hw'.data⟩
      exact (hnames.trans (if_pos ho)).trans (congrArg some hw'.keys.symm)
    · exact hnames.trans (if_neg hf)
  | @applyUpperLimit _ x marker live kind bounds marked =>
    have hnames := replayed?_inPlace (s:=s) w.registry.keys (by rw [hrule]; rfl)
    rw [item?_mapItem,if_pos rfl,live] at hy
    cases hy
    have hname : s.step.result.joinedName = x.joinedName := by rw [hres]; rfl
    obtain ⟨max,hmax⟩ := Option.isSome_iff_exists.mp (h.limited live marked)
    refine (ApplyUpperLimit.outcome_replay hw.sound hitems live marked hmax).imp
      (fun _ w' hw' => ?_) fun hf => ?_
    · obtain ⟨hk,X,hX,hw'⟩ := hw'
      refine ⟨?_,hw.wrote hw' (.applyUpperLimit (hw.numbered hX)),hw'.data⟩
      rw [hnames,hname,if_pos hk,hw'.keys,filter_untaken]
      exact congrArg (fun n => some (insertOrdered n _)) hname.symm
    · rw [hnames,hname,if_neg hf]
  | @eliminateSubquery _ x S p C live settled owner inner parent alone =>
    have hnames : s.replayed? w.registry.keys = some w.registry.keys := by
      rw [replayed?,hrule]
      rfl
    exact .of_ok rfl ⟨hnames,hw,.refl _⟩
  | @processConstraint _ x k found c C rest live settled declared bounds inside owner first carried =>
    have hnames := replayed?_inPlace (s:=s) w.registry.keys (by rw [hrule]; rfl)
    obtain ⟨d,D,hD,hk⟩ := exists_container_of_mem declared
    obtain ⟨⟨operator,ho,hb⟩,hc⟩ := h.decided hD hk
    have hsettled : s.replay.application.constraint = some k :=
      congrArg Application.constraint happ
    refine (ProcessConstraint.outcome_replay hw.sound hsettled ho hb hc).imp
      (fun _ w' hw' => ?_) fun hf => ?_
    · obtain ⟨hn,X,hX,hw'⟩ := hw'
      refine ⟨(hnames.trans (if_pos hn)).trans ?_,
        hw.wrote hw' (.processConstraint (hw.numbered hX)),hw'.data⟩
      rw [hw'.keys,filter_untaken]
      rfl
    · exact hnames.trans (if_neg hf)

end PlanStep

end GraphPattern
