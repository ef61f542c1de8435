import GraphPattern.Proofs.Constraint
import GraphPattern.Proofs.Matches.Rows

/-!
# Matches that satisfy a constraint

A binding satisfies a constraint if some value of the left operand and some value of the right one
stand in the relation. That depends on what is bound to the items of the constraint alone, and
constraints that state the same relation are satisfied together.
-/

namespace GraphPattern

open Table

namespace Binary64

theorem compare?_swap (x y : Binary64) : y.compare? x = (x.compare? y).map Ordering.swap := by
  rw [compare?,compare?,Bool.or_comm]
  split
  · rfl
  · exact congrArg some (Std.OrientedCmp.eq_swap)

end Binary64

namespace Value

theorem compare?_swap (a b : Value) : b.compare? a = (a.compare? b).map Ordering.swap := by
  cases a <;> cases b <;> simp only [compare?,Option.map_none,Option.map_some,
    ← Binary64.compare?_swap]
  all_goals exact congrArg some Std.OrientedCmp.eq_swap

/-- Equal numbers compare alike. -/
theorem compare?_congr {a b c : Value} (h : a.sameValue b = true) : a.compare? c = b.compare? c := by
  rcases sameValue_iff.mp h with ⟨x,y,rfl,rfl,hxy⟩|⟨rfl,-⟩
  · obtain ⟨⟨hx,hy⟩,hr⟩ := Binary64.sameValue_iff.mp hxy
    cases c <;> simp only [compare?,Binary64.compare?,hx,hy,hr]
  · rfl

end Value

namespace Comparison

theorem holds_eq {op : Comparison} (h : op.isBinary = true) (a b : Value) :
    op.holds a b = op.admitsOrdering (a.compare? b) := by
  cases op <;> first | rfl | cases h

/-- Exchanging the operands exchanges the operator. -/
theorem holds_swapped {op : Comparison} (h : op.isBinary = true) (a b : Value) :
    op.swapped.holds a b = op.holds b a := by
  have hadmits : ∀ o : Option Ordering,
      op.swapped.admitsOrdering o = op.admitsOrdering (o.map Ordering.swap) := fun o => by
    rcases o with _|_|_|_ <;> cases op <;> rfl
  have hbinary : op.swapped.isBinary = true := by
    cases op <;> first | rfl | cases h
  rw [holds_eq hbinary,holds_eq h,Value.compare?_swap a b]
  exact hadmits _

/-- Equal numbers satisfy the same operators. -/
theorem holds_congr {op : Comparison} (h : op.isBinary = true) {a a' : Value}
    (ha : a.sameValue a' = true) (b : Value) :
    op.holds a b = op.holds a' b ∧ op.holds b a = op.holds b a' := by
  rw [holds_eq h,holds_eq h,holds_eq h,holds_eq h,Value.compare?_swap a b,Value.compare?_swap a' b,
    Value.compare?_congr ha]
  exact ⟨rfl,rfl⟩

end Comparison

/-- The values of an operand under a binding: the identifiers of its item, the values of their
attribute, or the constant. -/
def Store.valuesIn (s : Store) (kind : SourceKind) (c : Binding) : Operand → Set Value
  | .item name none => {v | ∃ i ∈ c kind name, v = .int i}
  | .item name (some attr) => {v | ∃ i ∈ c kind name, ∃ attributes,
      (i,attributes) ∈ s.bearers kind ∧ attributes.find? attr = some v ∧ v.isNull = false}
  | .literal value => {value}

namespace Constraint

/-- What the constraint is about. -/
def kind (k : Constraint) : SourceKind := if k.onEdges then .link else .object

/-- Some values of the operands stand in the relation. -/
def HoldsIn (k : Constraint) (s : Store) (c : Binding) : Prop :=
  ∃ operator, Comparison.ofKeyword? k.operator = some operator ∧
    ∃ v ∈ s.valuesIn k.kind c k.left, ∃ w ∈ s.valuesIn k.kind c k.right, operator.holds v w = true

/-- Both state the same relation, both between objects or both between links. -/
def Alike (k l : Constraint) : Prop := k.sameRelation l = true ∧ k.onEdges = l.onEdges

theorem Alike.trans {k l m : Constraint} (h : k.Alike l) (h' : l.Alike m) : k.Alike m :=
  ⟨sameRelation_trans h.1 h'.1,h.2.trans h'.2⟩

/-- Constraints that state the same relation are satisfied together. -/
theorem HoldsIn.of_alike {k l : Constraint} {s : Store} {c : Binding} (h : k.HoldsIn s c)
    (hb : (Comparison.ofKeyword? k.operator).any Comparison.isBinary = true) (hkl : k.Alike l) :
    l.HoldsIn s c := by
  obtain ⟨hrelation,hedges⟩ := hkl
  obtain ⟨ho,hl,hr⟩ := sameRelation_iff.mp hrelation
  have hkind : k.kind = l.kind := by rw [kind,kind,hedges]
  obtain ⟨op,hop,v,hv,w,hw,hvw⟩ := h
  rw [hop,Option.any_some] at hb
  -- Operands that are the same have equal values.
  have hvalue : ∀ {o o' : Operand}, o.sameOperand o' = true → ∀ v ∈ s.valuesIn k.kind c o,
      ∃ v' ∈ s.valuesIn l.kind c o', ∀ w, op.holds v w = op.holds v' w ∧
        op.holds w v = op.holds w v' := fun {o o'} hsame v hv => by
    rcases Operand.sameOperand_iff.mp hsame with ⟨x,y,rfl,rfl,hxy⟩|⟨rfl,-⟩
    · obtain rfl := Set.mem_singleton_iff.mp hv
      exact ⟨y,rfl,Comparison.holds_congr hb hxy⟩
    · exact ⟨v,hkind ▸ hv,fun _ => ⟨rfl,rfl⟩⟩
  obtain ⟨v',hv',heq⟩ := hvalue hl v hv
  obtain ⟨w',hw',heq'⟩ := hvalue hr w hw
  refine ⟨op,ho ▸ hop,v',hv',w',hw',?_⟩
  rw [← (heq' v').2,← (heq w).1]
  exact hvw

end Constraint

namespace Matches

variable {s : Store} {X : Rows × Rows} {F : Set Binding} {g : Int} {row : List Value}
  {kind : SourceKind} {k : Constraint} {operator : Comparison}

theorem mem_attributeRows {attr : String} : row ∈ s.attributeRows kind attr ↔ ∃ i v attributes,
    ((i,attributes) ∈ s.bearers kind ∧ attributes.find? attr = some v ∧ v.isNull = false) ∧
      [.int i,v] = row := by
  rw [Store.attributeRows,List.mem_filterMap]
  constructor
  · rintro ⟨⟨i,attributes⟩,he,h⟩
    obtain ⟨v,hv,rfl⟩ := Option.map_eq_some_iff.mp h
    obtain ⟨hv,hn⟩ := Option.filter_eq_some_iff.mp hv
    exact ⟨i,v,attributes,⟨he,hv,by simpa using hn⟩,rfl⟩
  · rintro ⟨i,v,attributes,⟨he,hv,hn⟩,rfl⟩
    refine ⟨_,he,?_⟩
    rw [hv,Option.filter_some,if_pos (by simp [hn])]
    rfl

section Operands

variable (hX : ∀ row ∈ rowsOf X kind, ∃ r : MatchRow, r.cells = row)

include hX

/-- The values of an operand stand after the numbers of the matches. -/
theorem mem_valuesOf {name : String} {attr : Option String} :
    row ∈ Rule.ProcessConstraint.valuesOf s kind name attr (rowsOf X kind) ↔ ∃ g v,
      v ∈ s.valuesIn kind (bound X g) (.item name attr) ∧ [.int g,v] = row := by
  cases attr with
  | none =>
    rw [Rule.ProcessConstraint.valuesOf,mem_distinctRows]
    constructor
    · rintro ⟨r,hr,rfl⟩
      obtain ⟨⟨i,g,n⟩,rfl⟩ := hX r (List.mem_filter.mp hr).1
      obtain ⟨hi,rfl⟩ := mem_named.mp hr
      exact ⟨g,.int i,⟨i,hi,rfl⟩,rfl⟩
    · rintro ⟨g,_,⟨i,hi,rfl⟩,rfl⟩
      exact ⟨_,mem_named.mpr ⟨hi,rfl⟩,rfl⟩
  | some attr =>
    rw [Rule.ProcessConstraint.valuesOf,mem_joinRows]
    constructor
    · rintro ⟨r,hr,t,ht,ha,rfl⟩
      obtain ⟨⟨i,g,n⟩,rfl⟩ := hX r (List.mem_filter.mp hr).1
      obtain ⟨hi,rfl⟩ := mem_named.mp hr
      obtain ⟨j,v,attributes,hv,rfl⟩ := mem_attributeRows.mp ht
      have hj : j = i := Value.int.inj (List.cons.inj (agree_iff.mp ha).2).1
      exact ⟨g,v,⟨i,hi,attributes,hj ▸ hv⟩,rfl⟩
    · rintro ⟨g,v,⟨i,hi,attributes,hv⟩,rfl⟩
      refine ⟨_,mem_named.mpr ⟨hi,rfl⟩,_,mem_attributeRows.mpr ⟨i,v,attributes,hv,rfl⟩,
        agree_iff.mpr ⟨fun p hp => ?_,rfl⟩,rfl⟩
      cases List.mem_singleton.mp hp
      rfl

/-- A match is found to satisfy a relation if some values of the operands do. -/
theorem exists_holding (hb : operator.isBinary = true) {left right : Operand}
    (hc : ¬(left.isLiteral = true ∧ right.isLiteral = true)) :
    (∃ r ∈ Rule.ProcessConstraint.holding s kind operator (rowsOf X kind) left right,
      cell r 0 = .int g) ↔ ∃ v ∈ s.valuesIn kind (bound X g) left,
        ∃ w ∈ s.valuesIn kind (bound X g) right, operator.holds v w = true := by
  cases left with
  | item name attr =>
    cases right with
    | literal value =>
      constructor
      · rintro ⟨r,hr,hg⟩
        obtain ⟨hr,hv⟩ := List.mem_filter.mp hr
        obtain ⟨g',v,hmem,rfl⟩ := (mem_valuesOf hX).mp hr
        cases hg
        exact ⟨v,hmem,value,rfl,hv⟩
      · rintro ⟨v,hmem,_,rfl,hv⟩
        exact ⟨_,List.mem_filter.mpr ⟨(mem_valuesOf hX).mpr ⟨g,v,hmem,rfl⟩,hv⟩,rfl⟩
    | item name' attr' =>
      constructor
      · rintro ⟨r,hr,hg⟩
        obtain ⟨hr,hv⟩ := List.mem_filter.mp hr
        obtain ⟨l,hl,t,ht,ha,rfl⟩ := mem_joinRows.mp hr
        obtain ⟨g₁,v,hmem,rfl⟩ := (mem_valuesOf hX).mp hl
        obtain ⟨g₂,w,hmem',rfl⟩ := (mem_valuesOf hX).mp ht
        have hg₂ : g₂ = g₁ := Value.int.inj (List.cons.inj (agree_iff.mp ha).2).1
        have hg₁ : g₁ = g := Value.int.inj hg
        exact ⟨v,hg₁ ▸ hmem,w,hg₁ ▸ hg₂ ▸ hmem',hv⟩
      · rintro ⟨v,hmem,w,hmem',hv⟩
        refine ⟨_,List.mem_filter.mpr ⟨mem_joinRows.mpr ⟨_,(mem_valuesOf hX).mpr ⟨g,v,hmem,rfl⟩,_,
          (mem_valuesOf hX).mpr ⟨g,w,hmem',rfl⟩,agree_iff.mpr ⟨fun p hp => ?_,rfl⟩,rfl⟩,hv⟩,rfl⟩
        cases List.mem_singleton.mp hp
        rfl
  | literal value =>
    cases right with
    | literal value' => exact absurd ⟨rfl,rfl⟩ hc
    | item name attr =>
      constructor
      · rintro ⟨r,hr,hg⟩
        obtain ⟨hr,hv⟩ := List.mem_filter.mp hr
        obtain ⟨g',v,hmem,rfl⟩ := (mem_valuesOf hX).mp hr
        cases hg
        exact ⟨value,rfl,v,hmem,(Comparison.holds_swapped hb v value).symm.trans hv⟩
      · rintro ⟨_,rfl,v,hmem,hv⟩
        exact ⟨_,List.mem_filter.mpr ⟨(mem_valuesOf hX).mpr ⟨g,v,hmem,rfl⟩,
          (Comparison.holds_swapped hb v _).trans hv⟩,rfl⟩

end Operands

/-- The rows of both kinds are kept for the matches that are found to satisfy the relation. -/
theorem result_eq : Rule.ProcessConstraint.result s k operator X =
    (kept X.1 (distinctRows [0] (Rule.ProcessConstraint.holding s k.kind operator
        (rowsOf X k.kind) k.left k.right)),
      kept X.2 (distinctRows [0] (Rule.ProcessConstraint.holding s k.kind operator
        (rowsOf X k.kind) k.left k.right))) := by
  rw [Rule.ProcessConstraint.result,Constraint.kind]
  cases k.onEdges <;> rfl

/-- A match is found if it satisfies the constraint. -/
theorem exists_holding_iff (hX : ∀ row ∈ rowsOf X k.kind, ∃ r : MatchRow, r.cells = row)
    (ho : Comparison.ofKeyword? k.operator = some operator) (hb : operator.isBinary = true)
    (hc : ¬(k.left.isLiteral = true ∧ k.right.isLiteral = true)) :
    (∃ r ∈ Rule.ProcessConstraint.holding s k.kind operator (rowsOf X k.kind) k.left k.right,
      cell r 0 = .int g) ↔ k.HoldsIn s (bound X g) := by
  rw [exists_holding hX hb hc]
  constructor
  · exact fun h => ⟨operator,ho,h⟩
  · rintro ⟨operator',ho',h⟩
    cases Option.some_inj.mp (ho.symm.trans ho')
    exact h

/-- The matches that satisfy a constraint are kept. -/
theorem describes_processConstraint (hX : Proper X)
    (ho : Comparison.ofKeyword? k.operator = some operator) (hb : operator.isBinary = true)
    (hc : ¬(k.left.isLiteral = true ∧ k.right.isLiteral = true)) :
    Describes (Rule.ProcessConstraint.result s k operator X)
      {g | g ∈ numbers X ∧ k.HoldsIn s (bound X g)} (bound X) := by
  have hkept : ∀ kind, Lists (kept (rowsOf X kind) (distinctRows [0]
      (Rule.ProcessConstraint.holding s k.kind operator (rowsOf X k.kind) k.left k.right))) kind
        {g | g ∈ numbers X ∧ k.HoldsIn s (bound X g)} (bound X) := by
    refine fun kind => lists_kept hX fun {g} _ => ?_
    rw [← exists_holding_iff (hX.cells k.kind) ho hb hc]
    constructor
    · rintro ⟨r,hr,hg⟩
      obtain ⟨f,hf,rfl⟩ := mem_distinctRows.mp hr
      exact ⟨f,hf,hg⟩
    · rintro ⟨f,hf,hg⟩
      exact ⟨_,mem_distinctRows.mpr ⟨f,hf,rfl⟩,hg⟩
  rw [result_eq]
  exact describes_of_lists (hkept .object) (hkept .link)
    (nodup_kept (hX.cells .object) (hX.nodup .object))
    (nodup_kept (hX.cells .link) (hX.nodup .link)) fun hg => hg.1

/-- Bindings that break the constraint are dropped. -/
theorem presents_processConstraint (hX : Presents X F)
    (ho : Comparison.ofKeyword? k.operator = some operator) (hb : operator.isBinary = true)
    (hc : ¬(k.left.isLiteral = true ∧ k.right.isLiteral = true)) :
    Presents (Rule.ProcessConstraint.result s k operator X) {c | c ∈ F ∧ k.HoldsIn s c} := by
  have h := hX.of_describes (p:=fun c => k.HoldsIn s c) (f:=id)
    (describes_processConstraint hX.toProper ho hb hc) (Set.injOn_id F)
  simpa only [id,exists_eq_right_right'] using h

end Matches

end GraphPattern

/-!
## Filtering by a constraint

What a run does when it replays a settled constraint, whatever the tables under the name of the
result hold: rows may occur more than once, and a match may have links and no objects.
-/

namespace GraphPattern.Rule.ProcessConstraint

open Step Matches Workspace

variable {w : Workspace} {r : Replay} {c : Constraint} {operator : Comparison} {O L : List MatchRow}

/-- A replay answers with the name of the result. -/
theorem answer_of_replay {a : Option String} {w' : Workspace} (h : replay r w = .ok a w') :
    a = some r.result.joinedName := by
  rw [replay] at h
  obtain ⟨_,_,-,h⟩ := bind_eq_ok.mp h
  obtain ⟨_,_,-,h⟩ := bind_eq_ok.mp h
  obtain ⟨_,_,-,h⟩ := bind_eq_ok.mp h
  cases h
  rfl

/-- The entry of the result loses the rows of the matches that break the constraint. All other rows
stay, in their order and as often as they were there. -/
theorem replay_filters (hw : w.Sound) (hc : r.application.constraint = some c)
    (ho : Comparison.ofKeyword? c.operator = some operator) (hb : operator.isBinary = true)
    (hl : ¬(c.left.isLiteral = true ∧ c.right.isLiteral = true))
    (he : w.Entry r.result.joinedName (O.map MatchRow.cells) (L.map MatchRow.cells)) :
    ∃ keep : Int → Bool,
      (∀ g, keep g = true ↔
        c.HoldsIn w.store (bound (O.map MatchRow.cells,L.map MatchRow.cells) g)) ∧
      ∃ w', replay r w = .ok (some r.result.joinedName) w' ∧
        w.Wrote [] r.result.joinedName ((O.filter fun t => keep t.subgraph).map MatchRow.cells)
          ((L.filter fun t => keep t.subgraph).map MatchRow.cells) w' := by
  refine ⟨fun g => (holding w.store c.kind operator
    (rowsOf (O.map MatchRow.cells,L.map MatchRow.cells) c.kind) c.left c.right).any
      fun row => Table.cell row 0 = .int g,fun g => ?_,?_⟩
  · rw [← exists_holding_iff (cells_rowsOf c.kind) ho hb hl,List.any_eq_true]
    simp only [decide_eq_true_eq]
  · have h := outcome_replay hw hc ho hb hl
    rw [Outcome] at h
    split at h
    · rename_i a w' ha
      obtain ⟨-,⟨O',L'⟩,he',hwrote⟩ := h
      obtain ⟨rfl,rfl⟩ := he.unique he'
      rw [answer_of_replay ha] at ha
      rw [result_eq,kept_eq_filter,kept_eq_filter] at hwrote
      exact ⟨w',ha,hwrote⟩
    · exact absurd he.mem_keys h

/-- A constraint between the ages of two vertices that were put together. -/
def aging : Replay where
  before := Query.bare "q" ""
  application := ⟨[⟨0⟩],["A.B"],some ⟨"lt",.item "A" (some "age"),.item "B" (some "age"),none,none,false⟩⟩
  result := ⟨"A.B",["A","B"]⟩

/-- Matches with ages that are null, missing or no numbers, with one row twice, with two objects under
one name, and with a link but no object. -/
def aged : Workspace where
  store := { Store.empty with
    created := 2
    tables := ⟨[(⟨1⟩,⟨Column.matched,[⟨1,1,"A"⟩,⟨2,1,"B"⟩,⟨2,1,"B"⟩,⟨3,2,"A"⟩,⟨2,2,"B"⟩,⟨5,3,"A"⟩,
        ⟨2,3,"B"⟩,⟨4,4,"A"⟩,⟨1,4,"A"⟩,⟨2,4,"B"⟩].map MatchRow.cells⟩),
      (⟨2⟩,⟨Column.matched,[⟨9,1,"e"⟩,⟨9,2,"e"⟩,⟨9,7,"e"⟩].map MatchRow.cells⟩)]⟩
    objects := ⟨[(1,⟨[("age",.int 3)]⟩),(2,⟨[("age",.int 5)]⟩),(3,⟨[("age",.null)]⟩),(4,.empty),
      (5,⟨[("age",.string "x")]⟩)]⟩
    links := ⟨[(9,⟨1,2,.empty⟩)]⟩ }
  registry := ⟨[("A.B",⟨⟨1⟩,⟨2⟩⟩)]⟩
  scratch := []

theorem sound_aged : aged.Sound := sound_of_entries (by decide) (by decide)

/-- A match with an object that has no age may be kept for another object under the same name, and a
row that occurs twice occurs twice still. -/
theorem replay_filters_aged : aged.Sound ∧
    ∃ w', ∃ O L : List MatchRow, replay aging aged = .ok (some "A.B") w' ∧
      aged.Wrote [] "A.B" (O.map MatchRow.cells) (L.map MatchRow.cells) w' ∧
      O = [⟨1,1,"A"⟩,⟨2,1,"B"⟩,⟨2,1,"B"⟩,⟨4,4,"A"⟩,⟨1,4,"A"⟩,⟨2,4,"B"⟩] ∧ L = [⟨9,1,"e"⟩] := by
  obtain ⟨keep,-,w',hw',hwrote⟩ := replay_filters (r:=aging)
    (c:=⟨"lt",.item "A" (some "age"),.item "B" (some "age"),none,none,false⟩)
    (O:=[⟨1,1,"A"⟩,⟨2,1,"B"⟩,⟨2,1,"B"⟩,⟨3,2,"A"⟩,⟨2,2,"B"⟩,⟨5,3,"A"⟩,⟨2,3,"B"⟩,⟨4,4,"A"⟩,⟨1,4,"A"⟩,
      ⟨2,4,"B"⟩]) (L:=[⟨9,1,"e"⟩,⟨9,2,"e"⟩,⟨9,7,"e"⟩])
    sound_aged rfl (show Comparison.ofKeyword? "lt" = some .lt by decide) rfl (by decide)
    ⟨_,rfl,rfl,rfl⟩
  refine ⟨sound_aged,w',_,_,hw',hwrote,?_⟩
  have hend : rowsAfter? (replay aging) aged "A.B" =
      some (some ([⟨1,1,"A"⟩,⟨2,1,"B"⟩,⟨2,1,"B"⟩,⟨4,4,"A"⟩,⟨1,4,"A"⟩,⟨2,4,"B"⟩].map MatchRow.cells),
        some ([⟨9,1,"e"⟩].map MatchRow.cells)) := by decide +kernel
  have hends := Prod.mk.inj (Option.some_inj.mp ((hwrote.entry.rowsAfter?_eq hw').symm.trans hend))
  exact ⟨List.map_injective_iff.mpr cells_injective (Option.some_inj.mp hends.1),
    List.map_injective_iff.mpr cells_injective (Option.some_inj.mp hends.2)⟩

end GraphPattern.Rule.ProcessConstraint
