import GraphPattern.Description.Writer
import GraphPattern.Proofs.Description.Reader

/-!
# Descriptions that are written and read again

What is read from a document fits into one: integers have 64 bits, bounds have 32, and no test
compares with null, because null stands for a constant that is not given. Whatever fits is read
again from the document that is written of it, and nothing else ever comes out of a document.
-/

namespace GraphPattern

/-! ## What fits into a document -/

/-- If it is an integer, it has 64 bits. -/
def Value.Fits : Value → Prop
  | .int i => isInt64 i = true
  | _ => True

/-- The bounds have 32 bits. -/
structure Annotation.Fits (a : Annotation) : Prop where
  /-- The least number has. -/
  min : ∀ n ∈ a.min, n < 0x100000000
  /-- The greatest number has. -/
  max : ∀ n ∈ a.max, n < 0x100000000

/-- A constant that is given fits and is not null. -/
def AttributeTest.Fits (t : AttributeTest) : Prop := ∀ v ∈ t.value, v.Fits ∧ v ≠ .null

/-- All tests fit. -/
def Condition.Fits (c : Condition) : Prop := ∀ t ∈ c.tests, t.Fits

/-- A constant fits. -/
def Operand.Fits : Operand → Prop
  | .item _ _ => True
  | .literal v => v.Fits

/-- The condition and the bounds fit. -/
structure VertexEntry.Fits (v : VertexEntry) : Prop where
  /-- The condition fits. -/
  condition : ∀ c ∈ v.condition, c.Fits
  /-- The bounds fit. -/
  bounds : ∀ a ∈ v.bounds, a.Fits

/-- The condition and the bounds fit. -/
structure EdgeEntry.Fits (e : EdgeEntry) : Prop where
  /-- The condition fits. -/
  condition : ∀ c ∈ e.condition, c.Fits
  /-- The bounds fit. -/
  bounds : ∀ a ∈ e.bounds, a.Fits

/-- The operands and the bounds fit. -/
structure ConstraintEntry.Fits (c : ConstraintEntry) : Prop where
  /-- The left operand fits. -/
  left : c.left.Fits
  /-- The right operand fits. -/
  right : c.right.Fits
  /-- The bounds fit. -/
  bounds : ∀ a ∈ c.bounds, a.Fits

/-- All members fit. -/
structure Members.Fits (m : Members) : Prop where
  /-- The vertices fit. -/
  vertices : ∀ v ∈ m.vertices, v.Fits
  /-- The edges fit. -/
  edges : ∀ e ∈ m.edges, e.Fits
  /-- The constraints fit. -/
  constraints : ∀ c ∈ m.constraints, c.Fits

/-- The bounds, the members and the subqueries inside fit. -/
inductive SubqueryEntry.Fits : SubqueryEntry → Prop
  /-- All of them fit. -/
  | mk {bounds : Option Annotation} {members : Members} {subqueries : List SubqueryEntry}
    (hb : ∀ a ∈ bounds, a.Fits) (hm : members.Fits) (hs : ∀ s ∈ subqueries, Fits s) :
    Fits (.mk bounds members subqueries)

/-- The members and the subqueries of the root fit. -/
structure Description.Fits (d : Description) : Prop where
  /-- The members fit. -/
  members : d.members.Fits
  /-- The subqueries fit. -/
  subqueries : ∀ s ∈ d.subqueries, s.Fits

namespace Description.Reader

variable {α : Type} {fields rest : Fields} {key k : String} {read : Json → Option α}
  {write : α → Json} {j : Json} {a : α}

/-! ## Members of objects -/

theorem lookup?_cons : lookup? key ((k,j) :: rest) = if k = key then some j else lookup? key rest :=
  rfl

theorem lookup?_append :
    lookup? key (fields ++ rest) = (lookup? key fields).or (lookup? key rest) := by
  induction fields with
  | nil => rfl
  | cons f fields ih =>
    rw [List.cons_append,lookup?,lookup?,ih]
    split
    · rfl
    · rfl

/-- A member that may be left out is found if it is there. -/
theorem lookup?_present (v : Option α) :
    lookup? key (Writer.present k write v) = if k = key then v.map write else none := by
  cases v with
  | none => exact (ite_self none).symm
  | some a => exact lookup?_cons

/-- Keys that are a part of different keys, in their order, are not repeated. -/
theorem knownOnce_of_sublist {keys : List String} (hk : keys.Nodup)
    (h : List.Sublist (fields.map Prod.fst) keys) : knownOnce keys fields = true := by
  rw [knownOnce,List.all_eq_true]
  intro key _
  have hcount := List.nodup_iff_count_le_one.mp (hk.sublist h) key
  rw [List.count,List.countP_map] at hcount
  exact decide_eq_true (le_of_eq_of_le (List.countP_congr fun f _ => by simp) hcount)

theorem entry?_written {keys : List String} (hk : keys.Nodup)
    (h : List.Sublist (fields.map Prod.fst) keys) : entry? keys (.object fields) = some fields :=
  if_pos (knownOnce_of_sublist hk h)

/-- A member that may be left out has at most its own key. -/
theorem keys_present (k : String) (write : α → Json) (v : Option α) :
    List.Sublist ((Writer.present k write v).map Prod.fst) [k] := by
  cases v with
  | none => exact List.nil_sublist _
  | some a => exact List.Sublist.refl _

theorem required?_string {s : String} (hl : lookup? key fields = some (.string s)) :
    required? fields key Json.string? = some s := by
  rw [required?,hl]
  rfl

theorem required?_written (hl : lookup? key fields = some (write a))
    (hr : read (write a) = some a) : required? fields key read = some a := by
  rw [required?,hl]
  exact hr

/-- A member that is written as anything but null is read again, and one that is left out is
absent. -/
theorem optional?_present {v : Option α} (hl : lookup? key fields = v.map write)
    (hr : ∀ a ∈ v, write a ≠ .null ∧ read (write a) = some a) :
    optional? fields key read = some v := by
  cases v with
  | none =>
    rw [optional?,hl]
    rfl
  | some a =>
    obtain ⟨hn,ha⟩ := hr a rfl
    rw [optional?,hl,Option.map_some]
    split
    · rename_i h
      cases h
    · rename_i h
      exact absurd (Option.some_inj.mp h) hn
    · rename_i h
      rw [← Option.some_inj.mp h,ha]
      rfl

/-- A member that is written as null when it is absent is read again. -/
theorem optional?_written {v : Option α} (hl : lookup? key fields = some (Json.optional write v))
    (hr : ∀ a ∈ v, write a ≠ .null ∧ read (write a) = some a) :
    optional? fields key read = some v := by
  cases v with
  | none =>
    rw [optional?,hl]
    rfl
  | some a => exact optional?_present hl hr

theorem listOf?_written {as : List α} (hr : ∀ a ∈ as, read (write a) = some a) :
    listOf? read (Json.list write as) = some as := by
  rw [Json.list,listOf?]
  induction as with
  | nil => rfl
  | cons a as ih =>
    have hrest := ih fun b hb => hr b (List.mem_cons_of_mem _ hb)
    rw [List.map_cons,List.mapM_cons,hr a List.mem_cons_self,hrest]
    rfl

theorem defaulted?_written {as : List α} (hl : lookup? key fields = some (Json.list write as))
    (hr : ∀ a ∈ as, read (write a) = some a) :
    defaulted? fields key [] (listOf? read) = some as := by
  rw [defaulted?,hl]
  exact listOf?_written hr

theorem exists_of_required? (h : required? fields key read = some a) : ∃ j, read j = some a := by
  obtain ⟨j,-,hj⟩ := Option.bind_eq_some_iff.mp h
  exact ⟨j,hj⟩

/-- What is read where a member may be absent comes from something other than null. -/
theorem exists_of_optional? {v : Option α} (h : optional? fields key read = some v) :
    ∀ a ∈ v, ∃ j, j ≠ .null ∧ read j = some a := by
  intro a ha
  rw [optional?] at h
  split at h
  · cases h
    cases ha
  · cases h
    cases ha
  · rename_i j hn hj
    obtain ⟨b,hb,rfl⟩ := Option.map_eq_some_iff.mp h
    cases ha
    exact ⟨j,hn,hb⟩

theorem exists_of_listed {as : List α} (h : defaulted? fields key [] (listOf? read) = some as) :
    ∀ a ∈ as, ∃ j, read j = some a := by
  rw [defaulted?] at h
  cases hl : lookup? key fields with
  | none =>
    rw [hl] at h
    cases h
    exact fun _ ha => absurd ha List.not_mem_nil
  | some j =>
    rw [hl,Option.elim_some] at h
    rw [listOf?.eq_def] at h
    split at h
    · rename_i js
      have hread : ∀ j a, True → read j = some a → ∃ j, read j = some a := fun j a _ hj => ⟨j,hj⟩
      exact of_mem_mapM hread (fun _ _ => trivial) h
    · cases h

/-! ## Scalars and bounds -/

theorem value?_value {v : Value} (h : v.Fits) : value? (Writer.value v) = some v := by
  cases v with
  | int i => exact congrArg some (if_pos h)
  | null => rfl
  | bool b => rfl
  | float x => rfl
  | string s => rfl

theorem fits_of_value? {v : Value} (h : value? j = some v) : v.Fits := by
  cases j with
  | int i =>
    cases h
    split
    · assumption
    · trivial
  | null => cases h; trivial
  | bool b => cases h; trivial
  | float x => cases h; trivial
  | string s => cases h; trivial
  | array js => cases h
  | object fields => cases h

theorem value_ne_null {v : Value} (h : v ≠ .null) : Writer.value v ≠ .null := by
  cases v with
  | null => exact absurd rfl h
  | _ => exact nofun

/-- Only null is read as null. -/
theorem ne_null_of_value? {v : Value} (hj : j ≠ .null) (h : value? j = some v) : v ≠ .null := by
  cases j with
  | null => exact absurd rfl hj
  | int i =>
    cases h
    split
    · exact nofun
    · exact nofun
  | bool b => cases h; exact nofun
  | float x => cases h; exact nofun
  | string s => cases h; exact nofun
  | array js => cases h
  | object fields => cases h

theorem bound?_nat {n : Nat} (h : n < 0x100000000) : bound? (Json.nat n) = some n := by
  have hread : (Json.nat n).nat? = some n := rfl
  rw [bound?,hread]
  exact if_pos (decide_eq_true h)

theorem lt_of_bound? {n : Nat} (h : bound? j = some n) : n < 0x100000000 := by
  obtain ⟨-,hn⟩ := Option.filter_eq_some_iff.mp h
  exact of_decide_eq_true hn

theorem annotation?_bounds {a : Annotation} (h : a.Fits) :
    annotation? (Writer.bounds a) = some a := by
  rw [annotation?,Writer.bounds]
  refine Option.bind_eq_some_iff.mpr ⟨_,entry?_written (by decide) (List.Sublist.refl _),?_⟩
  refine Option.bind_eq_some_iff.mpr ⟨a.min,optional?_written rfl fun n hn => ?_,?_⟩
  · exact ⟨nofun,bound?_nat (h.min n hn)⟩
  refine Option.bind_eq_some_iff.mpr ⟨a.max,optional?_written rfl fun n hn => ?_,rfl⟩
  exact ⟨nofun,bound?_nat (h.max n hn)⟩

theorem fits_of_annotation? {a : Annotation} (h : annotation? j = some a) : a.Fits := by
  obtain ⟨fields,-,h⟩ := Option.bind_eq_some_iff.mp h
  obtain ⟨min,hmin,h⟩ := Option.bind_eq_some_iff.mp h
  obtain ⟨max,hmax,h⟩ := Option.bind_eq_some_iff.mp h
  cases h
  constructor
  · intro n hn
    obtain ⟨j,-,hj⟩ := exists_of_optional? hmin n hn
    exact lt_of_bound? hj
  · intro n hn
    obtain ⟨j,-,hj⟩ := exists_of_optional? hmax n hn
    exact lt_of_bound? hj

/-- Bounds that are left out when they are absent are read again. -/
theorem optional?_bounds {v : Option Annotation}
    (hl : lookup? "annotation" fields = v.map Writer.bounds) (hv : ∀ a ∈ v, a.Fits) :
    optional? fields "annotation" annotation? = some v :=
  optional?_present hl fun a ha => ⟨nofun,annotation?_bounds (hv a ha)⟩

theorem fits_of_bounds {v : Option Annotation}
    (h : optional? fields "annotation" annotation? = some v) : ∀ a ∈ v, a.Fits := by
  intro a ha
  obtain ⟨j,-,hj⟩ := exists_of_optional? h a ha
  exact fits_of_annotation? hj

/-! ## Conditions and operands -/

theorem test?_test {t : AttributeTest} (h : t.Fits) : test? (Writer.test t) = some t := by
  have hkeys := (keys_present "value" Writer.value t.value).cons_cons "attribute"
  have hvalue : ∀ v ∈ t.value, Writer.value v ≠ .null ∧ value? (Writer.value v) = some v := by
    intro v hv
    obtain ⟨hfits,hn⟩ := h v hv
    exact ⟨value_ne_null hn,value?_value hfits⟩
  rw [test?,Writer.test]
  refine Option.bind_eq_some_iff.mpr ⟨_,entry?_written (by decide) (hkeys.cons_cons "operator"),?_⟩
  refine Option.bind_eq_some_iff.mpr ⟨t.operator,required?_string rfl,?_⟩
  refine Option.bind_eq_some_iff.mpr ⟨t.attr,required?_string rfl,?_⟩
  refine Option.bind_eq_some_iff.mpr ⟨t.value,optional?_present ?_ hvalue,rfl⟩
  simp [lookup?_cons,lookup?_present]

theorem fits_of_test? {t : AttributeTest} (h : test? j = some t) : t.Fits := by
  obtain ⟨fields,-,h⟩ := Option.bind_eq_some_iff.mp h
  obtain ⟨operator,-,h⟩ := Option.bind_eq_some_iff.mp h
  obtain ⟨attr,-,h⟩ := Option.bind_eq_some_iff.mp h
  obtain ⟨value,hvalue,h⟩ := Option.bind_eq_some_iff.mp h
  cases h
  intro v hv
  obtain ⟨j,hn,hj⟩ := exists_of_optional? hvalue v hv
  exact ⟨fits_of_value? hj,ne_null_of_value? hn hj⟩

mutual

/-- A condition that fits is read again from what is written of it. -/
theorem condition?_condition : ∀ {c : Condition}, c.Fits →
    condition? (Writer.condition c) = some c
  | .all parts, h => by
    rw [Writer.condition,condition?,conditions?_conditions h]
    rfl
  | .any parts, h => by
    rw [Writer.condition,condition?,conditions?_conditions h]
    rfl
  | .negation part, h => by
    have hpart : part.Fits := h
    rw [Writer.condition,condition?,condition?_condition hpart]
    rfl
  | .test t, h => by
    rw [Writer.condition,condition?,test?_test (h t List.mem_cons_self)]
    rfl

theorem conditions?_conditions : ∀ {parts : List Condition},
    (∀ t ∈ Condition.testsOfAll parts, t.Fits) →
    conditions? (Writer.conditions parts) = some parts
  | [], _ => rfl
  | part :: parts, h => by
    have hpart : part.Fits := fun t ht => h t (List.mem_append_left _ ht)
    have hparts := conditions?_conditions fun t ht => h t (List.mem_append_right _ ht)
    rw [Writer.conditions,conditions?,condition?_condition hpart,hparts]
    rfl

end

mutual

/-- What is read as a condition fits. -/
theorem fits_of_condition? {j : Json} {c : Condition} (h : condition? j = some c) : c.Fits := by
  rw [condition?.eq_def] at h
  split at h
  · obtain ⟨parts,hparts,rfl⟩ := Option.map_eq_some_iff.mp h
    exact fits_of_conditions? hparts
  · obtain ⟨parts,hparts,rfl⟩ := Option.map_eq_some_iff.mp h
    exact fits_of_conditions? hparts
  · obtain ⟨part,hpart,rfl⟩ := Option.map_eq_some_iff.mp h
    have hfits : part.Fits := fits_of_condition? hpart
    exact hfits
  · obtain ⟨t,ht,rfl⟩ := Option.map_eq_some_iff.mp h
    intro u hu
    rw [List.mem_singleton.mp hu]
    exact fits_of_test? ht
  · cases h
termination_by sizeOf j

theorem fits_of_conditions? : ∀ {js : List Json} {parts : List Condition},
    conditions? js = some parts → ∀ t ∈ Condition.testsOfAll parts, t.Fits
  | [], _, h => by
    cases h
    exact fun _ ht => absurd ht List.not_mem_nil
  | j :: js, _, h => by
    obtain ⟨first,hfirst,h⟩ := Option.bind_eq_some_iff.mp h
    obtain ⟨rest,hrest,h⟩ := Option.bind_eq_some_iff.mp h
    cases h
    intro t ht
    rcases List.mem_append.mp ht with ht|ht
    · exact fits_of_condition? hfirst t ht
    · exact fits_of_conditions? hrest t ht
termination_by js => sizeOf js

end

theorem condition_ne_null (c : Condition) : Writer.condition c ≠ .null := by
  cases c with
  | all parts => rw [Writer.condition]; exact nofun
  | any parts => rw [Writer.condition]; exact nofun
  | negation part => rw [Writer.condition]; exact nofun
  | test t => rw [Writer.condition]; exact nofun

/-- A condition that is left out when it is absent is read again. -/
theorem optional?_condition {v : Option Condition}
    (hl : lookup? "condition" fields = v.map Writer.condition) (hv : ∀ c ∈ v, c.Fits) :
    optional? fields "condition" condition? = some v :=
  optional?_present hl fun c hc => ⟨condition_ne_null c,condition?_condition (hv c hc)⟩

theorem fits_of_condition {v : Option Condition}
    (h : optional? fields "condition" condition? = some v) : ∀ c ∈ v, c.Fits := by
  intro c hc
  obtain ⟨j,-,hj⟩ := exists_of_optional? h c hc
  exact fits_of_condition? hj

/-- A text that is left out when it is absent is read again. -/
theorem optional?_string {v : Option String} (hl : lookup? key fields = v.map .string) :
    optional? fields key Json.string? = some v :=
  optional?_present hl fun _ _ => ⟨nofun,rfl⟩

/-- A constant is never written as an object, so it is not taken for an item. -/
theorem operand?_value {v : Value} (h : v.Fits) :
    operand? (Writer.value v) = some (.literal v) := by
  have hv := congrArg (Option.map Operand.literal) (value?_value h)
  cases v with
  | null => exact hv
  | bool b => exact hv
  | int i => exact hv
  | float x => exact hv
  | string s => exact hv

theorem operand?_operand {o : Operand} (h : o.Fits) : operand? (Writer.operand o) = some o := by
  cases o with
  | literal v => exact operand?_value h
  | item name attr =>
    rw [Writer.operand,operand?]
    refine Option.bind_eq_some_iff.mpr ⟨(),if_pos (knownOnce_of_sublist (by decide) ?_),?_⟩
    · exact (keys_present "attribute" .string attr).cons_cons "item"
    refine Option.bind_eq_some_iff.mpr ⟨name,required?_string rfl,?_⟩
    refine Option.bind_eq_some_iff.mpr ⟨attr,optional?_string ?_,rfl⟩
    simp [lookup?_cons,lookup?_present]

theorem fits_of_operand? {o : Operand} (h : operand? j = some o) : o.Fits := by
  rcases parts_of_operand? h with ⟨name,attr,rfl⟩|⟨v,hv,rfl⟩
  · trivial
  · exact fits_of_value? hv

/-! ## Members -/

theorem vertex?_vertex {v : VertexEntry} (h : v.Fits) : vertex? (Writer.vertex v) = some v := by
  have hoptional := (keys_present "condition" Writer.condition v.condition).append
    (keys_present "annotation" Writer.bounds v.bounds)
  rw [vertex?,Writer.vertex]
  refine Option.bind_eq_some_iff.mpr ⟨_,entry?_written (by decide) ?_,?_⟩
  · rw [List.map_cons,List.map_append]
    exact hoptional.cons_cons "name"
  refine Option.bind_eq_some_iff.mpr ⟨v.name,required?_string rfl,?_⟩
  refine Option.bind_eq_some_iff.mpr ⟨v.condition,optional?_condition ?_ h.condition,?_⟩
  · simp [lookup?_cons,lookup?_append,lookup?_present]
  refine Option.bind_eq_some_iff.mpr ⟨v.bounds,optional?_bounds ?_ h.bounds,rfl⟩
  simp [lookup?_cons,lookup?_append,lookup?_present]

theorem fits_of_vertex? {v : VertexEntry} (h : vertex? j = some v) : v.Fits := by
  obtain ⟨fields,-,h⟩ := Option.bind_eq_some_iff.mp h
  obtain ⟨name,-,h⟩ := Option.bind_eq_some_iff.mp h
  obtain ⟨condition,hcondition,h⟩ := Option.bind_eq_some_iff.mp h
  obtain ⟨bounds,hbounds,h⟩ := Option.bind_eq_some_iff.mp h
  cases h
  exact ⟨fits_of_condition hcondition,fits_of_bounds hbounds⟩

theorem edge?_edge {e : EdgeEntry} (h : e.Fits) : edge? (Writer.edge e) = some e := by
  have hoptional := (keys_present "condition" Writer.condition e.condition).append
    (keys_present "annotation" Writer.bounds e.bounds)
  rw [edge?,Writer.edge]
  refine Option.bind_eq_some_iff.mpr ⟨_,entry?_written (by decide) ?_,?_⟩
  · rw [List.map_append,List.map_append]
    exact (List.Sublist.refl ["name","from","to","directed"]).append hoptional
  refine Option.bind_eq_some_iff.mpr ⟨e.name,required?_string rfl,?_⟩
  refine Option.bind_eq_some_iff.mpr ⟨e.source,required?_string rfl,?_⟩
  refine Option.bind_eq_some_iff.mpr ⟨e.target,required?_string rfl,?_⟩
  refine Option.bind_eq_some_iff.mpr ⟨e.directed,rfl,?_⟩
  refine Option.bind_eq_some_iff.mpr ⟨e.condition,optional?_condition ?_ h.condition,?_⟩
  · simp [lookup?_cons,lookup?_append,lookup?_present]
  refine Option.bind_eq_some_iff.mpr ⟨e.bounds,optional?_bounds ?_ h.bounds,rfl⟩
  simp [lookup?_cons,lookup?_append,lookup?_present]

theorem fits_of_edge? {e : EdgeEntry} (h : edge? j = some e) : e.Fits := by
  obtain ⟨fields,-,h⟩ := Option.bind_eq_some_iff.mp h
  obtain ⟨name,-,h⟩ := Option.bind_eq_some_iff.mp h
  obtain ⟨source,-,h⟩ := Option.bind_eq_some_iff.mp h
  obtain ⟨target,-,h⟩ := Option.bind_eq_some_iff.mp h
  obtain ⟨directed,-,h⟩ := Option.bind_eq_some_iff.mp h
  obtain ⟨condition,hcondition,h⟩ := Option.bind_eq_some_iff.mp h
  obtain ⟨bounds,hbounds,h⟩ := Option.bind_eq_some_iff.mp h
  cases h
  exact ⟨fits_of_condition hcondition,fits_of_bounds hbounds⟩

theorem constraint?_constraint {c : ConstraintEntry} (h : c.Fits) :
    constraint? (Writer.constraint c) = some c := by
  have hoptional := (keys_present "annotated_item" .string c.annotatedItem).append
    (keys_present "annotation" Writer.bounds c.bounds)
  rw [constraint?,Writer.constraint]
  refine Option.bind_eq_some_iff.mpr ⟨_,entry?_written (by decide) ?_,?_⟩
  · rw [List.map_append,List.map_append]
    exact (List.Sublist.refl ["operator","left","right"]).append hoptional
  refine Option.bind_eq_some_iff.mpr ⟨c.operator,required?_string rfl,?_⟩
  refine Option.bind_eq_some_iff.mpr ⟨c.left,required?_written rfl (operand?_operand h.left),?_⟩
  refine Option.bind_eq_some_iff.mpr ⟨c.right,required?_written rfl (operand?_operand h.right),?_⟩
  refine Option.bind_eq_some_iff.mpr ⟨c.annotatedItem,optional?_string ?_,?_⟩
  · simp [lookup?_cons,lookup?_append,lookup?_present]
  refine Option.bind_eq_some_iff.mpr ⟨c.bounds,optional?_bounds ?_ h.bounds,rfl⟩
  simp [lookup?_cons,lookup?_append,lookup?_present]

theorem fits_of_constraint? {c : ConstraintEntry} (h : constraint? j = some c) : c.Fits := by
  obtain ⟨fields,-,hleft,hright,hbounds⟩ := parts_of_constraint? h
  obtain ⟨l,hl⟩ := exists_of_required? hleft
  obtain ⟨r,hr⟩ := exists_of_required? hright
  exact ⟨fits_of_operand? hl,fits_of_operand? hr,fits_of_bounds hbounds⟩

theorem link?_link (l : DerivedLink) : link? (Writer.link l) = some l := by
  rw [link?,Writer.link]
  refine Option.bind_eq_some_iff.mpr ⟨_,entry?_written (by decide) (List.Sublist.refl _),?_⟩
  refine Option.bind_eq_some_iff.mpr ⟨l.source,required?_string rfl,?_⟩
  refine Option.bind_eq_some_iff.mpr ⟨l.target,required?_string rfl,?_⟩
  refine Option.bind_eq_some_iff.mpr ⟨l.attr,required?_string rfl,?_⟩
  exact Option.bind_eq_some_iff.mpr ⟨l.value,required?_string rfl,rfl⟩

theorem cached?_cached (c : CachedEntry) : cached? (Writer.cached c) = some c := by
  rw [cached?,Writer.cached]
  refine Option.bind_eq_some_iff.mpr ⟨_,entry?_written (by decide) (List.Sublist.refl _),?_⟩
  refine Option.bind_eq_some_iff.mpr ⟨c.item,required?_string rfl,?_⟩
  exact Option.bind_eq_some_iff.mpr ⟨c.container,required?_string rfl,rfl⟩

/-- The members of a container are read again from its members as written, whatever stands before
them under other keys. -/
theorem members?_members {m : Members} {subqueries : List Json} (h : m.Fits)
    (hrest : ∀ key ∈ memberKeys, lookup? key rest = none) :
    members? (rest ++ Writer.members m subqueries) = some m := by
  have hlookup : ∀ key ∈ memberKeys, lookup? key (rest ++ Writer.members m subqueries) =
      lookup? key (Writer.members m subqueries) := by
    intro key hkey
    rw [lookup?_append,hrest key hkey,Option.none_or]
  have hvertices := hlookup "vertices" (by decide)
  have hedges := hlookup "edges" (by decide)
  have hconstraints := hlookup "constraints" (by decide)
  have hlinks := hlookup "add_links" (by decide)
  have hcached := hlookup "cached" (by decide)
  rw [members?]
  refine Option.bind_eq_some_iff.mpr ⟨m.vertices,defaulted?_written hvertices ?_,?_⟩
  · exact fun v hv => vertex?_vertex (h.vertices v hv)
  refine Option.bind_eq_some_iff.mpr ⟨m.edges,defaulted?_written hedges ?_,?_⟩
  · exact fun e he => edge?_edge (h.edges e he)
  refine Option.bind_eq_some_iff.mpr ⟨m.constraints,defaulted?_written hconstraints ?_,?_⟩
  · exact fun c hc => constraint?_constraint (h.constraints c hc)
  refine Option.bind_eq_some_iff.mpr ⟨m.links,defaulted?_written hlinks ?_,?_⟩
  · exact fun l _ => link?_link l
  refine Option.bind_eq_some_iff.mpr ⟨m.cached,defaulted?_written hcached ?_,rfl⟩
  exact fun c _ => cached?_cached c

theorem fits_of_members? {m : Members} (h : members? fields = some m) : m.Fits := by
  obtain ⟨hvertices,hedges,hconstraints⟩ := parts_of_members? h
  constructor
  · intro v hv
    obtain ⟨j,hj⟩ := exists_of_listed hvertices v hv
    exact fits_of_vertex? hj
  · intro e he
    obtain ⟨j,hj⟩ := exists_of_listed hedges e he
    exact fits_of_edge? hj
  · intro c hc
    obtain ⟨j,hj⟩ := exists_of_listed hconstraints c hc
    exact fits_of_constraint? hj

/-! ## Subqueries and descriptions -/

theorem subqueries?_eq (js : List Json) : subqueries? js = js.mapM subquery? := by
  induction js with
  | nil => rfl
  | cons j js ih =>
    rw [subqueries?,ih,List.mapM_cons]

theorem subqueries_eq (ss : List SubqueryEntry) :
    Writer.subqueries ss = ss.map Writer.subquery := by
  induction ss with
  | nil => rfl
  | cons s ss ih => rw [Writer.subqueries,ih,List.map_cons]

/-- Subqueries are a member like the others: a list that is empty when it is left out. -/
theorem nested?_eq (fields : Fields) :
    nested? fields = defaulted? fields "subqueries" [] (listOf? subquery?) := by
  induction fields with
  | nil => rfl
  | cons f fields ih =>
    obtain ⟨key,j⟩ := f
    rw [nested?.eq_def,defaulted?,lookup?]
    dsimp only
    by_cases hkey : key = "subqueries"
    · rw [if_pos hkey,if_pos hkey,Option.elim_some]
      cases j with
      | array js => exact subqueries?_eq js
      | _ => rfl
    · rw [if_neg hkey,if_neg hkey,ih]
      rfl

/-- The subqueries inside a container are read again if each of them is. -/
theorem nested?_members {m : Members} {ss : List SubqueryEntry}
    (hrest : ∀ key ∈ memberKeys, lookup? key rest = none)
    (hs : ∀ s ∈ ss, subquery? (Writer.subquery s) = some s) :
    nested? (rest ++ Writer.members m (Writer.subqueries ss)) = some ss := by
  have hl : lookup? "subqueries" (rest ++ Writer.members m (Writer.subqueries ss)) =
      some (Json.list Writer.subquery ss) := by
    rw [lookup?_append,hrest "subqueries" (by decide),Option.none_or,subqueries_eq]
    rfl
  rw [nested?_eq]
  exact defaulted?_written hl hs

theorem keys_members (m : Members) (js : List Json) :
    (Writer.members m js).map Prod.fst = memberKeys := rfl

theorem subquery?_subquery {s : SubqueryEntry} (h : s.Fits) :
    subquery? (Writer.subquery s) = some s := by
  induction h with
  | @mk bounds members subqueries hb hm hs ih =>
    have hrest : ∀ key ∈ memberKeys,
        lookup? key (Writer.present "annotation" Writer.bounds bounds) = none := by
      intro key hkey
      rw [lookup?_present]
      exact if_neg fun heq => absurd (heq ▸ hkey) (by decide)
    rw [Writer.subquery,subquery?]
    refine Option.bind_eq_some_iff.mpr ⟨(),if_pos (knownOnce_of_sublist (by decide) ?_),?_⟩
    · rw [List.map_append,keys_members]
      exact (keys_present "annotation" Writer.bounds bounds).append (List.Sublist.refl memberKeys)
    refine Option.bind_eq_some_iff.mpr ⟨bounds,optional?_bounds ?_ hb,?_⟩
    · rw [lookup?_append,lookup?_present,if_pos rfl]
      exact Option.or_none
    refine Option.bind_eq_some_iff.mpr ⟨members,members?_members hm hrest,?_⟩
    exact Option.bind_eq_some_iff.mpr ⟨subqueries,nested?_members hrest ih,rfl⟩

mutual

/-- What is read as a subquery fits, down to the innermost. -/
theorem fits_of_subquery? {j : Json} {s : SubqueryEntry} (h : subquery? j = some s) : s.Fits := by
  obtain ⟨fields,bounds,members,subqueries,rfl,rfl,hbounds,hmembers,hsubqueries⟩ :=
    parts_of_subquery? h
  have hinside := fits_of_nested? hsubqueries
  exact .mk (fits_of_bounds hbounds) (fits_of_members? hmembers) hinside
termination_by sizeOf j

theorem fits_of_nested? : ∀ {fields : List (String × Json)} {ss : List SubqueryEntry},
    nested? fields = some ss → ∀ s ∈ ss, s.Fits
  | [], _, h => by
    cases h
    exact fun _ hs => absurd hs List.not_mem_nil
  | (key,j) :: fields, _, h => by
    rw [nested?.eq_def] at h
    dsimp only at h
    split at h
    · split at h
      · exact fits_of_subqueries? h
      · cases h
    · exact fits_of_nested? h
termination_by fields => sizeOf fields

theorem fits_of_subqueries? : ∀ {js : List Json} {ss : List SubqueryEntry},
    subqueries? js = some ss → ∀ s ∈ ss, s.Fits
  | [], _, h => by
    cases h
    exact fun _ hs => absurd hs List.not_mem_nil
  | j :: js, _, h => by
    obtain ⟨first,rest,rfl,hfirst,hrest⟩ := parts_of_subqueries? h
    intro s hs
    rcases List.mem_cons.mp hs with rfl|hs
    · exact fits_of_subquery? hfirst
    · exact fits_of_subqueries? hrest s hs
termination_by js => sizeOf js

end

/-- What fits is read again from what is written of it. -/
theorem ofJson?_toJson {d : Description} (h : d.Fits) : ofJson? (Writer.toJson d) = some d := by
  have hrest : ∀ key ∈ memberKeys,
      lookup? key [("name",.string d.name),("description",.string d.description)] = none := by
    intro key hkey
    rw [lookup?_cons,lookup?_cons,if_neg fun heq => absurd (heq ▸ hkey) (by decide),
      if_neg fun heq => absurd (heq ▸ hkey) (by decide)]
    rfl
  rw [Writer.toJson,ofJson?]
  refine Option.bind_eq_some_iff.mpr ⟨(),if_pos (knownOnce_of_sublist (by decide) ?_),?_⟩
  · rw [List.map_append,keys_members]
    exact List.Sublist.refl _
  refine Option.bind_eq_some_iff.mpr ⟨d.name,required?_string rfl,?_⟩
  refine Option.bind_eq_some_iff.mpr ⟨d.description,rfl,?_⟩
  refine Option.bind_eq_some_iff.mpr ⟨d.members,members?_members h.members hrest,?_⟩
  refine Option.bind_eq_some_iff.mpr ⟨d.subqueries,nested?_members hrest ?_,rfl⟩
  exact fun s hs => subquery?_subquery (h.subqueries s hs)

/-- What is read fits. -/
theorem fits_of_ofJson? {d : Description} (h : ofJson? j = some d) : d.Fits := by
  obtain ⟨fields,rfl,hmembers,hsubqueries⟩ := parts_of_ofJson? h
  exact ⟨fits_of_members? hmembers,fits_of_nested? hsubqueries⟩

end Description.Reader

namespace Description

/-- What fits, and nothing else, can be read from some document. -/
theorem fits_iff {d : Description} : d.Fits ↔ ∃ j, Reader.ofJson? j = some d :=
  ⟨fun h => ⟨_,Reader.ofJson?_toJson h⟩,fun ⟨_,h⟩ => Reader.fits_of_ofJson? h⟩

/-- A description that is read from any document is read again from the document that is written of
it, and the same document is written again. -/
theorem toJson_reads_back {j : Json} {d : Description} (h : Reader.ofJson? j = some d) :
    Reader.ofJson? (Writer.toJson d) = some d ∧
      (Reader.ofJson? (Writer.toJson d)).map Writer.toJson = some (Writer.toJson d) := by
  have hread : Reader.ofJson? (Writer.toJson d) = some d :=
    Reader.ofJson?_toJson (Reader.fits_of_ofJson? h)
  refine ⟨hread,?_⟩
  rw [hread]
  rfl

/-- A document with a vertex as a list, null for what is absent, conditions inside conditions,
constants of every kind, an integer beyond 64 bits, a key of its own, and a subquery inside a
subquery. -/
def layered : Json :=
  let same (left right : Json) : Json :=
    .object [("right",right),("left",left),("operator",.string "eq")]
  .object
    [("remark",.int 1),
      ("vertices",.array
        [.array [.string "A",.null,.object [("max",.int 3),("min",.null)]],
          .object [("name",.string "B"),("annotation",.null),
            ("condition",.object [("or",.array
              [.object [("not",.object [("test",.array
                  [.string "eq",.string "x",.float (Binary64.ofInt 2)])])],
                .object [("and",.array [])]])])]]),
      ("constraints",.array
        [same (.object [("item",.string "A"),("attribute",.string "x")]) .null,
          same (.object [("attribute",.null),("item",.string "A")]) (.int 0x8000000000000000),
          same (.bool true) (.string "true")]),
      ("subqueries",.array
        [.object [("annotation",.object []),("subqueries",.array [.object [("edges",.array
          [.object [("name",.string "e"),("from",.string "A"),("to",.string "B")]])]])]]),
      ("name",.string "q")]

/-- Null is read as a constant, and the integer beyond 64 bits as a floating-point number. -/
theorem toJson_reads_back_layered : ∃ d, Reader.ofJson? layered = some d ∧
    d.members.constraints.map ConstraintEntry.right = [.literal .null,
      .literal (.float (Binary64.ofInt 0x8000000000000000)),.literal (.string "true")] ∧
    Reader.ofJson? (Writer.toJson d) = some d ∧
    (Reader.ofJson? (Writer.toJson d)).map Writer.toJson = some (Writer.toJson d) := by
  have hreads : (Reader.ofJson? layered).map (·.members.constraints.map ConstraintEntry.right) =
      some [.literal .null,.literal (.float (Binary64.ofInt 0x8000000000000000)),
        .literal (.string "true")] := by
    decide +kernel
  obtain ⟨d,hd,hright⟩ := Option.map_eq_some_iff.mp hreads
  exact ⟨d,hd,hright,toJson_reads_back hd⟩

end Description

end GraphPattern
