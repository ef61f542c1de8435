import GraphPattern.Description.Reader
import GraphPattern.Proofs.Description.Build
import GraphPattern.Proofs.Json.Reader
import Mathlib.Data.Option.Basic

/-!
# Descriptions that are read

Whatever a description that is read compares with is equal to itself: a document has no way to
write what is no number.
-/

namespace GraphPattern.Description.Reader

/-! ## What was read to read a whole -/

section Parts

variable {j : Json} {fields : Fields}

/-- An operand that is read is an item, or it is a constant. -/
theorem parts_of_operand? {o : Operand} (h : operand? j = some o) :
    (∃ name attr, o = .item name attr) ∨ ∃ v, value? j = some v ∧ o = .literal v := by
  rw [operand?.eq_def] at h
  split at h
  · obtain ⟨-,-,h⟩ := Option.bind_eq_some_iff.mp h
    obtain ⟨name,-,h⟩ := Option.bind_eq_some_iff.mp h
    obtain ⟨attr,-,h⟩ := Option.bind_eq_some_iff.mp h
    cases h
    exact .inl ⟨name,attr,rfl⟩
  · obtain ⟨v,hv,rfl⟩ := Option.map_eq_some_iff.mp h
    exact .inr ⟨v,hv,rfl⟩

theorem parts_of_constraint? {c : ConstraintEntry} (h : constraint? j = some c) : ∃ fields,
    entry? ["operator","left","right","annotated_item","annotation"] j = some fields ∧
      required? fields "left" operand? = some c.left ∧
      required? fields "right" operand? = some c.right ∧
      optional? fields "annotation" annotation? = some c.bounds := by
  obtain ⟨fields,hfields,h⟩ := Option.bind_eq_some_iff.mp h
  obtain ⟨operator,-,h⟩ := Option.bind_eq_some_iff.mp h
  obtain ⟨left,hleft,h⟩ := Option.bind_eq_some_iff.mp h
  obtain ⟨right,hright,h⟩ := Option.bind_eq_some_iff.mp h
  obtain ⟨item,-,h⟩ := Option.bind_eq_some_iff.mp h
  obtain ⟨bounds,hbounds,h⟩ := Option.bind_eq_some_iff.mp h
  cases h
  exact ⟨fields,hfields,hleft,hright,hbounds⟩

theorem parts_of_members? {m : Members} (h : members? fields = some m) :
    defaulted? fields "vertices" [] (listOf? vertex?) = some m.vertices ∧
      defaulted? fields "edges" [] (listOf? edge?) = some m.edges ∧
      defaulted? fields "constraints" [] (listOf? constraint?) = some m.constraints := by
  obtain ⟨vertices,hvertices,h⟩ := Option.bind_eq_some_iff.mp h
  obtain ⟨edges,hedges,h⟩ := Option.bind_eq_some_iff.mp h
  obtain ⟨constraints,hconstraints,h⟩ := Option.bind_eq_some_iff.mp h
  obtain ⟨links,-,h⟩ := Option.bind_eq_some_iff.mp h
  obtain ⟨cached,-,h⟩ := Option.bind_eq_some_iff.mp h
  cases h
  exact ⟨hvertices,hedges,hconstraints⟩

theorem parts_of_subquery? {s : SubqueryEntry} (h : subquery? j = some s) :
    ∃ fields bounds members nested, j = .object fields ∧ s = .mk bounds members nested ∧
      optional? fields "annotation" annotation? = some bounds ∧
      members? fields = some members ∧ nested? fields = some nested := by
  rw [subquery?.eq_def] at h
  split at h
  · rename_i fields
    obtain ⟨-,-,h⟩ := Option.bind_eq_some_iff.mp h
    obtain ⟨bounds,hbounds,h⟩ := Option.bind_eq_some_iff.mp h
    obtain ⟨members,hmembers,h⟩ := Option.bind_eq_some_iff.mp h
    obtain ⟨nested,hnested,h⟩ := Option.bind_eq_some_iff.mp h
    cases h
    exact ⟨fields,bounds,members,nested,rfl,rfl,hbounds,hmembers,hnested⟩
  · cases h

theorem parts_of_subqueries? {js : List Json} {ss : List SubqueryEntry}
    (h : subqueries? (j :: js) = some ss) :
    ∃ first rest, ss = first :: rest ∧ subquery? j = some first ∧ subqueries? js = some rest := by
  rw [subqueries?] at h
  obtain ⟨first,hfirst,h⟩ := Option.bind_eq_some_iff.mp h
  obtain ⟨rest,hrest,h⟩ := Option.bind_eq_some_iff.mp h
  cases h
  exact ⟨first,rest,rfl,hfirst,hrest⟩

theorem parts_of_ofJson? {d : Description} (h : ofJson? j = some d) : ∃ fields,
    j = .object fields ∧ members? fields = some d.members ∧
      nested? fields = some d.subqueries := by
  rw [ofJson?.eq_def] at h
  split at h
  · rename_i fields
    obtain ⟨-,-,h⟩ := Option.bind_eq_some_iff.mp h
    obtain ⟨name,-,h⟩ := Option.bind_eq_some_iff.mp h
    obtain ⟨description,-,h⟩ := Option.bind_eq_some_iff.mp h
    obtain ⟨members,hmembers,h⟩ := Option.bind_eq_some_iff.mp h
    obtain ⟨subqueries,hsubqueries,h⟩ := Option.bind_eq_some_iff.mp h
    cases h
    exact ⟨fields,rfl,hmembers,hsubqueries⟩
  · cases h

end Parts

/-! ## Constants -/

/-- All values of the fields are numeric. -/
def NumericFields (fields : Fields) : Prop := ∀ f ∈ fields, f.2.Numeric

theorem numeric_of_entry {keys : List String} {j : Json} {fields : Fields} (hj : j.Numeric)
    (h : entry? keys j = some fields) : NumericFields fields := by
  cases hj with
  | object hm =>
    rw [ entry?] at h
    split at h
    · cases h
      exact hm
    · cases h
  | array he =>
    rw [ entry?] at h
    split at h
    · cases h
      exact fun f hf => he f.2 (List.of_mem_zip hf).2
    · cases h
  | null => cases h
  | bool => cases h
  | int => cases h
  | float => cases h
  | string => cases h

theorem numeric_lookup? {key : String} {fields : Fields} {j : Json} (hf : NumericFields fields)
    (h : lookup? key fields = some j) : j.Numeric := by
  induction fields with
  | nil => cases h
  | cons f fields ih =>
    rw [lookup?] at h
    split at h
    · cases h
      exact hf f List.mem_cons_self
    · exact ih (fun g hg => hf g (List.mem_cons_of_mem _ hg)) h

theorem required?_some {α : Type} {fields : Fields} {key : String} {read : Json → Option α} {a : α}
    (hf : NumericFields fields) (h : required? fields key read = some a) :
    ∃ j, j.Numeric ∧ read j = some a := by
  obtain ⟨j,hj,ha⟩ := Option.bind_eq_some_iff.mp h
  exact ⟨j,numeric_lookup? hf hj,ha⟩

theorem sameValue_of_value? {j : Json} {v : Value} (hj : j.Numeric) (h : value? j = some v) :
    v.sameValue v = true := by
  cases hj with
  | null => cases h; rfl
  | bool b => cases h; exact decide_eq_true rfl
  | int i =>
    cases h
    split
    · exact decide_eq_true rfl
    · exact Binary64.sameValue_self (Binary64.isNumber_ofRatio _ _ _)
  | float hx => cases h; exact Binary64.sameValue_self hx
  | string s => cases h; exact decide_eq_true rfl
  | array => cases h
  | object => cases h

theorem comparable_of_operand? {j : Json} {o : Operand} (hj : j.Numeric)
    (h : operand? j = some o) : o.Comparable := by
  rcases parts_of_operand? h with ⟨name,attr,rfl⟩|⟨v,hv,rfl⟩
  · exact decide_eq_true rfl
  · exact sameValue_of_value? hj hv

theorem comparable_of_constraint? {j : Json} {c : ConstraintEntry} (hj : j.Numeric)
    (h : constraint? j = some c) : c.Comparable := by
  obtain ⟨fields,hfields,hleft,hright,-⟩ := parts_of_constraint? h
  have hf := numeric_of_entry hj hfields
  obtain ⟨l,hl,hleft⟩ := required?_some hf hleft
  obtain ⟨r,hr,hright⟩ := required?_some hf hright
  exact ⟨comparable_of_operand? hl hleft,comparable_of_operand? hr hright⟩

theorem of_mem_mapM {α β : Type} {f : α → Option β} {P : α → Prop} {Q : β → Prop}
    (hf : ∀ a b, P a → f a = some b → Q b) : ∀ {as : List α} {bs : List β}, (∀ a ∈ as, P a) →
    as.mapM f = some bs → ∀ b ∈ bs, Q b
  | [], bs, _, h => by
    cases h
    exact fun _ hb => absurd hb List.not_mem_nil
  | a :: as, bs, ha, h => by
    rw [List.mapM_cons] at h
    obtain ⟨b,hb,h⟩ := Option.bind_eq_some_iff.mp h
    obtain ⟨bs',hbs,h⟩ := Option.bind_eq_some_iff.mp h
    cases h
    intro c hc
    rcases List.mem_cons.mp hc with rfl|hc
    · exact hf a _ (ha a List.mem_cons_self) hb
    · exact of_mem_mapM hf (fun a hm => ha a (List.mem_cons_of_mem _ hm)) hbs c hc

/-- The constraints of the members can all be compared with. -/
def ComparableMembers (members : Members) : Prop := ∀ c ∈ members.constraints, c.Comparable

theorem comparable_of_members? {fields : Fields} {members : Members} (hf : NumericFields fields)
    (h : members? fields = some members) : ComparableMembers members := by
  obtain ⟨-,-,hc⟩ := parts_of_members? h
  rw [defaulted?] at hc
  cases hl : lookup? "constraints" fields with
  | none =>
    rw [hl,Option.elim_none,Option.some.injEq] at hc
    intro c hm
    rw [← hc] at hm
    exact absurd hm List.not_mem_nil
  | some j =>
    rw [hl,Option.elim_some] at hc
    cases numeric_lookup? hf hl with
    | array he => exact of_mem_mapM (fun _ _ ha hb => comparable_of_constraint? ha hb) he hc
    | null => cases hc
    | bool => cases hc
    | int => cases hc
    | float => cases hc
    | string => cases hc
    | object => cases hc

mutual

/-- What a subquery holds, and what the subqueries inside it hold, can be compared with. -/
theorem comparable_of_subquery? : ∀ {j : Json} {s : SubqueryEntry}, j.Numeric →
    subquery? j = some s → ∀ members ∈ SubqueryEntry.allMembers [s], ComparableMembers members
  | .object fields, s, hj, h => by
    obtain ⟨_,bounds,ms,nested,he,rfl,-,hms,hnested⟩ := parts_of_subquery? h
    cases he
    cases hj with
    | object hf =>
      intro members hm
      simp only [SubqueryEntry.allMembers,List.append_nil,List.mem_cons] at hm
      rcases hm with rfl|hm
      · exact comparable_of_members? hf hms
      · exact comparable_of_nested? hf hnested members hm
  | .null, s, _, h | .bool _, s, _, h | .int _, s, _, h | .float _, s, _, h | .string _, s, _, h
  | .array _, s, _, h => by
    obtain ⟨_,_,_,_,he,-⟩ := parts_of_subquery? h
    cases he

theorem comparable_of_nested? : ∀ {fields : List (String × Json)} {ss : List SubqueryEntry},
    NumericFields fields → nested? fields = some ss →
    ∀ members ∈ SubqueryEntry.allMembers ss, ComparableMembers members
  | [], ss, _, h => by
    rw [nested?] at h
    cases h
    rw [SubqueryEntry.allMembers]
    exact fun _ hm => absurd hm List.not_mem_nil
  | (key,j) :: fields, ss, hf, h => by
    rw [nested?.eq_def] at h
    dsimp only at h
    split at h
    · split at h
      · rename_i entries
        cases hf _ List.mem_cons_self with
        | array he => exact comparable_of_subqueries? he h
      · cases h
    · exact comparable_of_nested? (fun f hm => hf f (List.mem_cons_of_mem _ hm)) h

theorem comparable_of_subqueries? : ∀ {entries : List Json} {ss : List SubqueryEntry},
    (∀ j ∈ entries, j.Numeric) → subqueries? entries = some ss →
    ∀ members ∈ SubqueryEntry.allMembers ss, ComparableMembers members
  | [], ss, _, h => by
    rw [subqueries?] at h
    cases h
    rw [SubqueryEntry.allMembers]
    exact fun _ hm => absurd hm List.not_mem_nil
  | j :: entries, ss, he, h => by
    obtain ⟨first,rest,rfl,hfirst,hrest⟩ := parts_of_subqueries? h
    have hone := comparable_of_subquery? (he j List.mem_cons_self) hfirst
    have hothers := comparable_of_subqueries? (fun k hk => he k (List.mem_cons_of_mem _ hk)) hrest
    obtain ⟨bounds,ms,nested⟩ := first
    intro members hm
    rw [SubqueryEntry.allMembers,List.cons_append,List.mem_cons,List.mem_append] at hm
    simp only [SubqueryEntry.allMembers,List.append_nil,List.mem_cons] at hone
    rcases hm with hm|hm|hm
    · exact hone members (.inl hm)
    · exact hone members (.inr hm)
    · exact hothers members hm

end

/-- What a description that is read compares with is equal to itself. -/
theorem comparable_of_ofText? {text : String} {d : Description} (h : ofText? text = some d) :
    d.Comparable := by
  obtain ⟨j,hj,h⟩ := Option.bind_eq_some_iff.mp h
  have hnum := Json.Reader.numeric_of_read? hj
  obtain ⟨fields,rfl,hmembers,hsubqueries⟩ := parts_of_ofJson? h
  cases hnum with
  | object hf =>
    intro ms hm
    rcases List.mem_cons.mp hm with rfl|hm
    · exact comparable_of_members? hf hmembers
    · exact comparable_of_nested? hf hsubqueries ms hm

end GraphPattern.Description.Reader
