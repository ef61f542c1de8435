import GraphPattern.Constraint

/-!
# Constraints that state the same relation

Stating the same relation is symmetric and transitive. It is not reflexive: a constraint that
compares with a constant that is no number is unlike every constraint, itself included.
-/

namespace GraphPattern

namespace Binary64

theorem sameValue_iff {x y : Binary64} :
    x.sameValue y = true ↔ (x.isNaN = false ∧ y.isNaN = false) ∧ x.rank = y.rank := by
  cases hx : x.isNaN <;> cases hy : y.isNaN <;> simp [sameValue,compare?,hx,hy]

theorem sameValue_symm {x y : Binary64} (h : x.sameValue y = true) : y.sameValue x = true := by
  obtain ⟨⟨hx,hy⟩,hr⟩ := sameValue_iff.mp h
  exact sameValue_iff.mpr ⟨⟨hy,hx⟩,hr.symm⟩

theorem sameValue_trans {x y z : Binary64} (h : x.sameValue y = true) (h' : y.sameValue z = true) :
    x.sameValue z = true := by
  obtain ⟨⟨hx,-⟩,hr⟩ := sameValue_iff.mp h
  obtain ⟨⟨-,hz⟩,hr'⟩ := sameValue_iff.mp h'
  exact sameValue_iff.mpr ⟨⟨hx,hz⟩,hr.trans hr'⟩

end Binary64

namespace Value

/-- Values are the same if they are equal, or if they are the same numbers. -/
theorem sameValue_iff {a b : Value} : a.sameValue b = true ↔
    (∃ x y, a = float x ∧ b = float y ∧ x.sameValue y = true) ∨
      (a = b ∧ ∀ x, a ≠ float x) := by
  cases a <;> cases b <;> simp [sameValue]

theorem sameValue_symm {a b : Value} (h : a.sameValue b = true) : b.sameValue a = true := by
  rcases sameValue_iff.mp h with ⟨x,y,rfl,rfl,hxy⟩|⟨rfl,-⟩
  · exact Binary64.sameValue_symm hxy
  · exact h

theorem sameValue_trans {a b c : Value} (h : a.sameValue b = true) (h' : b.sameValue c = true) :
    a.sameValue c = true := by
  rcases sameValue_iff.mp h with ⟨x,y,rfl,rfl,hxy⟩|⟨rfl,-⟩
  · rcases sameValue_iff.mp h' with ⟨y',z,hy,rfl,hyz⟩|⟨-,hne⟩
    · cases hy
      exact Binary64.sameValue_trans hxy hyz
    · exact absurd rfl (hne y)
  · exact h'

end Value

namespace Operand

/-- Operands are the same if they are equal items, or the same constants. -/
theorem sameOperand_iff {a b : Operand} : a.sameOperand b = true ↔
    (∃ v w, a = literal v ∧ b = literal w ∧ v.sameValue w = true) ∨
      (a = b ∧ ∀ v, a ≠ literal v) := by
  cases a <;> cases b <;> simp [sameOperand]

theorem sameOperand_symm {a b : Operand} (h : a.sameOperand b = true) :
    b.sameOperand a = true := by
  rcases sameOperand_iff.mp h with ⟨v,w,rfl,rfl,hvw⟩|⟨rfl,-⟩
  · exact Value.sameValue_symm hvw
  · exact h

theorem sameOperand_trans {a b c : Operand} (h : a.sameOperand b = true)
    (h' : b.sameOperand c = true) : a.sameOperand c = true := by
  rcases sameOperand_iff.mp h with ⟨v,w,rfl,rfl,hvw⟩|⟨rfl,-⟩
  · rcases sameOperand_iff.mp h' with ⟨w',u,hw,rfl,hwu⟩|⟨-,hne⟩
    · cases hw
      exact Value.sameValue_trans hvw hwu
    · exact absurd rfl (hne w)
  · exact h'

theorem itemName?_of_sameOperand {a b : Operand} (h : a.sameOperand b = true) :
    a.itemName? = b.itemName? := by
  rcases sameOperand_iff.mp h with ⟨v,w,rfl,rfl,-⟩|⟨rfl,-⟩ <;> rfl

end Operand

namespace Constraint

variable {k l m : Constraint}

theorem sameRelation_iff : k.sameRelation l = true ↔ k.operator = l.operator ∧
    k.left.sameOperand l.left = true ∧ k.right.sameOperand l.right = true := by
  simp only [sameRelation,Bool.and_eq_true,decide_eq_true_eq,and_assoc]

theorem sameRelation_symm (h : k.sameRelation l = true) : l.sameRelation k = true := by
  obtain ⟨ho,hl,hr⟩ := sameRelation_iff.mp h
  exact sameRelation_iff.mpr ⟨ho.symm,Operand.sameOperand_symm hl,Operand.sameOperand_symm hr⟩

theorem sameRelation_trans (h : k.sameRelation l = true) (h' : l.sameRelation m = true) :
    k.sameRelation m = true := by
  obtain ⟨ho,hl,hr⟩ := sameRelation_iff.mp h
  obtain ⟨ho',hl',hr'⟩ := sameRelation_iff.mp h'
  exact sameRelation_iff.mpr
    ⟨ho.trans ho',Operand.sameOperand_trans hl hl',Operand.sameOperand_trans hr hr'⟩

/-- A constraint that is like another one is like itself. -/
theorem sameRelation_self (h : k.sameRelation l = true) : l.sameRelation l = true :=
  sameRelation_trans (sameRelation_symm h) h

/-- Like constraints are about the same items. -/
theorem itemNames_of_sameRelation (h : k.sameRelation l = true) : k.itemNames = l.itemNames := by
  obtain ⟨-,hl,hr⟩ := sameRelation_iff.mp h
  rw [itemNames,itemNames,List.filterMap_cons,List.filterMap_cons,List.filterMap_cons,
    List.filterMap_cons,Operand.itemName?_of_sameOperand hl,Operand.itemName?_of_sameOperand hr]

end Constraint

end GraphPattern
