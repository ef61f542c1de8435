import GraphPattern.Comparison
import GraphPattern.Error

/-!
# Conditions

A condition filters objects or links by their attributes. Its leaves are tests; a test keeps its
operator as it was written, so that a query with an unknown operator can still be built and then
be reported.
-/

namespace GraphPattern

/-- A comparison of an attribute with a constant. -/
structure AttributeTest where
  /-- The operator as written. -/
  operator : String
  /-- The attribute that is looked at. -/
  attr : String
  /-- The constant, for operators that need one. -/
  value : Option Value
deriving DecidableEq

namespace AttributeTest

/-- The operator, if its keyword is known. -/
def comparison? (t : AttributeTest) : Option Comparison := Comparison.ofKeyword? t.operator

/-- Whether a test holds of the attributes that `lookup` knows. An attribute that is not there
counts as null. -/
def holds (lookup : String → Option Value) (t : AttributeTest) : Bool :=
  let actual := (lookup t.attr).getD .null
  match t.comparison?, t.value with
  | none, _ => false
  | some .present, _ => !actual.isNull
  | some op, some expected => op.holds actual expected
  | some _, none => false

/-- The text of a test. -/
def text (t : AttributeTest) : String :=
  match t.value with
  | some value => s!"{t.attr} {t.operator} {value.text}"
  | none => s!"{t.attr} {t.operator}"

end AttributeTest

/-- A boolean combination of tests. -/
inductive Condition where
  /-- All parts hold. -/
  | all (parts : List Condition)
  /-- Some part holds. -/
  | any (parts : List Condition)
  /-- The part does not hold. -/
  | negation (part : Condition)
  /-- A single test. -/
  | test (t : AttributeTest)
deriving Inhabited

namespace Condition

mutual

/-- Equality of conditions is decided part by part. -/
def decideEq : (a b : Condition) → Decidable (a = b)
  | all ps, all qs => @decidable_of_iff _ (ps = qs) (by simp) (decideEqAll ps qs)
  | any ps, any qs => @decidable_of_iff _ (ps = qs) (by simp) (decideEqAll ps qs)
  | negation p, negation q => @decidable_of_iff _ (p = q) (by simp) (decideEq p q)
  | test t, test u => decidable_of_iff (t = u) (by simp)
  | all _, any _ | all _, negation _ | all _, test _ => isFalse (by simp)
  | any _, all _ | any _, negation _ | any _, test _ => isFalse (by simp)
  | negation _, all _ | negation _, any _ | negation _, test _ => isFalse (by simp)
  | test _, all _ | test _, any _ | test _, negation _ => isFalse (by simp)

/-- Equality of lists of conditions is decided part by part. -/
def decideEqAll : (as bs : List Condition) → Decidable (as = bs)
  | [], [] => isTrue rfl
  | a :: as, b :: bs =>
    match decideEq a b, decideEqAll as bs with
    | isTrue h, isTrue t => isTrue (by rw [h, t])
    | isFalse h, _ => isFalse (by simp [h])
    | _, isFalse t => isFalse (by simp [t])
  | [], _ :: _ => isFalse (by simp)
  | _ :: _, [] => isFalse (by simp)

end

instance : DecidableEq Condition := decideEq

/-- A single test; its operator and its attribute must be given. -/
def ofTest (operator attr : String) (value : Option Value) : Except Error Condition :=
  if operator = "" then refuseArgument .emptyConditionOperator
  else if attr = "" then refuseArgument .emptyConditionAttribute
  else pure (.test ⟨operator, attr, value⟩)

mutual

/-- The tests of a condition from left to right. -/
def tests : Condition → List AttributeTest
  | all parts => testsOfAll parts
  | any parts => testsOfAll parts
  | negation part => part.tests
  | test t => [t]

/-- The tests of several conditions from left to right. -/
def testsOfAll : List Condition → List AttributeTest
  | [] => []
  | part :: parts => part.tests ++ testsOfAll parts

end

mutual

/-- Whether a condition holds of the attributes that `lookup` knows. -/
def holds (lookup : String → Option Value) : Condition → Bool
  | all parts => allHold lookup parts
  | any parts => anyHolds lookup parts
  | negation part => !part.holds lookup
  | test t => t.holds lookup

/-- Whether all of several conditions hold. -/
def allHold (lookup : String → Option Value) : List Condition → Bool
  | [] => true
  | part :: parts => part.holds lookup && allHold lookup parts

/-- Whether one of several conditions holds. -/
def anyHolds (lookup : String → Option Value) : List Condition → Bool
  | [] => false
  | part :: parts => part.holds lookup || anyHolds lookup parts

end

mutual

/-- The text of a condition. -/
def text : Condition → String
  | all parts => "(" ++ " and ".intercalate (texts parts) ++ ")"
  | any parts => "(" ++ " or ".intercalate (texts parts) ++ ")"
  | negation part => "not " ++ part.text
  | test t => t.text

/-- The texts of several conditions. -/
def texts : List Condition → List String
  | [] => []
  | part :: parts => part.text :: texts parts

end

end Condition

end GraphPattern
