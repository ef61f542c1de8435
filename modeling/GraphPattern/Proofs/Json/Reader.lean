import GraphPattern.Json.Reader
import Mathlib.Tactic.Common

/-!
# Numbers that are read

Every floating-point number that the reader of documents makes stands for a number, or for one of
the infinities. A pattern that stands for no number cannot be written in a document.
-/

namespace GraphPattern

namespace Binary64

/-- The bits stand for a number or for an infinity. -/
def IsNumber (x : Binary64) : Prop := x.isNaN = false

theorem magnitude_ofMagnitude (negative : Bool) {m : Nat} (h : m<signBit) :
    (ofMagnitude negative m).magnitude = m := by
  have hs : signBit = 2^63 := by decide
  rw [hs] at h
  rw [magnitude,ofMagnitude,Nat.toUInt64_eq,UInt64.toNat_ofNat',hs]
  cases negative <;> simp only [if_true,if_false,Bool.false_eq_true] <;> omega

theorem isNumber_ofMagnitude (negative : Bool) {m : Nat} (h : m ≤ infinityMagnitude) :
    (ofMagnitude negative m).IsNumber := by
  have hlt : infinityMagnitude<signBit := by decide
  rw [IsNumber,isNaN,magnitude_ofMagnitude negative (Nat.lt_of_le_of_lt h hlt),
    decide_eq_false_iff_not]
  exact Nat.not_lt.mpr h

theorem nearestMagnitude_le (num den : Nat) : nearestMagnitude num den ≤ infinityMagnitude := by
  rw [nearestMagnitude]
  split
  · exact Nat.zero_le _
  · exact Nat.min_le_left _ _

theorem isNumber_ofRatio (negative : Bool) (num den : Nat) : (ofRatio negative num den).IsNumber :=
  isNumber_ofMagnitude negative (nearestMagnitude_le num den)

theorem isNumber_negate {x : Binary64} (h : x.IsNumber) : x.negate.IsNumber := by
  rw [IsNumber,isNaN,decide_eq_false_iff_not,Nat.not_lt] at h
  exact isNumber_ofMagnitude _ h

/-- What stands for a number is equal to itself. -/
theorem sameValue_self {x : Binary64} (h : x.IsNumber) : x.sameValue x = true := by
  rw [IsNumber] at h
  simp only [sameValue,compare?,h,Bool.or_self,Bool.false_eq_true,if_false,decide_eq_true_eq,
    Option.some.injEq]
  exact Std.ReflCmp.compare_self

end Binary64

/-- All floating-point numbers of the document stand for numbers. -/
inductive Json.Numeric : Json → Prop
  /-- The constant null. -/
  | null : Numeric .null
  /-- A truth value. -/
  | bool (b : Bool) : Numeric (.bool b)
  /-- An integer. -/
  | int (i : Int) : Numeric (.int i)
  /-- A floating-point number. -/
  | float {x : Binary64} (h : x.IsNumber) : Numeric (.float x)
  /-- A text. -/
  | string (s : String) : Numeric (.string s)
  /-- A list. -/
  | array {elements : List Json} (h : ∀ j ∈ elements, Numeric j) : Numeric (.array elements)
  /-- An object. -/
  | object {members : List (String × Json)} (h : ∀ m ∈ members, Numeric m.2) :
    Numeric (.object members)

namespace Json.Number

theorem isNumber_scaleWithin : ∀ (rounds : Nat) {x y : Binary64} {exponent : Int}, x.IsNumber →
    scaleWithin rounds x exponent = some y → y.IsNumber
  | 0, x, y, exponent, hx, h => by
    cases h
    exact hx
  | rounds+1, x, y, exponent, hx, h => by
    rw [scaleWithin] at h
    split at h
    · dsimp only at h
      split at h
      · cases h
      · cases h
        exact Binary64.isNumber_ofRatio _ _ _
    · split at h
      · cases h
        exact Binary64.isNumber_ofRatio _ _ _
      · split at h
        · cases h
          exact hx
        · split at h
          · cases h
          · exact isNumber_scaleWithin rounds (Binary64.isNumber_ofRatio _ _ _) h

theorem numeric_scale {negative : Bool} {significand : Nat} {exponent : Int} {j : Json}
    (h : scale negative significand exponent = some j) : j.Numeric := by
  obtain ⟨x,hx,rfl⟩ := Option.map_eq_some_iff.mp h
  have hn := isNumber_scaleWithin 4 (Binary64.isNumber_ofRatio _ _ _) hx
  split
  · exact .float (Binary64.isNumber_negate hn)
  · exact .float hn

/-- Every document that a reader finds at the front of a text is numeric. -/
def ReadsNumeric (found : Option (Json × List Char)) : Prop := ∀ j ∈ found.map Prod.fst, j.Numeric

theorem readsNumeric_scale (negative : Bool) (significand : Nat) (exponent : Int)
    (rest : List Char) :
    ReadsNumeric ((scale negative significand exponent).map (·,rest)) := by
  intro j hj
  rw [Option.map_map,Option.mem_def,Option.map_eq_some_iff] at hj
  obtain ⟨k,hk,rfl⟩ := hj
  exact numeric_scale hk

theorem readsNumeric_none : ReadsNumeric none := nofun

theorem readsNumeric_some {j : Json} (h : j.Numeric) (rest : List Char) :
    ReadsNumeric (some (j,rest)) := by
  rintro _ ⟨⟩
  exact h

theorem readsNumeric_readExponent? (negative : Bool) (significand : Nat) (exponent : Int)
    (cs : List Char) : ReadsNumeric (readExponent? negative significand exponent cs) := by
  rw [readExponent?]
  dsimp only
  split
  · exact readsNumeric_none
  · split
    · exact readsNumeric_scale _ _ _ _
    · split
      · exact readsNumeric_some (.float (Binary64.isNumber_ofMagnitude _ (Nat.zero_le _))) _
      · exact readsNumeric_none

theorem readsNumeric_readTail? (negative : Bool) (significand : Nat) (exponent : Int)
    (cs : List Char) : ReadsNumeric (readTail? negative significand exponent cs) := by
  rw [readTail?.eq_def]
  split
  · exact readsNumeric_readExponent? _ _ _ _
  · exact readsNumeric_readExponent? _ _ _ _
  · exact readsNumeric_scale _ _ _ _

theorem readsNumeric_readFraction? (negative : Bool) (significand : Nat) (exponent : Int)
    (cs : List Char) : ReadsNumeric (readFraction? negative significand exponent cs) := by
  rw [readFraction?]
  dsimp only
  split
  · exact readsNumeric_none
  · exact readsNumeric_readTail? _ _ _ _

theorem numeric_integer (negative : Bool) (significand : Nat) :
    (integer negative significand).Numeric := by
  rw [integer]
  split
  · split
    · exact .int _
    · exact .float (Binary64.isNumber_negate (Binary64.isNumber_ofRatio _ _ _))
  · exact .int _

theorem readsNumeric_readRest? (negative : Bool) (significand passed : Nat) (cs : List Char) :
    ReadsNumeric (readRest? negative significand passed cs) := by
  rw [readRest?.eq_def]
  split
  · exact readsNumeric_readFraction? _ _ _ _
  · exact readsNumeric_readExponent? _ _ _ _
  · exact readsNumeric_readExponent? _ _ _ _
  · split
    · exact readsNumeric_some (numeric_integer _ _) _
    · exact readsNumeric_scale _ _ _ _

theorem readsNumeric_readUnsigned? (negative : Bool) (cs : List Char) :
    ReadsNumeric (readUnsigned? negative cs) := by
  rw [readUnsigned?.eq_def]
  split
  · split
    · exact readsNumeric_none
    · exact readsNumeric_readRest? _ _ _ _
  · dsimp only
    split
    · exact readsNumeric_none
    · exact readsNumeric_readRest? _ _ _ _

theorem readsNumeric_read? (cs : List Char) : ReadsNumeric (Number.read? cs) := by
  rw [Number.read?.eq_def]
  split
  · exact readsNumeric_readUnsigned? _ _
  · exact readsNumeric_readUnsigned? _ _

end Json.Number

namespace Json.Reader

open Number

section Parts

variable {fuel : Nat}

/-- A value is numeric if the elements and the members inside it are. -/
theorem numeric_value
    (he : ∀ depth cs es rest, elements? fuel depth cs = some (es,rest) → ∀ j ∈ es, j.Numeric)
    (hm : ∀ depth cs ms rest, members? fuel depth cs = some (ms,rest) → ∀ m ∈ ms, m.2.Numeric)
    (depth : Nat) (cs : List Char) : ReadsNumeric (value? (fuel + 1) depth cs) := by
  rw [value?]
  split
  · exact readsNumeric_some .null _
  · exact readsNumeric_some (.bool _) _
  · exact readsNumeric_some (.bool _) _
  · intro j hj
    rw [Option.map_map,Option.mem_def,Option.map_eq_some_iff] at hj
    obtain ⟨s,-,rfl⟩ := hj
    exact .string _
  · split
    · exact readsNumeric_none
    · split
      · exact readsNumeric_some (.array fun _ hj => absurd hj List.not_mem_nil) _
      · intro j hj
        rw [Option.map_map,Option.mem_def,Option.map_eq_some_iff] at hj
        obtain ⟨⟨es,rest⟩,hes,rfl⟩ := hj
        exact .array (he _ _ _ _ hes)
  · split
    · exact readsNumeric_none
    · split
      · exact readsNumeric_some (.object fun _ hm => absurd hm List.not_mem_nil) _
      · intro j hj
        rw [Option.map_map,Option.mem_def,Option.map_eq_some_iff] at hj
        obtain ⟨⟨ms,rest⟩,hms,rfl⟩ := hj
        exact .object (hm _ _ _ _ hms)
  · exact readsNumeric_read? _

theorem numeric_elements (hv : ∀ depth cs, ReadsNumeric (value? fuel depth cs))
    (he : ∀ depth cs es rest, elements? fuel depth cs = some (es,rest) → ∀ j ∈ es, j.Numeric)
    {depth : Nat} {cs rest : List Char} {es : List Json}
    (h : elements? (fuel + 1) depth cs = some (es,rest)) : ∀ j ∈ es, j.Numeric := by
  rw [elements?] at h
  split at h
  · cases h
  · rename_i element rest' hvalue
    have helement : element.Numeric := hv _ _ _ (by rw [hvalue]; rfl)
    split at h
    · cases h
      exact fun j hj => List.mem_singleton.mp hj ▸ helement
    · obtain ⟨⟨es',rest''⟩,hes,heq⟩ := Option.map_eq_some_iff.mp h
      cases heq
      intro j hj
      rcases List.mem_cons.mp hj with rfl|hj
      · exact helement
      · exact he _ _ _ _ hes j hj
    · cases h

theorem numeric_members (hv : ∀ depth cs, ReadsNumeric (value? fuel depth cs))
    (hm : ∀ depth cs ms rest, members? fuel depth cs = some (ms,rest) → ∀ m ∈ ms, m.2.Numeric)
    {depth : Nat} {cs rest : List Char} {ms : List (String × Json)}
    (h : members? (fuel + 1) depth cs = some (ms,rest)) : ∀ m ∈ ms, m.2.Numeric := by
  rw [members?] at h
  split at h
  · split at h
    · cases h
    · split at h
      · split at h
        · cases h
        · rename_i element rest' hvalue
          have helement : element.Numeric := hv _ _ _ (by rw [hvalue]; rfl)
          split at h
          · cases h
            exact fun m hm => List.mem_singleton.mp hm ▸ helement
          · obtain ⟨⟨ms',rest''⟩,hms,heq⟩ := Option.map_eq_some_iff.mp h
            cases heq
            intro m hmem
            rcases List.mem_cons.mp hmem with rfl|hmem
            · exact helement
            · exact hm _ _ _ _ hms m hmem
          · cases h
      · cases h
  · cases h

end Parts

/-- What the reader makes of the front of a text, element by element and member by member, is
numeric. The number of steps carries the induction. -/
theorem numeric_read (fuel : Nat) :
    (∀ depth cs, ReadsNumeric (value? fuel depth cs)) ∧
    (∀ depth cs es rest, elements? fuel depth cs = some (es,rest) → ∀ j ∈ es, j.Numeric) ∧
    (∀ depth cs ms rest, members? fuel depth cs = some (ms,rest) → ∀ m ∈ ms, m.2.Numeric) := by
  induction fuel with
  | zero =>
    refine ⟨fun _ _ => ?_,fun _ _ _ _ h => ?_,fun _ _ _ _ h => ?_⟩
    · rw [value?]
      exact readsNumeric_none
    · rw [elements?] at h
      cases h
    · rw [members?] at h
      cases h
  | succ fuel ih =>
    obtain ⟨ihv,ihe,ihm⟩ := ih
    exact ⟨numeric_value ihe ihm,fun _ _ _ _ => numeric_elements ihv ihe,
      fun _ _ _ _ => numeric_members ihv ihm⟩

/-- A document that is read is numeric. -/
theorem numeric_of_read? {text : String} {j : Json} (h : read? text = some j) : j.Numeric := by
  rw [read?] at h
  split at h
  · rename_i document rest hv
    split at h
    · cases h
      exact (numeric_read _).1 _ _ _ (by rw [hv]; rfl)
    · cases h
  · cases h

end Json.Reader

end GraphPattern
