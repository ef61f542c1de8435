import GraphPattern.Binary64.Decimal

/-!
# JSON documents

A document as data. Numbers written as integers that fit into 64 bits, with or without a sign, stay
integers; all others are floating-point. Objects keep their members in the order and with the
repetitions of the text.
-/

namespace GraphPattern

/-- A document or a part of one. -/
inductive Json where
  /-- The constant null. -/
  | null
  /-- A truth value. -/
  | bool (b : Bool)
  /-- A number that is kept as an integer. -/
  | int (i : Int)
  /-- Any other number. -/
  | float (x : Binary64)
  /-- A text. -/
  | string (s : String)
  /-- A list. -/
  | array (elements : List Json)
  /-- An object. -/
  | object (members : List (String × Json))
deriving Inhabited

namespace Json

/-- The number of a natural number. -/
def nat (n : Nat) : Json := int n

/-- The value if there is one, else null. -/
def optional {α : Type} (f : α → Json) : Option α → Json
  | some a => f a
  | none => null

/-- The list of some values. -/
def list {α : Type} (f : α → Json) (xs : List α) : Json := array (xs.map f)

/-- The list of some texts. -/
def strings (xs : List String) : Json := list string xs

/-- The last member of an object with a given key. -/
def member? (key : String) : Json → Option Json
  | object members => (members.reverse.find? fun m => m.1 = key).map Prod.snd
  | _ => none

/-- Read a text. -/
def string? : Json → Option String
  | string s => some s
  | _ => none

/-- Read a truth value. -/
def bool? : Json → Option Bool
  | bool b => some b
  | _ => none

/-- Read a natural number. -/
def nat? : Json → Option Nat
  | int i => i.toNat?
  | _ => none

/-- Read an integer. -/
def int? : Json → Option Int
  | int i => some i
  | _ => none

/-- Read a list. -/
def array? : Json → Option (List Json)
  | array elements => some elements
  | _ => none

mutual

/-- Equality of documents is decided part by part. -/
def decideEq : (a b : Json) → Decidable (a = b)
  | null, null => isTrue rfl
  | bool a, bool b => decidable_of_iff (a = b) (by simp)
  | int a, int b => decidable_of_iff (a = b) (by simp)
  | float a, float b => decidable_of_iff (a = b) (by simp)
  | string a, string b => decidable_of_iff (a = b) (by simp)
  | array as, array bs => @decidable_of_iff _ (as = bs) (by simp) (decideEqElements as bs)
  | object as, object bs => @decidable_of_iff _ (as = bs) (by simp) (decideEqMembers as bs)
  | null, bool _ | null, int _ | null, float _ | null, string _ | null, array _ | null, object _ =>
    isFalse (by simp)
  | bool _, null | bool _, int _ | bool _, float _ | bool _, string _ | bool _, array _
  | bool _, object _ => isFalse (by simp)
  | int _, null | int _, bool _ | int _, float _ | int _, string _ | int _, array _
  | int _, object _ => isFalse (by simp)
  | float _, null | float _, bool _ | float _, int _ | float _, string _ | float _, array _
  | float _, object _ => isFalse (by simp)
  | string _, null | string _, bool _ | string _, int _ | string _, float _ | string _, array _
  | string _, object _ => isFalse (by simp)
  | array _, null | array _, bool _ | array _, int _ | array _, float _ | array _, string _
  | array _, object _ => isFalse (by simp)
  | object _, null | object _, bool _ | object _, int _ | object _, float _ | object _, string _
  | object _, array _ => isFalse (by simp)

/-- Equality of lists of documents is decided part by part. -/
def decideEqElements : (as bs : List Json) → Decidable (as = bs)
  | [], [] => isTrue rfl
  | a :: as, b :: bs =>
    match decideEq a b, decideEqElements as bs with
    | isTrue h, isTrue t => isTrue (by rw [h, t])
    | isFalse h, _ => isFalse (by simp [h])
    | _, isFalse t => isFalse (by simp [t])
  | [], _ :: _ => isFalse (by simp)
  | _ :: _, [] => isFalse (by simp)

/-- Equality of lists of members is decided part by part. -/
def decideEqMembers : (as bs : List (String × Json)) → Decidable (as = bs)
  | [], [] => isTrue rfl
  | (j, a) :: as, (k, b) :: bs =>
    match decEq j k, decideEq a b, decideEqMembers as bs with
    | isTrue h, isTrue t, isTrue u => isTrue (by rw [h, t, u])
    | isFalse h, _, _ => isFalse (by simp [h])
    | _, isFalse t, _ => isFalse (by simp [t])
    | _, _, isFalse u => isFalse (by simp [u])
  | [], _ :: _ => isFalse (by simp)
  | _ :: _, [] => isFalse (by simp)

end

instance : DecidableEq Json := decideEq

end Json

end GraphPattern
