import GraphPattern.Settings
import GraphPattern.Settings.Document

/-!
# Reading settings

A settings document has a section for planning and a section for running. A section is opened once,
by a header, by a value or by keys with its name in front; a key is set once. What is not set keeps
its standard value, and an unknown section or key makes the document unusable.
-/

namespace GraphPattern.Settings.Reader

/-- What a document has said so far. -/
structure Draft where
  /-- The section whose header came last. -/
  current : Option String
  /-- The sections that a header or a value has opened. -/
  opened : List String
  /-- The sections whose name has stood in front of a key. -/
  dotted : List String
  /-- The settings by section and key. -/
  entries : List ((String × String) × Entry)

namespace Draft

/-- Nothing has been said. -/
def empty : Draft := ⟨none, [], [], []⟩

/-- Set a key of a section, which must not have been set. -/
def set? (d : Draft) (section_ key : String) (value : Entry) : Option Draft :=
  if d.entries.any fun e => e.1 = (section_, key) then none
  else some { d with entries := d.entries ++ [((section_, key), value)] }

/-- Set several keys of a section. -/
def setAll? (section_ : String) : List (List String × Entry) → Draft → Option Draft
  | [], d => some d
  | ([key], value) :: fields, d => (d.set? section_ key value).bind (setAll? section_ fields)
  | _, _ => none

/-- Open a section, which must not have been mentioned. -/
def open? (d : Draft) (section_ : String) : Option Draft :=
  if section_ ∈ d.opened || section_ ∈ d.dotted then none
  else some { d with opened := section_ :: d.opened }

end Draft

/-- The sections and their keys, in the order in which a list gives their values. -/
def sections : List (String × List String) :=
  [("planner", ["exhaustive", "max_states"]),
    ("executor", ["replace_existing", "commit_each_step"])]

/-- The keys of a section. -/
def keys? (section_ : String) : Option (List String) :=
  (sections.find? fun s => s.1 = section_).map Prod.snd

/-- Take note of a value for a section. Values of a list for which the section has no key say
nothing. -/
def assignSection? (d : Draft) (section_ : String) (keys : List String) :
    Entry → Option Draft
  | .table fields => (d.open? section_).bind (Draft.setAll? section_ fields)
  | .list values =>
    (d.open? section_).bind
      (Draft.setAll? section_ ((keys.zip values).map fun (key, value) => ([key], value)))
  | _ => none

/-- Take note of a statement. -/
def step? (d : Draft) : Statement → Option Draft
  | .header [section_] => do
    let _ ← keys? section_
    let opened ← d.open? section_
    return { opened with current := some section_ }
  | .header _ => none
  | .assign path value =>
    match d.current, path with
    | some section_, [key] => d.set? section_ key value
    | none, [section_] => do
      let keys ← keys? section_
      assignSection? d section_ keys value
    | none, [section_, key] =>
      if section_ ∈ d.opened then none
      else ({ d with dotted := section_ :: d.dotted } : Draft).set? section_ key value
    | _, _ => none

/-- A truth value. -/
def bool? : Entry → Option Bool
  | .bool b => some b
  | _ => none

/-- A natural number. -/
def nat? : Entry → Option Nat
  | .int i => i.toNat?
  | _ => none

/-- The settings with one of them changed. -/
def change? (s : Settings) (entry : (String × String) × Entry) : Option Settings :=
  match entry with
  | (("planner", "exhaustive"), value) => do
    return { s with search.exhaustive := ← bool? value }
  | (("planner", "max_states"), value) => do
    return { s with search.maxStates := some (← nat? value) }
  | (("executor", "replace_existing"), value) => do
    return { s with execution.replaceExisting := ← bool? value }
  | (("executor", "commit_each_step"), value) => do
    return { s with execution.commitEachStep := ← bool? value }
  | _ => none

/-- Read settings from a document. -/
def ofText? (text : String) : Option Settings := do
  let statements ← Document.read? text
  let draft ← statements.foldlM step? .empty
  draft.entries.foldlM change? .standard

end GraphPattern.Settings.Reader
