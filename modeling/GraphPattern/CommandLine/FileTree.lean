import GraphPattern.CommandLine

/-!
# Files in memory

A tree of files answers what is found under a path as a file system does: the path is followed step
by step from the root or from the working directory, every step must start in a directory, one point
stays there and two lead up. A directory is there because it leads to a file or to the working
directory.
-/

namespace GraphPattern.CommandLine

/-- Files and a working directory. -/
structure FileTree where
  /-- The steps from the root to the working directory. -/
  base : List String
  /-- The files with the steps that lead to each from the root. -/
  files : List (List String × List UInt8)

namespace FileTree

/-- The greatest number of bytes of a step. -/
def stepLimit : Nat := 255

/-- The greatest number of bytes of a path. -/
def pathLimit : Nat := 4095

/-- The steps of a path. Slashes at its ends and behind one another have empty steps beside them. -/
def steps : List Char → List (List Char)
  | [] => [[]]
  | c :: cs =>
    match c, steps cs with
    | '/', parts => [] :: parts
    | c, part :: parts => (c :: part) :: parts
    | c, [] => [[c]]

/-- Where a path starts, and its steps. -/
def start (base : List String) (path : String) : List String × List String :=
  let here := if path.toList.head? = some '/' then [] else base
  (here, (steps path.toList).map String.ofList)

/-- The place that a step leads to, whatever is there. -/
def follow (here : List String) (step : String) : List String :=
  if step = "" || step = "." then here
  else if step = ".." then here.dropLast
  else here ++ [step]

/-- The tree of some files, given by their paths, with a working directory. -/
def ofFiles (directory : String) (files : List (String × List UInt8)) : FileTree :=
  let place := fun (base : List String) (path : String) =>
    let (here, steps) := start base path
    steps.foldl follow here
  let base := place [] directory
  ⟨base, files.map fun (path, bytes) => (place base path, bytes)⟩

/-- The bytes of the file at a place. -/
def file? (t : FileTree) (place : List String) : Option (List UInt8) := t.files.lookup place

/-- Whether there is a directory at a place. -/
def isDirectory (t : FileTree) (place : List String) : Bool :=
  place.isPrefixOf t.base ||
    t.files.any fun f => place.isPrefixOf f.1 && place.length < f.1.length

/-- The place that steps lead to. -/
def walk (t : FileTree) (here : List String) : List String → Except FileFault (List String)
  | [] => return here
  | step :: rest =>
    if t.isDirectory here then
      if stepLimit < step.utf8ByteSize then throw .nameTooLong
      else walk t (follow here step) rest
    else throw (if (t.file? here).isSome then .notDirectory else .missing)

/-- The bytes of the file under a path. -/
def read (t : FileTree) (path : String) : Except FileFault (List UInt8) := do
  if path = "" then throw .missing
  if pathLimit < path.utf8ByteSize then throw .nameTooLong
  let (here, steps) := start t.base path
  let place ← t.walk here steps
  match t.file? place with
  | some bytes => return bytes
  | none => throw (if t.isDirectory place then .directory else .missing)

example : (ofFiles "/home" [("a", [1]), ("b/c", [2])]).read "b/..//a" = .ok [1] := by rfl
example : (ofFiles "/home" [("a", [1])]).read "b/../a" = .error .missing := by rfl
example : (ofFiles "/home" [("a", [1])]).read "a/../a" = .error .notDirectory := by rfl

end FileTree

end GraphPattern.CommandLine
