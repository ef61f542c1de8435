import GraphPattern.Execution

/-!
# Settings

How queries are planned and how plans are run.
-/

namespace GraphPattern

/-- The settings of a session. -/
structure Settings where
  /-- How queries are planned. -/
  search : SearchConfig
  /-- How plans are run. -/
  execution : ExecutionConfig
deriving DecidableEq

namespace Settings

/-- The settings unless others are chosen. -/
def standard : Settings := ⟨.standard, .standard⟩

end Settings

end GraphPattern
