import TaskBoard.Registry

/-!
Boards. A board owns its registries and the groups that it resolved last, knows the directory that
provided paths are made relative to, and holds the user code that lists files and runs host tasks.
-/

namespace TaskBoard

structure Board where
  /-- The working directory that provider paths are made relative to. -/
  cwd : String
  registry : Registry := {}
  /-- The groups resolved by the last collection. -/
  groups : List Nat := []
  /-- User code that lists the files of a pattern, instead of the file tree. -/
  lister : Option Nat := none
  /-- User code that runs a task of the host tool. -/
  runner : Nat
  deriving Repr, Inhabited

namespace Board

/-- The entry `paths` of the configurations, empty unless it is a mapping. -/
def paths (b : Board) (h : Heap) : Mapping :=
  match b.registry.configs.at? "paths" with
  | some (.map cell) => h.mapAt cell
  | _ => {}

end Board

end TaskBoard
