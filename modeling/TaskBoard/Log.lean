import TaskBoard.Failure

/-! The lines that the library logs, each with the failure that it reports, if any. -/

namespace TaskBoard

inductive Severity where
  | debug
  | info
  | warning
  | error
  deriving DecidableEq, Repr

structure LogLine where
  severity : Severity
  text : String
  failure : Option Failure := none
  deriving DecidableEq, Repr

end TaskBoard
