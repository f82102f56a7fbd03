import TaskBoard.Failure
import TaskBoard.Number.Double

/-! The times that a clock gives, and what they are in milliseconds. -/

namespace TaskBoard

/-- A time in seconds, either a whole number or a floating-point one. -/
inductive Clock where
  | whole (seconds : Int)
  | real (seconds : Double)
  deriving Repr

/-- The time in milliseconds, cut toward zero; the product of a floating-point time is rounded first. An
infinite time overflows, and what is no number has no milliseconds. -/
def Clock.milliseconds : Clock → Except Failure Int
  | whole seconds => pure (seconds * 1000)
  | real seconds =>
    let product := seconds.mul (Double.ofInt 1000)
    if product.isNaN then throw .badValue
    else if product.isInfinite then throw .overflow
    else pure product.truncate

end TaskBoard
