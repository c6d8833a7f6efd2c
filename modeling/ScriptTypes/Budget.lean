import ScriptTypes.Confidence.Binary64

/-!
# Budgets

How far a run may go: how deep evaluations of functions nest, how long it may take and how many
rounds it has. A time of zero sets no limit of time.

* `Config.ofInts?`: the limits asked for, if they make sense.
* `Budget.deadlinePassed`: whether the time is used up at a reading of the clock.
* `Limits`: what a budget comes to, reading by reading.
-/

namespace ScriptTypes

/-- What is wrong with the limits asked for. -/
inductive ConfigError where
  | depthNotPositive
  | timeNegative
  | iterationsNotPositive
deriving DecidableEq, Repr

/-- The words for what is wrong. -/
def ConfigError.message : ConfigError → String
  | depthNotPositive => "max_depth must be a positive integer"
  | timeNegative => "max_time must be a non-negative number of milliseconds"
  | iterationsNotPositive => "max_iterations must be a positive integer"

/-- The limits of a run. The time is in milliseconds. -/
structure Config where
  maxDepth : Nat
  maxTime : Nat
  maxIterations : Nat
  maxDepth_pos : 0 < maxDepth
  maxIterations_pos : 0 < maxIterations

namespace Config

/-- The depth that is allowed if none is asked for. -/
def defaultDepth : Int := 8

/-- The time that is allowed if none is asked for. -/
def defaultTime : Int := 5000

/-- The number of rounds that is allowed if none is asked for. -/
def defaultIterations : Int := 5

/-- The limits asked for; of several faults the depth is named first, then the time. -/
def ofInts? (depth time iterations : Int) : Except ConfigError Config :=
  if hd : depth < 1 then .error .depthNotPositive
  else if time < 0 then .error .timeNegative
  else if hi : iterations < 1 then .error .iterationsNotPositive
  else .ok ⟨depth.toNat, time.toNat, iterations.toNat, by omega, by omega⟩

end Config

/-- The limits of a run with the readings of a clock that was at zero when the run began, one after
the other: doubles, by their bits, in seconds. -/
structure Budget where
  config : Config
  clock : Nat → Nat

namespace Budget

variable (budget : Budget)

/-- The time since the start at a reading of the clock, in milliseconds: a double, by its bits. -/
def elapsedMs (reading : Nat) : Nat := Binary64.thousandfold (budget.clock reading)

/-- Whether there is a limit of time and it is exceeded at a reading of the clock. -/
def deadlinePassed (reading : Nat) : Bool :=
  budget.config.maxTime ≠ 0 && !Binary64.atMost (budget.elapsedMs reading) budget.config.maxTime

/-- Whether an evaluation would nest too deep. -/
def depthExceeded (depth : Int) : Bool := budget.config.maxDepth < depth

/-- Whether an evaluation at a depth is refused. The clock is read unless it nests too deep. -/
def exceeded (depth : Int) (reading : Nat) : Bool :=
  budget.depthExceeded depth || budget.deadlinePassed reading

end Budget

/-- What a budget comes to: how deep evaluations may nest, and whether the time is used up at each
reading of the clock. -/
structure Limits where
  maxDepth : Nat
  expired : Nat → Bool

/-- The limits that a budget sets. -/
def Budget.limits (budget : Budget) : Limits := ⟨budget.config.maxDepth, budget.deadlinePassed⟩

/-- The limits once the clock was read so often. -/
def Limits.later (limits : Limits) (readings : Nat) : Limits :=
  { limits with expired := fun reading => limits.expired (reading + readings) }

end ScriptTypes
