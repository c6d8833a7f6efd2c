import ScriptTypes.Budget

/-!
# Settings from the environment

The limits of a run may be set by variables of the environment, whose names count in any letter
case. Values asked for directly come before them.
-/

namespace ScriptTypes

/-- What is wrong with the settings. -/
inductive SettingsError where
  | notAnInteger (name : String)
  | config (error : ConfigError)
deriving Repr

/-- The limits that the environment sets, as written there. -/
structure Settings where
  depth : Int
  time : Int
  iterations : Int

namespace Settings

/-- The value of a decimal text: digits, with or without a sign. -/
def integer? (text : String) : Option Int :=
  let digits? (cs : List Char) : Option Nat :=
    if cs.isEmpty || !cs.all Char.isDigit then none
    else some (cs.foldl (fun n c => 10 * n + (c.toNat - 48)) 0)
  match text.toList with
  | '-' :: cs => (digits? cs).map fun n => -(n : Int)
  | '+' :: cs => (digits? cs).map fun n => (n : Int)
  | cs => (digits? cs).map fun n => (n : Int)

/-- The variable's value, the given one if it is not set. -/
def valueOf (env : List (String × String)) (name : String) (unset : Int) :
    Except SettingsError Int :=
  match env.reverse.find? (fun entry => entry.1.toLower = name) with
  | none => .ok unset
  | some (_, text) =>
    match integer? text with
    | some n => .ok n
    | none => .error (.notAnInteger name)

/-- The settings of an environment. -/
def ofEnvironment? (env : List (String × String)) : Except SettingsError Settings := do
  let depth ← valueOf env "inference_max_depth" Config.defaultDepth
  let time ← valueOf env "inference_max_time_ms" Config.defaultTime
  let iterations ← valueOf env "inference_max_iterations" Config.defaultIterations
  pure ⟨depth, time, iterations⟩

/-- The limits of a run: those asked for directly, the settings where none is asked for. -/
def config? (settings : Settings) (depth time iterations : Option Int) :
    Except SettingsError Config :=
  (Config.ofInts? (depth.getD settings.depth) (time.getD settings.time)
    (iterations.getD settings.iterations)).mapError .config

end Settings

end ScriptTypes
