import ScriptTypes.Resolution
import ScriptTypes.Seeds

/-!
# Inference

The types of the names of a program. The names are collected, the call graph is built, and rounds
of observing uses and resolving follow until the text of the map repeats, the rounds are used up,
or the time is.
-/

namespace ScriptTypes

open Typing

/-- What is offered where a syntax tree is asked for. -/
inductive RootError where
  | notATree (kind : String)
deriving Repr

/-- The words for what is wrong with a root. -/
def RootError.message : RootError → String
  | notATree kind => "Expected a tree-sitter Tree or Node, got " ++ kind

namespace Inference

/-- What the declarations of a program tell. -/
def initial (root : Place) : Knowledge := ⟨TypeMap.collect root.node, .empty⟩

/-- One round: the uses of the names as they are known now, then resolution. -/
def round (scope : Scope) (root : Place) (known : Knowledge) : Knowledge :=
  resolve scope root.node (Usage.ofProgram root known.types) known

/-- Rounds until the text of the map repeats, or the time is used up; at most so many. The clock is
read after each round whose text is new, and the next round goes on reading it from there. -/
def settle (scope : Scope) (root : Place) : Nat → Knowledge → Knowledge
  | 0, known => known
  | rounds + 1, known =>
    let session := roundSession scope root.node known
    let next := session.withUses (Usage.ofProgram root known.types)
    if next.types.serialize = known.types.serialize || scope.limits.expired session.readings then
      next
    else settle (scope.later (session.readings + 1)) root rounds next

theorem settle_succ (scope : Scope) (root : Place) (count : Nat) (known : Knowledge) :
    settle scope root (count + 1) known =
      if (round scope root known).types.serialize = known.types.serialize ||
          scope.limits.expired (roundSession scope root.node known).readings then
        round scope root known
      else
        settle (scope.later ((roundSession scope root.node known).readings + 1)) root count
          (round scope root known) := rfl

/-- What every round keeps holds when the rounds have settled. -/
theorem settle_invariant {scope : Scope} {root : Place} {P : Knowledge → Prop}
    (hround : ∀ limits known, P known → P (round ⟨scope.graph, limits⟩ root known)) (count : Nat)
    {known : Knowledge} (h : P known) : P (settle scope root count known) := by
  induction count generalizing scope known with
  | zero => exact h
  | succ count ih =>
    have hnext := hround scope.limits known h
    rw [settle_succ]
    split
    · exact hnext
    · refine ih ?_ hnext
      exact hround

/-- The types of the names of a program. -/
def run (budget : Budget) (root : Place) : TypeMap :=
  let scope : Scope := ⟨CallGraph.ofProgram root, budget.limits⟩
  (settle scope root budget.config.maxIterations (initial root)).types

/-- The uses seen and the knowledge gained in each of some rounds, whether the map settles or not.
Each round goes on reading the clock where the one before it left off. -/
def rounds (scope : Scope) (root : Place) : Nat → Knowledge → List (Usage × Knowledge)
  | 0, _ => []
  | count + 1, known =>
    let usage := Usage.ofProgram root known.types
    let session := roundSession scope root.node known
    let next := session.withUses usage
    (usage, next) :: rounds (scope.later session.readings) root count next

theorem rounds_succ (scope : Scope) (root : Place) (count : Nat) (known : Knowledge) :
    rounds scope root (count + 1) known =
      (Usage.ofProgram root known.types, round scope root known) ::
        rounds (scope.later (roundSession scope root.node known).readings) root count
          (round scope root known) := rfl

end Inference

end ScriptTypes
