import ScriptTypes.Proofs.FirstOrder

/-!
# Answers for many rounds

With enough time the answer of a run comes to rest as more rounds are allowed: all names but those
of functions, and all confidences. The type of a function may grow for ever if the function returns
itself; if the functions of a program are only called, the whole answer comes to rest.

* `settle_eq_of_repeat`, `settle_eq_after`: where settling ends.
* `ComesToRest`: maps that stay from some index on, but for the types of functions.
* `comesToRest_after`: the maps of the rounds do, and with them the answers of the runs.
* `after_selfReturning`: a program whose answer changes with each round.
-/

namespace ScriptTypes

/-- The same limits with another number of rounds, at least one. -/
def Budget.withRounds (budget : Budget) (count : Nat) : Budget :=
  { budget with
    config := { budget.config with
      maxIterations := max 1 count
      maxIterations_pos := Nat.lt_of_lt_of_le Nat.zero_lt_one (Nat.le_max_left 1 count) } }

/-- Without a limit of time the deadline never passes. -/
theorem Budget.deadlinePassed_eq_false {budget : Budget} (h : budget.config.maxTime = 0)
    (reading : Nat) : budget.deadlinePassed reading = false := by
  simp [deadlinePassed, h]

namespace Inference

open Typing Filter

/-! ## Where settling ends -/

section

variable {program : Place} {limits : Limits} {known : Knowledge}

theorem after_round (program : Place) (limits : Limits) (known : Knowledge) (count : Nat) :
    after program limits (round ⟨CallGraph.ofProgram program, limits⟩ program known) count =
      after program limits known (count + 1) := rfl

/-- As long as there is time, all rounds read the clock alike. -/
theorem settle_succ_of_ample (hample : limits.Ample) (program : Place) (count : Nat)
    (known : Knowledge) :
    settle ⟨CallGraph.ofProgram program, limits⟩ program (count + 1) known =
      if (round ⟨CallGraph.ofProgram program, limits⟩ program known).types.serialize =
          known.types.serialize then
        round ⟨CallGraph.ofProgram program, limits⟩ program known
      else
        settle ⟨CallGraph.ofProgram program, limits⟩ program count
          (round ⟨CallGraph.ofProgram program, limits⟩ program known) := by
  rw [settle_succ, Scope.later, hample.later, hample.expired]
  simp only [Bool.or_false, decide_eq_true_eq]

/-- Once the text of the map repeats, more rounds are not used. -/
theorem settle_eq_of_repeat (hample : limits.Ample) {k : Nat}
    (h : (after program limits known (k + 1)).types.serialize =
      (after program limits known k).types.serialize) {count : Nat} (hcount : k ≤ count) :
    settle ⟨CallGraph.ofProgram program, limits⟩ program (count + 1) known =
      settle ⟨CallGraph.ofProgram program, limits⟩ program (k + 1) known := by
  induction k generalizing known count with
  | zero =>
    have hstop : (round ⟨CallGraph.ofProgram program, limits⟩ program known).types.serialize =
        known.types.serialize := h
    rw [settle_succ_of_ample hample, settle_succ_of_ample hample, if_pos hstop, if_pos hstop]
  | succ k ih =>
    obtain ⟨count, rfl⟩ : ∃ m, count = m + 1 := ⟨count - 1, by omega⟩
    have hnext := @ih (round ⟨CallGraph.ofProgram program, limits⟩ program known)
    rw [after_round, after_round] at hnext
    rw [settle_succ_of_ample hample _ (count + 1), settle_succ_of_ample hample _ (k + 1),
      hnext h (by omega)]

/-- As long as the text of the map changes, all rounds are used. -/
theorem settle_eq_after (hample : limits.Ample)
    (h : ∀ k, (after program limits known (k + 1)).types.serialize ≠
      (after program limits known k).types.serialize) (count : Nat) :
    settle ⟨CallGraph.ofProgram program, limits⟩ program count known =
      after program limits known count := by
  induction count generalizing known with
  | zero => rfl
  | succ count ih =>
    have hgo : (round ⟨CallGraph.ofProgram program, limits⟩ program known).types.serialize ≠
        known.types.serialize := h 0
    have hnext := @ih (round ⟨CallGraph.ofProgram program, limits⟩ program known)
    simp only [after_round] at hnext
    rw [settle_succ_of_ample hample, if_neg hgo, hnext fun k => h (k + 1)]

end

/-- The answer of a run with some rounds. -/
theorem run_withRounds (budget : Budget) (program : Place) {count : Nat} (h : 1 ≤ count) :
    run (budget.withRounds count) program =
      (settle ⟨CallGraph.ofProgram program, budget.limits⟩ program count
        (initial program)).types := by
  have hcount : (budget.withRounds count).config.maxIterations = count := Nat.max_eq_right h
  rw [run, hcount]
  rfl

/-! ## Coming to rest -/

/-- From some index on the maps are similar, and the same on all names but those of functions; if
the functions of the program are only called, they are the same on all names. -/
def ComesToRest (program : Place) (maps : Nat → TypeMap) : Prop :=
  ∃ start, ∀ n ≥ start, ∀ name,
    Similar ((maps start).get? name) ((maps n).get? name) ∧
      ((CallGraph.ofProgram program).declares name = false ∨ FirstOrder program →
        (maps n).get? name = (maps start).get? name)

/-- The maps of successive rounds come to rest. -/
theorem comesToRest_after (program : Place) {limits : Limits} (hample : limits.Ample)
    (known : Knowledge) :
    ComesToRest program fun n => (after program limits known n).types := by
  obtain ⟨start, halike⟩ := eventually_atTop.1 (eventually_alike program limits known)
  refine ⟨start + 1, fun n hn name => ?_⟩
  have hrest : Alike (CallGraph.ofProgram program)
      (fun name => (CallGraph.ofProgram program).declares name = false)
      (after program limits known (start + 1)) (after program limits known n) := by
    induction n, hn using Nat.le_induction with
    | base => exact .refl _ _ _
    | succ n hn ih => exact ih.trans (halike n (by omega))
  refine ⟨hrest.types.similar name, fun hor => ?_⟩
  rcases hor with hname | hprogram
  · exact (hrest.types.equal name hname).symm
  · -- Where functions are only called, each round after the first that goes on alike is the same.
    clear hrest
    induction n, hn using Nat.le_induction with
    | base => rfl
    | succ n hn ih =>
      obtain ⟨m, rfl⟩ : ∃ m, n = m + 1 := ⟨n - 1, by omega⟩
      have hsame := (agrees_round hprogram hample (halike m (by omega))).equal name trivial
      rw [← after_succ, ← after_succ] at hsame
      exact hsame.symm.trans ih

/-- Without a limit of time the maps of the rounds come to rest, and so do the answers of the runs
as more rounds are allowed. -/
theorem answers_come_to_rest (program : Place) (budget : Budget)
    (htime : budget.config.maxTime = 0) :
    ComesToRest program
        (fun n => (after program budget.limits (initial program) n).types) ∧
      ComesToRest program fun n => run (budget.withRounds n) program := by
  have hample := Budget.ample_limits (Budget.deadlinePassed_eq_false htime)
  have hrounds := comesToRest_after program hample (initial program)
  refine ⟨hrounds, ?_⟩
  by_cases hrepeat : ∃ k,
      (after program budget.limits (initial program) (k + 1)).types.serialize =
        (after program budget.limits (initial program) k).types.serialize
  · obtain ⟨k, hk⟩ := hrepeat
    have hanswer : ∀ n ≥ k + 1, run (budget.withRounds n) program =
        (settle ⟨CallGraph.ofProgram program, budget.limits⟩ program (k + 1)
          (initial program)).types := by
      intro n hn
      obtain ⟨m, rfl⟩ : ∃ m, n = m + 1 := ⟨n - 1, by omega⟩
      rw [run_withRounds budget program (by omega), settle_eq_of_repeat hample hk (by omega)]
    refine ⟨k + 1, fun n hn name => ?_⟩
    dsimp only
    rw [hanswer n hn, hanswer (k + 1) (Nat.le_refl _)]
    exact ⟨.same _, fun _ => rfl⟩
  · have hanswer : ∀ n ≥ 1, run (budget.withRounds n) program =
        (after program budget.limits (initial program) n).types := fun n hn => by
      rw [run_withRounds budget program hn,
        settle_eq_after hample fun k hk => hrepeat ⟨k, hk⟩]
    obtain ⟨start, hstart⟩ := hrounds
    refine ⟨start + 1, fun n hn name => ?_⟩
    dsimp only
    rw [hanswer n (by omega), hanswer (start + 1) (by omega)]
    obtain ⟨hfirst, hsame⟩ := hstart (start + 1) (by omega) name
    obtain ⟨hlater, hsame'⟩ := hstart n (by omega) name
    exact ⟨hfirst.symm.trans hlater, fun hor => (hsame' hor).trans (hsame hor).symm⟩

/-- In the program of `shadowedResult` functions are only called, so its whole answer comes to
rest. -/
theorem answers_come_to_rest_shadowed :
    patient.config.maxTime = 0 ∧ FirstOrder shadowedResult ∧
      ∃ start, ∀ n ≥ start, ∀ name,
        (run (patient.withRounds n) shadowedResult).get? name =
          (run (patient.withRounds start) shadowedResult).get? name := by
  have hprogram : FirstOrder shadowedResult := ⟨by decide, by decide, by decide⟩
  obtain ⟨start, hstart⟩ := (answers_come_to_rest shadowedResult patient rfl).2
  exact ⟨rfl, hprogram, start, fun n hn name => (hstart n hn name).2 (.inr hprogram)⟩

/-! ## A type that grows for ever -/

/-- A function that returns itself. -/
def selfReturning : Place where
  node :=
    ⟨0, .program, none, true, none,
      [⟨1, .functionDeclaration, none, true, none,
        [⟨2, .identifier, some .name, true, some "f", []⟩,
          ⟨3, .formalParameters, some .parameters, true, none, []⟩,
          ⟨4, .statementBlock, some .body, true, none,
            [⟨5, .returnStatement, none, true, none,
              [⟨6, .identifier, none, true, some "f", []⟩]⟩]⟩]⟩]⟩
  above := []

/-- A function that returns functions, some levels deep. -/
def nested : Nat → Ty
  | 0 => Seed.function.type
  | depth + 1 => .fn [] (nested depth) none

theorem nested_injective {m n : Nat} (h : nested m = nested n) : m = n := by
  induction m generalizing n with
  | zero =>
    cases n with
    | zero => rfl
    | succ n => exact absurd (Ty.fn.inj h).2.2 nofun
  | succ m ih =>
    cases n with
    | zero => exact absurd (Ty.fn.inj h).2.2 nofun
    | succ n => rw [ih (Ty.fn.inj h).2.1]

theorem exists_nested_eq (depth : Nat) :
    ∃ params returns rest, nested depth = .fn params returns rest := by
  cases depth <;> exact ⟨_, _, _, rfl⟩

/-- What is known once the name is held for functions of some depth. -/
def selfKnown (depth : Nat) (returns : Table Estimate) : Knowledge where
  types := .ofEntries [("f", .of (nested depth) .functionDeclaration)]
  returns := returns

set_option maxRecDepth 4000 in
/-- The function returns what its name is held for, so its signature is one level deeper. -/
theorem round_selfKnown (depth : Nat) {returns : Table Estimate}
    (h : returns = .empty ∨
      ∃ t, returns = .ofEntries [("f", .of t .functionDeclaration)]) :
    round ⟨CallGraph.ofProgram selfReturning, patient.limits⟩ selfReturning
        (selfKnown depth returns) =
      selfKnown (depth + 1) (.ofEntries [("f", .of (nested depth) .functionDeclaration)]) := by
  obtain ⟨params, result, rest, hnested⟩ := exists_nested_eq depth
  simp only [selfKnown, nested, hnested]
  rcases h with rfl | ⟨t, rfl⟩
  · rfl
  · rfl

theorem after_selfReturning (count : Nat) :
    ∃ returns, after selfReturning patient.limits (initial selfReturning) count =
        selfKnown count returns ∧
      (returns = .empty ∨ ∃ t, returns = .ofEntries [("f", .of t .functionDeclaration)]) := by
  induction count with
  | zero => exact ⟨.empty, rfl, .inl rfl⟩
  | succ count ih =>
    obtain ⟨returns, hafter, hreturns⟩ := ih
    rw [after_succ, hafter, round_selfKnown count hreturns]
    exact ⟨_, rfl, .inr ⟨_, rfl⟩⟩

theorem length_render_nested_succ (depth : Nat) :
    (nested (depth + 1)).render.length = (nested depth).render.length + 6 := by
  rw [nested, Ty.render, String.length_append, Nat.add_comm]
  rfl

theorem serialize_selfKnown (depth : Nat) (returns : Table Estimate) :
    (selfKnown depth returns).types.serialize =
      "f:" ++ (nested depth).render ++ ":" ++ Confidence.functionDeclaration.sixPlaces := rfl

/-- Each round gives the function a deeper type: no number of rounds is enough. -/
theorem self_returning_never_rests :
    ¬ ∃ start, ∀ n ≥ start,
      (run (patient.withRounds n) selfReturning).get? "f" =
        (run (patient.withRounds start) selfReturning).get? "f" := by
  have hgrows : ∀ k,
      (after selfReturning patient.limits (initial selfReturning) (k + 1)).types.serialize ≠
        (after selfReturning patient.limits (initial selfReturning) k).types.serialize := by
    intro k heq
    obtain ⟨_, hk, -⟩ := after_selfReturning k
    obtain ⟨_, hnext, -⟩ := after_selfReturning (k + 1)
    rw [hk, hnext, serialize_selfKnown, serialize_selfKnown] at heq
    have hlength := congrArg String.length heq
    simp only [String.length_append, length_render_nested_succ] at hlength
    omega
  have hanswer : ∀ n ≥ 1, (run (patient.withRounds n) selfReturning).get? "f" =
      some (.of (nested n) .functionDeclaration) := by
    intro n hn
    obtain ⟨_, hafter, -⟩ := after_selfReturning n
    have hample : patient.limits.Ample := Budget.ample_limits fun _ => rfl
    rw [run_withRounds patient selfReturning hn, settle_eq_after hample hgrows n, hafter]
    rfl
  rintro ⟨start, hstart⟩
  have hrest := (hstart (start + 2) (by omega)).trans (hstart (start + 1) (by omega)).symm
  rw [hanswer (start + 2) (by omega), hanswer (start + 1) (by omega)] at hrest
  have hdepth := nested_injective (congrArg Estimate.type (Option.some.inj hrest))
  omega

end Inference

end ScriptTypes
