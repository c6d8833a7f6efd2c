import Mathlib.Data.List.Basic
import Mathlib.Logic.Function.Iterate
import ScriptTypes.Proofs.Agreement
import ScriptTypes.Proofs.Serialization

/-!
# Rounds that change nothing

A round that leaves the map and the final results of the functions as they were is repeated by every
later one. The map alone does not tell: the result of a function whose name is held firmly for
something else is not seen in it, and may reach other functions a round later. Each result becomes
final once, so a map that stays for more rounds than there are functions stays for ever.

* `after`: what is known after some rounds.
* `exists_after_of_settle`: settling ends after some number of rounds.
* `alike_after`: rounds that go on alike.
* `exists_final_eq`: among few rounds there is one in which no result becomes final.
* `settled_of_round`, `settled_of_rounds`: which maps are settled.
* `shadowedResult`: a program in which the text of the map repeats before the map is settled.
-/

namespace ScriptTypes.Inference

open Typing

/-! ## Numbers of rounds -/

section

variable (program : Place) (limits : Limits) (known : Knowledge)

/-- What is known after some rounds. -/
def after (count : Nat) : Knowledge :=
  (round ⟨CallGraph.ofProgram program, limits⟩ program)^[count] known

theorem after_succ (count : Nat) :
    after program limits known (count + 1) =
      round ⟨CallGraph.ofProgram program, limits⟩ program (after program limits known count) :=
  Function.iterate_succ_apply' _ _ _

theorem after_add (first count : Nat) :
    after program limits known (count + first) =
      after program limits (after program limits known first) count :=
  Function.iterate_add_apply _ _ _ _

variable {limits} in
/-- As long as there is time, it does not matter when a round begins. -/
theorem exists_after_of_settle (hample : limits.Ample) (count : Nat) :
    ∃ k, settle ⟨CallGraph.ofProgram program, limits⟩ program count known =
      after program limits known k := by
  induction count generalizing known with
  | zero => exact ⟨0, rfl⟩
  | succ count ih =>
    rw [settle_succ, Scope.later, hample.later]
    split
    · exact ⟨1, rfl⟩
    · obtain ⟨k, hk⟩ := ih (round ⟨CallGraph.ofProgram program, limits⟩ program known)
      exact ⟨k + 1, hk.trans (after_add program limits known 1 k).symm⟩

end

variable {program : Place} {limits : Limits} {known : Knowledge}

/-- If a round leads to knowledge that goes on alike, so do all later rounds. -/
theorem alike_after {region : Region (CallGraph.ofProgram program)} {read : String → Prop}
    (cover : region.Covers program.node) (hread : ∀ name, region.read name → read name)
    (hample : limits.Ample)
    (h : Alike (CallGraph.ofProgram program) read (after program limits known 1) known)
    (count : Nat) :
    Alike (CallGraph.ofProgram program) read (after program limits known count) known := by
  induction count with
  | zero => exact .refl _ _ _
  | succ count ih =>
    rw [after_succ]
    exact (ih.round cover hread hample).trans h

/-! ## Final results -/

theorem finalReturn?_round (program : Place) (limits : Limits) (known : Knowledge)
    {f : DeclaredFunction} {e : Estimate} (he : finalReturn? known f = some e) :
    finalReturn? (round ⟨CallGraph.ofProgram program, limits⟩ program known) f = some e :=
  finalReturn?_steps (steps_ofProgram program limits program.node known) he

/-- The functions whose results are final. -/
def finished (graph : CallGraph) (known : Knowledge) : List DeclaredFunction :=
  graph.functions.filter fun f => (finalReturn? known f).isSome

theorem finished_sublist_round (program : Place) (limits : Limits) (known : Knowledge) :
    (finished (CallGraph.ofProgram program) known).Sublist
      (finished (CallGraph.ofProgram program)
        (round ⟨CallGraph.ofProgram program, limits⟩ program known)) := by
  refine List.monotone_filter_right _ fun f hf => ?_
  obtain ⟨e, he⟩ := Option.isSome_iff_exists.1 hf
  rw [finalReturn?_round program limits known he]
  rfl

/-- If no more results are final after a round, they are the same as before it. -/
theorem finalReturn?_round_eq
    (h : (finished (CallGraph.ofProgram program)
        (round ⟨CallGraph.ofProgram program, limits⟩ program known)).length =
      (finished (CallGraph.ofProgram program) known).length)
    {f : DeclaredFunction} (hf : f ∈ (CallGraph.ofProgram program).functions) :
    finalReturn? (round ⟨CallGraph.ofProgram program, limits⟩ program known) f =
      finalReturn? known f := by
  have hsame := (finished_sublist_round program limits known).eq_of_length h.symm
  cases hbefore : finalReturn? known f with
  | some e => exact finalReturn?_round program limits known hbefore
  | none =>
    refine Option.eq_none_iff_forall_ne_some.2 fun e he => ?_
    have hmem : f ∈ finished (CallGraph.ofProgram program) known := by
      rw [hsame]
      exact List.mem_filter.2 ⟨hf, by rw [he]; rfl⟩
    rw [finished, List.mem_filter, hbefore] at hmem
    exact absurd hmem.2 (by decide)

/-- Numbers that never fall and are at most `bound` stay at one of the first `bound + 1` steps. -/
theorem exists_succ_eq {f : Nat → Nat} {bound : Nat} (hmono : ∀ n, f n ≤ f (n + 1))
    (hbound : ∀ n, f n ≤ bound) : ∃ k ≤ bound, f (k + 1) = f k := by
  by_contra hnone
  have hrise : ∀ k ≤ bound + 1, k ≤ f k := by
    intro k hk
    induction k with
    | zero => exact Nat.zero_le _
    | succ k ih =>
      have hne : f (k + 1) ≠ f k := fun heq => hnone ⟨k, by omega, heq⟩
      have hle := hmono k
      have := ih (by omega)
      omega
  have htop := hrise (bound + 1) (Nat.le_refl _)
  have := hbound (bound + 1)
  omega

/-- Each result becomes final at most once, so among one round more than there are functions there
is one in which no result does. -/
theorem exists_final_eq (program : Place) (limits : Limits) (known : Knowledge) :
    ∃ k ≤ (CallGraph.ofProgram program).functions.length,
      ∀ f ∈ (CallGraph.ofProgram program).functions,
        finalReturn? (after program limits known (k + 1)) f =
          finalReturn? (after program limits known k) f := by
  obtain ⟨k, hk, hlength⟩ := exists_succ_eq
    (f := fun n => (finished (CallGraph.ofProgram program) (after program limits known n)).length)
    (fun n => by
      rw [after_succ]
      exact (finished_sublist_round program limits _).length_le)
    fun n => List.length_filter_le _ _
  refine ⟨k, hk, fun f hf => ?_⟩
  rw [after_succ] at hlength ⊢
  exact finalReturn?_round_eq hlength hf

/-! ## Settled knowledge -/

/-- No number of rounds changes the map or its text, whether or not they stop when the text
repeats. -/
structure Settled (program : Place) (limits : Limits) (known : Knowledge) : Prop where
  types : ∀ count name,
    (after program limits known count).types.get? name = known.types.get? name
  text : ∀ count, (after program limits known count).types.serialize = known.types.serialize
  answer : ∀ count name,
    (settle ⟨CallGraph.ofProgram program, limits⟩ program count known).types.get? name =
      known.types.get? name

theorem Settled.of_types (hample : limits.Ample)
    (h : ∀ count name, (after program limits known count).types.get? name =
      known.types.get? name) :
    Settled program limits known where
  types := h
  text count := TypeMap.serialize_congr (h count)
  answer count := by
    obtain ⟨k, hsettle⟩ := exists_after_of_settle program known hample count
    rw [hsettle]
    exact h k

/-- A round that changes neither the map nor the final results settles the map. -/
theorem settled_of_round (hample : limits.Ample)
    (htypes : ∀ name,
      (after program limits known 1).types.get? name = known.types.get? name)
    (hfinal : ∀ f ∈ (CallGraph.ofProgram program).functions,
      finalReturn? (after program limits known 1) f = finalReturn? known f) :
    Settled program limits known := by
  have halike : Alike (CallGraph.ofProgram program) (fun _ => True)
      (after program limits known 1) known :=
    ⟨⟨fun name _ => htypes name, fun name => htypes name ▸ .same _⟩, hfinal⟩
  refine .of_types hample fun count name => ?_
  have hcount := alike_after (Region.covers_whole program program.node) (fun _ _ => trivial)
    hample halike count
  exact hcount.types.equal name trivial

/-- A map that stays for more rounds than there are functions is settled. -/
theorem settled_of_rounds (hample : limits.Ample)
    (h : ∀ count ≤ (CallGraph.ofProgram program).functions.length + 1, ∀ name,
      (after program limits known count).types.get? name = known.types.get? name) :
    Settled program limits known := by
  obtain ⟨k, hk, hfinal⟩ := exists_final_eq program limits known
  have hlate : Settled program limits (after program limits known k) := by
    refine settled_of_round hample (fun name => ?_) fun f hf => ?_
    · rw [← after_add, h k (by omega), Nat.add_comm, h (k + 1) (by omega)]
    · rw [← after_add, Nat.add_comm]
      exact hfinal f hf
  refine .of_types hample fun count name => ?_
  rcases Nat.le_total count k with hle | hle
  · exact h count (by omega) name
  · obtain ⟨later, rfl⟩ : ∃ later, count = later + k := ⟨count - k, by omega⟩
    rw [after_add, hlate.types later name, h k (by omega)]

/-- A round that leaves the map and the final results of the functions as they were is repeated by
every later round. A map is settled if, and only if, it stays for one round more than there are
functions. -/
theorem settled_rounds_repeat (program : Place) (budget : Budget)
    (hdeadline : ∀ reading, budget.deadlinePassed reading = false) (known : Knowledge) :
    ((∀ name,
        (after program budget.limits known 1).types.get? name = known.types.get? name) →
      (∀ f ∈ (CallGraph.ofProgram program).functions,
        finalReturn? (after program budget.limits known 1) f = finalReturn? known f) →
      Settled program budget.limits known) ∧
    (Settled program budget.limits known ↔
      ∀ count ≤ (CallGraph.ofProgram program).functions.length + 1, ∀ name,
        (after program budget.limits known count).types.get? name = known.types.get? name) := by
  have hample := Budget.ample_limits hdeadline
  exact ⟨settled_of_round hample, fun h count _ => h.types count, settled_of_rounds hample⟩

/-- A variable `f`, a function `h` that calls `f`, and a function `f` that calls `h` or returns its
argument. -/
def shadowedResult : Place where
  node :=
    ⟨0, .program, none, true, none,
      [⟨1, .variableDeclarator, none, true, none,
          [⟨2, .identifier, some .name, true, some "f", []⟩,
            ⟨3, .number, some .value, true, some "5", []⟩]⟩,
        ⟨4, .functionDeclaration, none, true, none,
          [⟨5, .identifier, some .name, true, some "h", []⟩,
            ⟨6, .formalParameters, some .parameters, true, none, []⟩,
            ⟨7, .statementBlock, some .body, true, none,
              [⟨8, .returnStatement, none, true, none,
                [⟨9, .callExpression, none, true, none,
                  [⟨10, .identifier, some .callee, true, some "f", []⟩,
                    ⟨11, .arguments, some .arguments, true, none,
                      [⟨12, .number, none, true, some "1", []⟩]⟩]⟩]⟩]⟩]⟩,
        ⟨13, .functionDeclaration, none, true, none,
          [⟨14, .identifier, some .name, true, some "f", []⟩,
            ⟨15, .formalParameters, some .parameters, true, none,
              [⟨16, .identifier, none, true, some "x", []⟩]⟩,
            ⟨17, .statementBlock, some .body, true, none,
              [⟨18, .returnStatement, none, true, none,
                  [⟨19, .callExpression, none, true, none,
                    [⟨20, .identifier, some .callee, true, some "h", []⟩,
                      ⟨21, .arguments, some .arguments, true, none, []⟩]⟩]⟩,
                ⟨22, .returnStatement, none, true, none,
                  [⟨23, .identifier, none, true, some "x", []⟩]⟩]⟩]⟩]⟩
  above := []

/-- A budget without a limit of time. -/
def patient : Budget := ⟨⟨8, 0, 5, by decide, by decide⟩, fun _ => 0⟩

/-- What is known of the program in the end. -/
def shadowedEnd : Knowledge where
  types := .ofEntries [("f", .of .number .one), ("h", .of (.fn [] .number none) .signatureMax),
    ("x", .of .number .one)]
  returns := .ofEntries [("h", .of .number .one), ("f", .of .number .one)]

set_option maxRecDepth 2000 in
/-- From there on nothing changes any more. -/
theorem settled_rounds_repeat_shadowed :
    (∀ reading, patient.deadlinePassed reading = false) ∧
      after shadowedResult patient.limits shadowedEnd 1 = shadowedEnd ∧
      ∀ count, (after shadowedResult patient.limits shadowedEnd count).types.serialize =
        shadowedEnd.types.serialize := by
  have hround : after shadowedResult patient.limits shadowedEnd 1 = shadowedEnd := rfl
  refine ⟨fun _ => rfl, hround, fun count => ?_⟩
  have hsettled := (settled_rounds_repeat shadowedResult patient (fun _ => rfl) shadowedEnd).1
    (fun name => by rw [hround]) fun f _ => by rw [hround]
  exact hsettled.text count

/-- What is known of the program after some rounds. -/
def shadowedAfter (count : Nat) : Knowledge :=
  after shadowedResult patient.limits (initial shadowedResult) count

/-- The second round repeats the text of the first, so a run stops there; the third does not, since
in the second the result of `f` became final, which its name, held for a number, does not show. -/
theorem repeated_text_moves_on :
    (shadowedAfter 2).types.serialize = (shadowedAfter 1).types.serialize ∧
      (run patient shadowedResult).serialize = (shadowedAfter 2).types.serialize ∧
      (shadowedAfter 3).types.serialize ≠ (shadowedAfter 2).types.serialize := by
  decide +kernel

end ScriptTypes.Inference
