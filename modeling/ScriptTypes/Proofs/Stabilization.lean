import Mathlib.Order.Filter.AtTopBot.Basic
import Mathlib.Order.Filter.Finite
import Mathlib.Order.Lattice.Nat
import ScriptTypes.Proofs.Settling

/-!
# Rounds settle but for signatures

Confidences only rise, and there are finitely many of them for finitely many names. From some round
on all confidences stay, with them all names that are not those of functions and all results that
are final; the name of a function may still get another signature in each round.

* `get?_after_of_not_mem`: the names that rounds can come to know.
* `eventually_similar`: what becomes of one name.
* `eventually_alike`: what becomes of all that is known.
-/

namespace ScriptTypes

open Typing Filter

theorem Ty.isFunctionLike_of_isSignature {t : Ty} (h : t.isSignature = true) :
    t.isFunctionLike = true := by
  cases t with
  | fn => rfl
  | _ => simp [isSignature] at h

namespace Inference

variable (program : Place) (limits : Limits) (known : Knowledge)

/-! ## Names -/

/-- The names that rounds can come to know: those that are known, those that the program declares,
and the blank name. -/
def reachableNames : List String :=
  "" :: known.types.names ++ (TypeMap.collect program.node).names ++
    (CallGraph.ofProgram program).functions.map (·.name)

theorem get?_after_of_not_mem {name : String} (h : name ∉ reachableNames program known)
    (count : Nat) :
    (after program limits known count).types.get? name = none := by
  simp only [reachableNames, List.cons_append, List.mem_cons, List.mem_append, not_or] at h
  obtain ⟨hblank, ⟨hknown, hcollect⟩, hfunctions⟩ := h
  induction count with
  | zero =>
    rw [Table.mem_names_iff, not_exists] at hknown
    exact Option.eq_none_iff_forall_ne_some.2 hknown
  | succ count ih =>
    have husage : name ∉ (Usage.ofProgram program
        (after program limits known count).types).names := by
      intro hmem
      obtain ⟨e, he⟩ := Table.mem_names_iff.1 (Usage.mem_names_of_mem_ofProgram hmem)
      rw [ih] at he
      cases he
    rw [after_succ]
    refine (get?_resolve program limits _ _ ?_ ?_ husage).trans ih
    · exact not_or.2 ⟨hcollect, fun hb => hblank hb.1⟩
    · exact fun f hf heq => hfunctions (heq ▸ List.mem_map_of_mem hf)

/-! ## One name -/

/-- How firmly a name is held: not at all, or by the pattern of its confidence. -/
def level (held : Option Estimate) : Nat := held.elim 0 (·.confidence.pattern + 1)

theorem level_le (held : Option Estimate) : level held ≤ Binary64.onePattern + 1 := by
  cases held with
  | none => exact Nat.zero_le _
  | some e => exact Nat.succ_le_succ e.confidence.le_one

theorem refines_after_succ (count : Nat) :
    (after program limits known count).types.Refines
      (CallGraph.ofProgram program)
      (after program limits known (count + 1)).types := by
  rw [after_succ]
  exact refines_resolve program limits program.node _ _

theorem level_le_of_refines {graph : CallGraph} {before later : TypeMap}
    (h : before.Refines graph later) (name : String) :
    level (before.get? name) ≤ level (later.get? name) := by
  cases hold : before.get? name with
  | none => exact Nat.zero_le _
  | some old =>
    obtain ⟨new, hnew, hrep⟩ := h name old hold
    rw [hnew]
    exact Nat.succ_le_succ hrep.confidence_le

/-- A sequence of numbers that rises and is bounded stays at its greatest value. -/
theorem exists_forall_ge_eq {f : Nat → Nat} {bound : Nat} (hmono : ∀ n, f n ≤ f (n + 1))
    (hbound : ∀ n, f n ≤ bound) : ∃ start, ∀ n ≥ start, f n = f start := by
  have habove : BddAbove (Set.range f) := ⟨bound, Set.forall_mem_range.2 hbound⟩
  obtain ⟨start, hstart⟩ := Nat.sSup_mem (Set.range_nonempty f) habove
  refine ⟨start, fun n hn => Nat.le_antisymm ?_ (monotone_nat_of_le_succ hmono hn)⟩
  rw [hstart]
  exact le_csSup habove ⟨n, rfl⟩

/-- At one level a name keeps its estimate, or it is the name of a function and gets a signature. -/
theorem eq_or_signed_of_level_eq {graph : CallGraph} {before later : TypeMap}
    (h : before.Refines graph later) {name : String}
    (hlevel : level (later.get? name) = level (before.get? name)) :
    later.get? name = before.get? name ∨
      graph.declares name = true ∧ ∃ old new, before.get? name = some old ∧
        later.get? name = some new ∧ new.type.isSignature = true ∧
        new.confidence = old.confidence ∧ old.confidence ≤ .signatureMax := by
  cases hold : before.get? name with
  | none =>
    rw [hold] at hlevel
    cases hnew : later.get? name with
    | none => exact .inl rfl
    | some new =>
      rw [hnew] at hlevel
      exact absurd hlevel (Nat.succ_ne_zero _)
  | some old =>
    obtain ⟨new, hnew, hrep⟩ := h name old hold
    rw [hold, hnew] at hlevel
    cases hrep with
    | same => exact .inl hnew
    | surer hlt => exact absurd (Nat.succ.inj hlevel).symm (Nat.ne_of_lt hlt)
    | signed hd hs hc hm => exact .inr ⟨hd, old, new, rfl, hnew, hs, hc, hm⟩

/-- From some round on a name is similar in each round and the next, and the same unless it is the
name of a function. Once it gets a signature at its last level, it is held for one for ever. -/
theorem eventually_similar (name : String) :
    ∀ᶠ n in atTop,
      Similar ((after program limits known n).types.get? name)
        ((after program limits known (n + 1)).types.get? name) ∧
      ((CallGraph.ofProgram program).declares name = false →
        (after program limits known n).types.get? name =
          (after program limits known (n + 1)).types.get? name) := by
  let held n := (after program limits known n).types.get? name
  have hrefines := refines_after_succ program limits known
  obtain ⟨start, hlevel⟩ := exists_forall_ge_eq (f := fun n => level (held n))
    (fun n => level_le_of_refines (hrefines n) name) fun n => level_le _
  have hstep : ∀ n ≥ start, held (n + 1) = held n ∨
      (CallGraph.ofProgram program).declares name = true ∧ ∃ old new, held n = some old ∧
        held (n + 1) = some new ∧ new.type.isSignature = true ∧
        new.confidence = old.confidence ∧ old.confidence ≤ .signatureMax := fun n hn =>
    eq_or_signed_of_level_eq (hrefines n)
      ((hlevel (n + 1) (by omega)).trans (hlevel n hn).symm)
  by_cases hchange : ∃ m ≥ start, held (m + 1) ≠ held m
  · obtain ⟨m, hm, hne⟩ := hchange
    obtain ⟨hdeclared, old, new, -, hnew, hs, hc, hmax⟩ := (hstep m hm).resolve_left hne
    -- From the first signature at this level on the name is held for one.
    have hsigned : ∀ n ≥ m + 1, ∃ e, held n = some e ∧ e.type.isSignature = true ∧
        e.confidence ≤ .signatureMax := by
      intro n hn
      induction n, hn using Nat.le_induction with
      | base => exact ⟨new, hnew, hs, hc ▸ hmax⟩
      | succ n hn ih =>
        rcases hstep n (by omega) with heq | ⟨-, _, e, _, he, hse, hce, hmaxe⟩
        · rw [heq]
          exact ih
        · exact ⟨e, he, hse, hce ▸ hmaxe⟩
    refine eventually_atTop.2 ⟨m + 1, fun n hn => ⟨?_, fun hnot => ?_⟩⟩
    · obtain ⟨a, ha, hsa, hma⟩ := hsigned n hn
      rcases hstep n (by omega) with heq | ⟨-, a', e, ha', he, hse, hce, -⟩
      · show Similar (held n) (held (n + 1))
        rw [heq]
        exact .same _
      · show Similar (held n) (held (n + 1))
        obtain rfl : a' = a := Option.some.inj (ha'.symm.trans ha)
        rw [ha, he]
        exact .functions hce.symm hma (Ty.isFunctionLike_of_isSignature hsa)
          (Ty.isFunctionLike_of_isSignature hse)
    · rw [hdeclared] at hnot
      cases hnot
  · refine eventually_atTop.2 ⟨start, fun n hn => ?_⟩
    have hconst : held (n + 1) = held n := by
      by_contra hne
      exact hchange ⟨n, hn, hne⟩
    exact ⟨show Similar (held n) (held (n + 1)) from hconst ▸ .same _, fun _ => hconst.symm⟩

/-! ## Results -/

theorem eventually_final (f : DeclaredFunction) :
    ∀ᶠ n in atTop,
      finalReturn? (after program limits known n) f =
        finalReturn? (after program limits known (n + 1)) f := by
  by_cases hfinal : ∃ m e,
      finalReturn? (after program limits known m) f = some e
  · obtain ⟨m, e, he⟩ := hfinal
    have hstays : ∀ n ≥ m,
        finalReturn? (after program limits known n) f = some e := by
      intro n hn
      induction n, hn using Nat.le_induction with
      | base => exact he
      | succ n _ ih =>
        rw [after_succ]
        exact finalReturn?_round program limits _ ih
    refine eventually_atTop.2 ⟨m, fun n hn => ?_⟩
    rw [hstays n hn, hstays (n + 1) (by omega)]
  · have hnone : ∀ n,
        finalReturn? (after program limits known n) f = none :=
      fun n => Option.eq_none_iff_forall_ne_some.2 fun e he => hfinal ⟨n, e, he⟩
    exact .of_forall fun n => (hnone n).trans (hnone (n + 1)).symm

/-! ## All that is known -/

/-- From some round on each round goes on like the one before it: the confidences, the final results
and the estimates of all names but those of functions stay. -/
theorem eventually_alike :
    ∀ᶠ n in atTop, Alike (CallGraph.ofProgram program)
      (fun name => (CallGraph.ofProgram program).declares name = false)
      (after program limits known n)
      (after program limits known (n + 1)) := by
  have hnames := (eventually_all_finite (List.finite_toSet (reachableNames program known))).2
    fun name _ => eventually_similar program limits known name
  have hfinal := (eventually_all_finite
    (List.finite_toSet (CallGraph.ofProgram program).functions)).2
    fun f _ => eventually_final program limits known f
  filter_upwards [hnames, hfinal] with n hn hf
  have hheld : ∀ name, name ∉ reachableNames program known →
      (after program limits known n).types.get? name =
        (after program limits known (n + 1)).types.get? name :=
    fun name hnot => (get?_after_of_not_mem program limits known hnot n).trans
      (get?_after_of_not_mem program limits known hnot (n + 1)).symm
  refine ⟨⟨fun name hread => ?_, fun name => ?_⟩, hf⟩
  · by_cases hmem : name ∈ reachableNames program known
    · exact (hn name hmem).2 hread
    · exact hheld name hmem
  · by_cases hmem : name ∈ reachableNames program known
    · exact (hn name hmem).1
    · exact hheld name hmem ▸ .same _

end Inference

end ScriptTypes
