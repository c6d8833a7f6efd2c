import ScriptTypes.Proofs.Rounding
import ScriptTypes.Proofs.Steps

/-!
# Estimates are only refined

A round takes no name away and lowers no confidence. An estimate gives way to a more confident one,
or, for the name of a function, to a signature of the same confidence; signatures are never held
above `Confidence.signatureMax`, so that estimates above it are settled by confidence alone.

* `Replaces`: how one estimate may follow another.
* `Refines`: how one map may follow another.
* `refines_step`: what one step does to the map.
* `refines_resolve`: what a round does.
* `refines_rounds`, `refines_settle`: what any number of rounds does.
-/

namespace ScriptTypes

/-! ## Estimates -/

theorem Confidence.signatureMax_lt_one : signatureMax < one := by decide +kernel

/-- How an estimate of a name may be followed by another: it stays, it gives way to a greater
confidence, or the name is that of a function and gets a signature. -/
inductive Estimate.Replaces (declared : Bool) (old : Estimate) : Estimate → Prop
  | same : Replaces declared old old
  | surer {new : Estimate} (h : old.confidence < new.confidence) : Replaces declared old new
  | signed {new : Estimate} (hd : declared = true) (hs : new.type.isSignature = true)
    (hc : new.confidence = old.confidence) (hm : old.confidence ≤ .signatureMax) :
    Replaces declared old new

namespace Estimate.Replaces

variable {declared : Bool} {a b c : Estimate}

theorem trans (hab : Replaces declared a b) (hbc : Replaces declared b c) :
    Replaces declared a c := by
  cases hab with
  | same => exact hbc
  | surer h =>
    cases hbc with
    | same => exact .surer h
    | surer h' => exact .surer (lt_trans h h')
    | signed _ _ hc _ => exact .surer (hc ▸ h)
  | signed hd hs hc hm =>
    cases hbc with
    | same => exact .signed hd hs hc hm
    | surer h' => exact .surer (hc ▸ h')
    | signed _ hs' hc' _ => exact .signed hd hs' (hc'.trans hc) hm

/-- What is kept of two estimates follows the one that was there. -/
theorem merge (new : Estimate) {replaceEqual : Bool}
    (h : replaceEqual = true →
      declared = true ∧ new.type.isSignature = true ∧ new.confidence ≤ .signatureMax) :
    Replaces declared a (Estimate.merge (some a) new replaceEqual) := by
  by_cases hsup : new.supersedes (some a) replaceEqual = true
  · rw [Estimate.merge, if_pos hsup]
    simp only [supersedes, Bool.or_eq_true, Bool.and_eq_true, decide_eq_true_eq] at hsup
    rcases hsup with hlt | ⟨hreplace, heq⟩
    · exact .surer hlt
    · obtain ⟨hd, hs, hm⟩ := h hreplace
      exact .signed hd hs heq.symm (heq ▸ hm)
  · rw [Estimate.merge, if_neg hsup]
    exact .same

theorem confidence_le (h : Replaces declared a b) : a.confidence ≤ b.confidence := by
  cases h with
  | same => exact le_refl _
  | surer h => exact le_of_lt h
  | signed _ _ hc _ => exact ge_of_eq hc

theorem eq_or_signed (h : Replaces declared a b) (hc : b.confidence = a.confidence) :
    b = a ∨ declared = true ∧ b.type.isSignature = true := by
  cases h with
  | same => exact .inl rfl
  | surer h => exact absurd (hc ▸ h) (lt_irrefl _)
  | signed hd hs _ _ => exact .inr ⟨hd, hs⟩

/-- Above what a signature is worth only confidence counts. -/
theorem eq_or_surer (h : Replaces declared a b) (hc : .signatureMax < a.confidence) :
    b = a ∨ a.confidence < b.confidence := by
  cases h with
  | same => exact .inl rfl
  | surer h => exact .inr h
  | signed _ _ _ hm => exact absurd hm (not_le_of_gt hc)

/-- Nothing takes the place of full confidence. -/
theorem eq_of_one (h : Replaces declared a b) (hc : a.confidence = .one) : b = a := by
  have hmax : Confidence.signatureMax < a.confidence := hc ▸ Confidence.signatureMax_lt_one
  rcases h.eq_or_surer hmax with heq | hlt
  · exact heq
  · rw [hc] at hlt
    exact absurd b.confidence.le_one (not_le_of_gt hlt)

end Estimate.Replaces

/-! ## Maps -/

/-- How a map may be followed by another: every name is still there, and its estimate follows the
one that was there. -/
def TypeMap.Refines (graph : CallGraph) (before after : TypeMap) : Prop :=
  ∀ name old, before.get? name = some old →
    ∃ new, after.get? name = some new ∧ old.Replaces (graph.declares name) new

namespace TypeMap.Refines

variable {graph : CallGraph} {types before after : TypeMap}

theorem refl (graph : CallGraph) (types : TypeMap) : types.Refines graph types :=
  fun _ old h => ⟨old, h, .same⟩

theorem trans {middle : TypeMap} (h : before.Refines graph middle)
    (h' : middle.Refines graph after) : before.Refines graph after := by
  intro name old hold
  obtain ⟨mid, hmid, hrep⟩ := h name old hold
  obtain ⟨new, hnew, hrep'⟩ := h' name mid hmid
  exact ⟨new, hnew, hrep.trans hrep'⟩

theorem assign (types : TypeMap) (name : String) (new : Estimate) {replaceEqual : Bool}
    (h : replaceEqual = true → graph.declares name = true ∧ new.type.isSignature = true ∧
      new.confidence ≤ .signatureMax) :
    types.Refines graph (types.assign name new replaceEqual) := by
  intro other old hold
  rw [get?_assign]
  by_cases hname : name = other
  · subst hname
    rw [if_pos rfl, hold]
    exact ⟨_, rfl, .merge new h⟩
  · rw [if_neg hname]
    exact ⟨old, hold, .same⟩

/-- An offer without the right to replace equals. -/
theorem offer (types : TypeMap) (name : String) (new : Estimate) :
    types.Refines graph (types.assign name new false) := assign types name new nofun

/-- The uses of a name are offered like any other estimate. -/
theorem foldName (types : TypeMap) (name : String) (tags : List UsageTag) :
    types.Refines graph (Usage.foldName types name tags) := by
  unfold Usage.foldName
  dsimp only
  split
  · exact refl graph types
  · split
    · exact offer types name _
    · exact refl graph types

theorem fold (usage : Usage) (types : TypeMap) : types.Refines graph (usage.fold types) := by
  unfold Usage.fold
  generalize usage.sorted = entries
  induction entries generalizing types with
  | nil => exact refl graph types
  | cons entry entries ih => exact (foldName types entry.1 entry.2).trans (ih _)

end TypeMap.Refines

/-! ## Rounds -/

namespace Typing

variable {graph : CallGraph}

theorem signatureOf_isSignature (types : TypeMap) (f : DeclaredFunction) (returned : Estimate) :
    (signatureOf types f returned).type.isSignature = true := rfl

theorem signatureOf_confidence_le (types : TypeMap) (f : DeclaredFunction) (returned : Estimate) :
    (signatureOf types f returned).confidence ≤ .signatureMax := min_le_left _ _

/-- No step takes a name away or lowers its confidence. -/
theorem refines_step {offered : String → Prop} {s t : Session} (h : Step graph offered s t) :
    s.types.Refines graph t.types := by
  cases h with
  | offer e _ => exact .offer _ _ e
  | record e _ => exact .refl graph _
  | sign hf _ =>
    refine .assign _ _ _ fun _ => ⟨CallGraph.declares_of_mem hf, ?_, ?_⟩
    · exact signatureOf_isSignature _ _ _
    · exact signatureOf_confidence_le _ _ _
  | bookkeep stack nesting readings => exact .refl graph _

theorem refines_steps {offered : String → Prop} {s t : Session}
    (h : Relation.ReflTransGen (Step graph offered) s t) : s.types.Refines graph t.types := by
  induction h with
  | refl => exact .refl graph _
  | tail _ hstep ih => exact ih.trans (refines_step hstep)

theorem refines_resolve (program : Place) (limits : Limits) (root : Node) (usage : Usage)
    (known : Knowledge) :
    known.types.Refines (CallGraph.ofProgram program)
      (resolve ⟨CallGraph.ofProgram program, limits⟩ root usage known).types := by
  rw [types_resolve]
  exact (refines_steps (steps_ofProgram program limits root known)).trans (.fold usage _)

/-- Any number of rounds, each with its own limits and its own view of the uses. -/
theorem refines_rounds (program : Place) (root : Node) (rounds : List (Budget × Usage))
    (known : Knowledge) :
    known.types.Refines (CallGraph.ofProgram program)
      (rounds.foldl (fun known round =>
        resolve ⟨CallGraph.ofProgram program, round.1.limits⟩ root round.2 known) known).types := by
  induction rounds generalizing known with
  | nil => exact .refl _ _
  | cons round rounds ih => exact (refines_resolve program _ root _ known).trans (ih _)

end Typing

namespace Inference

open Typing

theorem refines_settle (program : Place) (limits : Limits) (count : Nat) (known : Knowledge) :
    known.types.Refines (CallGraph.ofProgram program)
      (settle ⟨CallGraph.ofProgram program, limits⟩ program count known).types := by
  refine settle_invariant (P := fun later =>
    known.types.Refines (CallGraph.ofProgram program) later.types) (fun limits later h => ?_) count
    (.refl _ _)
  exact h.trans (refines_resolve program limits program.node _ later)

/-- Rounds keep every name, and its confidence never falls. At the same confidence only the name of
a function changes, to a signature; above what a signature is worth only a greater confidence
counts, so that whatever is held with full confidence stays, and the seeds of full confidence are
part of the answer. -/
theorem estimates_only_refined (program : Place) (root : Node) (rounds : List (Budget × Usage))
    (known : Knowledge) :
    let graph := CallGraph.ofProgram program
    let final := rounds.foldl
      (fun known round => resolve ⟨graph, round.1.limits⟩ root round.2 known) known
    (∀ name old, known.types.get? name = some old →
      ∃ new, final.types.get? name = some new ∧ old.confidence ≤ new.confidence ∧
        (new.confidence = old.confidence →
          new = old ∨ graph.declares name = true ∧ new.type.isSignature = true) ∧
        (.signatureMax < old.confidence → new = old ∨ old.confidence < new.confidence) ∧
        (old.confidence = .one → new = old)) ∧
    ∀ (budget : Budget) name e, (TypeMap.collect program.node).get? name = some e →
      e.confidence = .one → (run budget program).get? name = some e := by
  refine ⟨fun name old hold => ?_, fun budget name e he hone => ?_⟩
  · obtain ⟨new, hnew, hrep⟩ := refines_rounds program root rounds known name old hold
    exact ⟨new, hnew, hrep.confidence_le, hrep.eq_or_signed, hrep.eq_or_surer, hrep.eq_of_one⟩
  · obtain ⟨new, hnew, hrep⟩ := refines_settle program budget.limits _ (initial program) name e he
    rw [hrep.eq_of_one hone] at hnew
    exact hnew

end Inference

end ScriptTypes
