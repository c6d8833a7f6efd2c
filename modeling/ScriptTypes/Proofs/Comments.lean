import Mathlib.Data.List.Nodup
import ScriptTypes.Proofs.Commented.Programs
import ScriptTypes.Proofs.Upheld

/-!
# Comments are invisible

A program with comments put in is treated like the program without them: the same names are
collected, the same calls are found, and every round sees the same uses and comes to the same
types and results.

* `Node.Commented.exists_links`: where labels tell the nodes of a tree apart, the labels of two
  trees are linked one to one.
* `roundSession_commented`: the session of a round, with the number of readings of the clock in it.
* `rounds_commented`, `settle_commented`: any number of rounds.
* `comments_invisible`: the program as a whole.
-/

namespace ScriptTypes

/-! ## Labels -/

/-- Pairs of labels: those of all nodes of the first list, and labels of nodes of the second in the
order in which they stand there. -/
structure LabelPairs (pairs : List (Nat × Nat)) (ns ns' : List Node) : Prop where
  left : pairs.map Prod.fst = ns.map (·.label)
  right : (pairs.map Prod.snd).Sublist (ns'.map (·.label))

theorem LabelPairs.append {pairs others : List (Nat × Nat)} {ns ns' ms ms' : List Node}
    (h : LabelPairs pairs ns ns') (h' : LabelPairs others ms ms') :
    LabelPairs (pairs ++ others) (ns ++ ms) (ns' ++ ms') where
  left := by rw [List.map_append, List.map_append, h.left, h'.left]
  right := by
    rw [List.map_append, List.map_append]
    exact h.right.append h'.right

/-- Labels that differ are linked to labels that differ. -/
theorem LabelPairs.biUnique {pairs : List (Nat × Nat)} {ns ns' : List Node}
    (h : LabelPairs pairs ns ns') (hn : (ns.map (·.label)).Nodup)
    (hn' : (ns'.map (·.label)).Nodup) : Relator.BiUnique fun a b => (a, b) ∈ pairs := by
  have hleft : (pairs.map Prod.fst).Nodup := h.left ▸ hn
  have hright : (pairs.map Prod.snd).Nodup := hn'.sublist h.right
  refine ⟨fun a b c hac hbc => ?_, fun a b c hab hac => ?_⟩
  · exact congrArg Prod.fst (List.inj_on_of_nodup_map hright hac hbc rfl)
  · exact congrArg Prod.snd (List.inj_on_of_nodup_map hleft hab hac rfl)

/-- The labels below several nodes, from those below each. -/
theorem Interspersed.exists_links {cs cs' : List Node}
    (h : Interspersed Node.IsRemark (Node.Commented fun _ _ => True) cs cs')
    (hlinks : ∀ c ∈ cs, ∀ c', c.Commented (fun _ _ => True) c' →
      ∃ pairs, LabelPairs pairs c.preorder c'.preorder ∧
        c.Commented (fun a b => (a, b) ∈ pairs) c') :
    ∃ pairs, LabelPairs pairs (cs.flatMap Node.preorder) (cs'.flatMap Node.preorder) ∧
      Interspersed Node.IsRemark (Node.Commented fun a b => (a, b) ∈ pairs) cs cs' := by
  induction h with
  | nil => exact ⟨[], ⟨rfl, .slnil⟩, .nil⟩
  | keep hc _ ih =>
    obtain ⟨pairs, hpairs, hfirst⟩ := hlinks _ List.mem_cons_self _ hc
    obtain ⟨others, hothers, hrest⟩ := ih fun c hc => hlinks c (List.mem_cons_of_mem _ hc)
    refine ⟨pairs ++ others, hpairs.append hothers, .keep ?_ ?_⟩
    · exact hfirst.mono fun _ _ hab => List.mem_append_left _ hab
    · exact hrest.mono (fun _ hb => hb) fun _ _ _ hd =>
        hd.mono fun _ _ hab => List.mem_append_right _ hab
  | insert hb _ ih =>
    -- The label of a comment that was put in is linked to none.
    obtain ⟨pairs, hpairs, hrest⟩ := ih hlinks
    refine ⟨pairs, ⟨hpairs.left, ?_⟩, .insert hb hrest⟩
    rw [List.flatMap_cons, List.map_append]
    exact hpairs.right.trans (List.sublist_append_right _ _)

/-- The labels of the nodes of a tree are linked to labels of the tree with comments put in. -/
theorem Node.Commented.exists_links : ∀ {n n' : Node}, n.Commented (fun _ _ => True) n' →
    ∃ pairs, LabelPairs pairs n.preorder n'.preorder ∧
      n.Commented (fun a b => (a, b) ∈ pairs) n' := by
  intro n
  induction n using Node.induction with
  | step n ih =>
    rintro n' ⟨-, hchildren⟩
    rename_i label label' kind field named text children children'
    obtain ⟨pairs, hpairs, hlinked⟩ := hchildren.exists_links fun c hc c' hcc => ih c hc hcc
    refine ⟨(label, label') :: pairs, ⟨?_, ?_⟩, .mk List.mem_cons_self ?_⟩
    · rw [preorder_eq, List.map_cons, List.map_cons, hpairs.left]
    · rw [preorder_eq, List.map_cons, List.map_cons]
      exact hpairs.right.cons_cons label'
    · exact hlinked.mono (fun _ hb => hb) fun _ _ _ hc =>
        hc.mono fun _ _ hab => List.mem_cons_of_mem _ hab

/-! ## Questions about the call graph -/

namespace Place.Commented

variable {links : Nat → Nat → Prop} {program other : Place} (h : program.Commented links other)

include h

theorem headers :
    (CallGraph.ofProgram other).functions.map
        (fun f => (f.name, f.params.map (·.name), f.isAsync)) =
      (CallGraph.ofProgram program).functions.map
        fun f => (f.name, f.params.map (·.name), f.isAsync) := by
  refine map_eq_of_forall₂ h.functions fun f g hf => ?_
  rw [hf.name, hf.isAsync, map_eq_of_forall₂ hf.params fun _ _ hp => hp.name]

theorem callees (name : String) :
    (CallGraph.ofProgram other).callees name = (CallGraph.ofProgram program).callees name := by
  have hsites : List.Forall₂ (CallSite.Commented links)
      ((CallGraph.ofProgram program).sites.filter (·.caller = some name))
      ((CallGraph.ofProgram other).sites.filter (·.caller = some name)) :=
    (Interspersed.of_forall₂ h.sites).filter nofun fun _ _ hs => by rw [hs.caller]
  unfold CallGraph.callees
  rw [h.declares, map_eq_of_forall₂ hsites fun _ _ hs => hs.callee, funext h.declares]

theorem callers (name : String) :
    (CallGraph.ofProgram other).callers name = (CallGraph.ofProgram program).callers name := by
  have hsites : List.Forall₂ (CallSite.Commented links)
      ((CallGraph.ofProgram program).sites.filter (·.callee = name))
      ((CallGraph.ofProgram other).sites.filter (·.callee = name)) :=
    (Interspersed.of_forall₂ h.sites).filter nofun fun _ _ hs => by rw [hs.callee]
  have hcallers : List.Forall₂ (· = ·)
      (((CallGraph.ofProgram program).sites.filter (·.callee = name)).filterMap (·.caller))
      (((CallGraph.ofProgram other).sites.filter (·.callee = name)).filterMap (·.caller)) :=
    List.rel_filterMap (fun _ _ hs => hs.caller ▸ rel_refl (fun _ => rfl) _) hsites
  rw [List.forall₂_eq_eq_eq] at hcallers
  unfold CallGraph.callers
  rw [h.declares, hcallers]

end Place.Commented

/-! ## Rounds -/

namespace Inference

open Typing

section

variable {links : Nat → Nat → Prop} {program other : Place} (h : program.Commented links other)
  (hlinks : Relator.BiUnique links) (limits : Limits)

include h hlinks

/-- The two rounds go through the same sessions, so they read the clock equally often. -/
theorem roundSession_commented (known : Knowledge) :
    roundSession ⟨CallGraph.ofProgram other, limits⟩ other.node known =
      roundSession ⟨CallGraph.ofProgram program, limits⟩ program.node known := by
  let left : Scope := ⟨CallGraph.ofProgram program, limits⟩
  let right : Scope := ⟨CallGraph.ofProgram other, limits⟩
  have hends : roundSession left program.node known = roundSession right other.node known :=
    roundSession_eq left right (Region.covers_whole program program.node) hlinks (.refl _)
      h.functions h.sites h.node known
  exact hends.symm

theorem round_commented (known : Knowledge) :
    round ⟨CallGraph.ofProgram other, limits⟩ other known =
      round ⟨CallGraph.ofProgram program, limits⟩ program known := by
  rw [round, round, h.uses hlinks, resolve, resolve, roundSession_commented h hlinks]

theorem rounds_commented (count : Nat) (known : Knowledge) :
    rounds ⟨CallGraph.ofProgram other, limits⟩ other count known =
      rounds ⟨CallGraph.ofProgram program, limits⟩ program count known := by
  induction count generalizing limits known with
  | zero => rfl
  | succ count ih =>
    rw [rounds_succ, rounds_succ, h.uses hlinks, round_commented h hlinks,
      roundSession_commented h hlinks, Scope.later, Scope.later, ih]

theorem settle_commented (count : Nat) (known : Knowledge) :
    settle ⟨CallGraph.ofProgram other, limits⟩ other count known =
      settle ⟨CallGraph.ofProgram program, limits⟩ program count known := by
  induction count generalizing limits known with
  | zero => rfl
  | succ count ih =>
    rw [settle_succ, settle_succ, round_commented h hlinks, roundSession_commented h hlinks,
      Scope.later, Scope.later, ih]

end

/-- Comments that are put in anywhere in a program, around the place that is looked at or below it,
change nothing: not the names that are collected, not the answer of a run, not the uses, types and
results of any round, nor how often the clock is read in it, and not what the call graph says of the
functions. The labels of the nodes may change as well, as long as each label is linked to one. -/
theorem comments_invisible (links : Nat → Nat → Prop) (hlinks : Relator.BiUnique links)
    (program other : Place) (hnode : program.node.Commented links other.node)
    (habove : List.Forall₂ (Node.Commented links) program.above other.above) :
    let graph := CallGraph.ofProgram program
    let graph' := CallGraph.ofProgram other
    TypeMap.collect other.node = TypeMap.collect program.node ∧
    (∀ budget : Budget, run budget other = run budget program) ∧
    (∀ (budget : Budget) (count : Nat),
      rounds ⟨graph', budget.limits⟩ other count (initial other) =
        rounds ⟨graph, budget.limits⟩ program count (initial program)) ∧
    (∀ (budget : Budget) (known : Knowledge),
      (roundSession ⟨graph', budget.limits⟩ other.node known).readings =
        (roundSession ⟨graph, budget.limits⟩ program.node known).readings) ∧
    graph'.functions.map (fun f => (f.name, f.params.map (·.name), f.isAsync)) =
      graph.functions.map (fun f => (f.name, f.params.map (·.name), f.isAsync)) ∧
    ∀ name, graph'.callers name = graph.callers name ∧
      graph'.callees name = graph.callees name := by
  have h : program.Commented links other := ⟨hnode, habove.imp fun _ _ hn => hn.alike⟩
  have hinitial : initial other = initial program := by rw [initial, initial, hnode.collect]
  refine ⟨hnode.collect, fun budget => ?_, fun budget count => ?_, fun budget known => ?_,
    h.headers, fun name => ⟨h.callers name, h.callees name⟩⟩
  · rw [run, run, hinitial, settle_commented h hlinks]
  · rw [hinitial, rounds_commented h hlinks]
  · rw [roundSession_commented h hlinks]

/-- The tree of `f = x => x, f(1)`: a declaration and a call. -/
def identityCall : Node :=
  ⟨0, .program, none, true, none,
    [⟨1, .variableDeclarator, none, true, some "f = x => x",
        [⟨2, .identifier, some .name, true, some "f", []⟩,
          ⟨3, .arrowFunction, some .value, true, some "x => x",
            [⟨4, .identifier, some .parameter, true, some "x", []⟩,
              ⟨5, .identifier, some .body, true, some "x", []⟩]⟩]⟩,
      ⟨6, .callExpression, none, true, some "f(1)",
        [⟨7, .identifier, some .callee, true, some "f", []⟩,
          ⟨8, .arguments, some .arguments, true, some "(1)",
            [⟨9, .number, none, true, some "1", []⟩]⟩]⟩]⟩

/-- The same with a comment before the function, one before its body and one before the argument. -/
def remarkedCall : Node :=
  ⟨0, .program, none, true, none,
    [⟨1, .variableDeclarator, none, true, some "f = x => x",
        [⟨2, .identifier, some .name, true, some "f", []⟩,
          ⟨3, .comment, none, true, some "/* id */", []⟩,
          ⟨4, .arrowFunction, some .value, true, some "x => x",
            [⟨5, .identifier, some .parameter, true, some "x", []⟩,
              ⟨6, .comment, none, true, some "/* same */", []⟩,
              ⟨7, .identifier, some .body, true, some "x", []⟩]⟩]⟩,
      ⟨8, .callExpression, none, true, some "f(1)",
        [⟨9, .identifier, some .callee, true, some "f", []⟩,
          ⟨10, .arguments, some .arguments, true, some "(1)",
            [⟨11, .comment, none, true, some "/* one */", []⟩,
              ⟨12, .number, none, true, some "1", []⟩]⟩]⟩]⟩

/-- Comments around the value of a declaration, inside a function and before an argument. -/
theorem comments_invisible_call :
    ∃ links, Relator.BiUnique links ∧ identityCall.Commented links remarkedCall ∧
      ∀ budget : Budget, run budget ⟨remarkedCall, []⟩ = run budget ⟨identityCall, []⟩ := by
  have h : identityCall.Commented (fun _ _ => True) remarkedCall := by
    refine .mk trivial (.keep (.mk trivial ?_) (.keep (.mk trivial ?_) .nil))
    · refine .keep (.mk trivial .nil) (.insert ⟨rfl, rfl, rfl⟩ (.keep (.mk trivial ?_) .nil))
      exact .keep (.mk trivial .nil) (.insert ⟨rfl, rfl, rfl⟩ (.keep (.mk trivial .nil) .nil))
    · refine .keep (.mk trivial .nil) (.keep (.mk trivial ?_) .nil)
      exact .insert ⟨rfl, rfl, rfl⟩ (.keep (.mk trivial .nil) .nil)
  obtain ⟨pairs, hpairs, hlinked⟩ := h.exists_links
  have hlinks := hpairs.biUnique (by decide) (by decide)
  exact ⟨_, hlinks, hlinked,
    (comments_invisible _ hlinks ⟨identityCall, []⟩ ⟨remarkedCall, []⟩ hlinked .nil).2.1⟩

end Inference

end ScriptTypes
