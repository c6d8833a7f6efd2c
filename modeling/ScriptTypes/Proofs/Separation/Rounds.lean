import ScriptTypes.Proofs.Separation.Programs
import ScriptTypes.Proofs.Separation.Tables
import ScriptTypes.Proofs.Settling

/-!
# Unrelated code does not interfere

Rounds over a program whose statements are split into two groups that have nothing to do with each
other. The session over the whole program does what the sessions over the two groups do, now for the
one and now for the other, and what it holds is put together from what these hold.

* `Apart`: a session over the whole beside sessions over the groups.
* `pairing_apart`: what is done for one group in its own session and in that over the whole.
* `Parallel`: what is done for both groups.
* `Divided.round`: one round.
* `groups_do_not_interfere`: any number of rounds.
-/

namespace ScriptTypes

/-- The time is used up at all readings of the clock or at none. -/
def Limits.Steady (limits : Limits) : Prop :=
  ∀ reading, limits.expired reading = limits.expired 0

/-- A clock that stands still. -/
theorem Budget.steady_limits {budget : Budget}
    (h : ∀ reading, budget.clock reading = budget.clock 0) : budget.limits.Steady := by
  intro reading
  show budget.deadlinePassed reading = budget.deadlinePassed 0
  simp only [Budget.deadlinePassed, Budget.elapsedMs, h reading]

namespace Typing

/-! ## Sessions -/

/-- A session over one group and one over the whole program with the same nesting and stack, while
the session over the rest does nothing. What the whole holds is put together from the two. -/
structure Apart (own foreign : String → Prop) (rest : Session) (nesting : Nat)
    (stack : List (Option String)) (s t : Session) : Prop where
  nesting : s.nesting = nesting ∧ t.nesting = nesting
  active : s.active = stack ∧ t.active = stack
  idle : rest.nesting = 0 ∧ rest.active = []
  types : Joined own foreign s.types.get? rest.types.get? t.types.get?
  returns : Joined own foreign s.returns.get? rest.returns.get? t.returns.get?
  answered : Joined own foreign s.answered.get? rest.answered.get? t.answered.get?

theorem Apart.symm {own foreign : String → Prop} {s rest t : Session}
    (h : Apart own foreign rest 0 [] s t) : Apart foreign own s 0 [] rest t :=
  ⟨⟨h.idle.1, h.nesting.2⟩, ⟨h.idle.2, h.active.2⟩, ⟨h.nesting.1, h.active.1⟩, h.types.symm,
    h.returns.symm, h.answered.symm⟩

/-- The stack and the counters may change in both sessions alike. -/
theorem Apart.bookkeep {own foreign : String → Prop} {rest s t : Session} {nesting : Nat}
    {stack : List (Option String)} (h : Apart own foreign rest nesting stack s t)
    {nesting' n m : Nat} {stack' a b : List (Option String)}
    (hnesting : n = nesting' ∧ m = nesting') (hactive : a = stack' ∧ b = stack')
    (readings readings' : Nat) :
    Apart own foreign rest nesting' stack'
      { s with active := a, nesting := n, readings := readings }
      { t with active := b, nesting := m, readings := readings' } :=
  ⟨hnesting, hactive, h.idle, h.types, h.returns, h.answered⟩

/-- The region of a tree holds what a round over the tree starts from. -/
theorem Region.covers_apart {root : Node} {foreign : String → Prop}
    (h : ∀ n ∈ root.preorder, ∀ name ∈ n.spelled, ¬foreign name) :
    (Region.apart root foreign h).Covers root :=
  have hcover := Region.covers_declared ⟨root, []⟩
  ⟨hcover.call, hcover.argument, hcover.value, hcover.declared, hcover.pattern⟩

section

variable {root : Node} (hroot : root.kind = .program) {nodes others : List Node}

include hroot

/-- There is nothing to be done at the root. -/
theorem propagate_withChildren (scope : Scope) (nodes : List Node) :
    propagate scope (root.withChildren nodes) =
      (Node.preorderAll nodes).forM (propagateNode scope) := by
  have hskip : propagateNode scope (root.withChildren nodes) = pure () := by
    rw [propagateNode, Node.withChildren, hroot]
  rw [propagate, Node.preorder_withChildren]
  show (propagateNode scope (root.withChildren nodes) >>= fun _ =>
    (Node.preorderAll nodes).forM (propagateNode scope)) = _
  rw [hskip, pure_bind]

variable (sep : Separate nodes others)

include sep

theorem not_bound_of_spelled : ∀ n ∈ (root.withChildren nodes).preorder, ∀ name ∈ n.spelled,
    name ∉ Node.boundNames others := fun _ hn name hname hbound =>
  sep.apart' name hbound (Node.mem_writtenNames hroot hn hname)

/-- What one group does in its own session it does in the session over the whole. There the clock is
read more often, so it has to say the same each time. -/
theorem pairing_apart {limits : Limits} (hsteady : limits.Steady) {whole : CallGraph}
    (hpart : (CallGraph.ofProgram (root.alone nodes)).PartOf
      (CallGraph.ofProgram (root.alone others)) whole) (rest : Session) :
    Pairing ⟨CallGraph.ofProgram (root.alone nodes), limits⟩ ⟨whole, limits⟩
      (Region.apart (root.withChildren nodes) (· ∈ Node.boundNames others)
        (not_bound_of_spelled hroot sep))
      Eq .anything
      (Apart (· ∈ Node.boundNames nodes) (· ∈ Node.boundNames others) rest) := by
  have hfunction : ∀ name, name ∉ Node.boundNames others →
      Option.Rel (DeclaredFunction.Commented Eq)
        ((CallGraph.ofProgram (root.alone nodes)).function? name) (whole.function? name) := by
    intro name hname
    refine hpart _ _ (fun _ _ hf => by rw [hf.name]) fun f hf => decide_eq_false fun heq => ?_
    exact hname (heq ▸ CallGraph.name_mem_boundNames hroot hf)
  have hown : ∀ {f : DeclaredFunction}, f ∈ (CallGraph.ofProgram (root.alone nodes)).functions →
      f.name ∈ Node.boundNames nodes := CallGraph.name_mem_boundNames hroot
  have hoffered : ∀ {name : String}, (Region.declared (root.alone nodes)).offered name →
      name ∈ Node.boundNames nodes := by
    rintro name (hname | ⟨-, hblank⟩)
    · exact (TypeMap.mem_names_collect_withChildren hroot).1 hname
    · exact absurd hblank (not_hasBlankName hroot sep.named)
  have hmeets : ∀ e : Option Estimate, Standard.anything.MeetsSome e :=
    fun _ e _ => Standard.meets_anything e
  exact
  { depth := fun _ => .rfl
    function? := by
      intro name f hf
      have hname : f.name = name := by simpa using List.find?_some hf
      have hbound := hown (List.mem_of_find?_eq_some hf)
      exact rel_some (hfunction name (hname ▸ sep.not_bound hbound)) hf
    function?_none := by
      intro name hnone hread
      have hname : name ∉ Node.boundNames others :=
        hread.elim id fun ho => sep.not_bound (hoffered ho)
      exact rel_none (hfunction name hname) hnone
    functionAt? := by
      intro n n' hn hk hnn
      refine hpart _ _ (fun f g hfg => by rw [hfg.node.label, hnn.label]) fun f hf => ?_
      -- Both nodes are functions, so neither is the root.
      obtain ⟨hnode, hfk⟩ := CallGraph.node_mem_preorder_of_mem_functions hf
      have hn' : n ∈ (root.withChildren nodes).preorder := hn
      rw [Node.preorder_withChildren, List.mem_cons] at hnode hn'
      have hinside : n ∈ Node.preorderAll nodes := hn'.resolve_left fun heq => by
        rw [heq, Node.withChildren, hroot] at hk
        cases hk
      have houtside : f.node ∈ Node.preorderAll others := hnode.resolve_left fun heq => by
        rw [heq, Node.withChildren, hroot] at hfk
        cases hfk
      exact decide_eq_false fun heq => sep.labels n hinside f.node houtside heq.symm
    nesting := fun h => h.nesting
    active := fun h => h.active
    types := fun h hread => ⟨(h.types.part_eq hread).symm, hmeets _⟩
    answered := fun h hf => ⟨(h.answered.part_eq (sep.not_bound (hown hf))).symm, hmeets _⟩
    final := by
      intro nesting stack s t f h hf
      have hreturns := h.returns.part_eq (sep.not_bound (hown hf))
      exact ⟨congrArg (Option.filter _) hreturns.symm, hmeets _⟩
    returned := fun h hf _ => (h.returns.part_eq (sep.not_bound (hown hf))).symm
    clock := by
      intro nesting stack s t h
      rw [outcome_expired, outcome_expired, hsteady s.readings, hsteady t.readings]
      exact ⟨rfl, trivial, h.bookkeep h.nesting h.active _ _⟩
    descend := fun h =>
      h.bookkeep (h.nesting.imp (congrArg (· + 1)) (congrArg (· + 1))) h.active _ _
    ascend := fun h =>
      h.bookkeep (h.nesting.imp (congrArg (· - 1)) (congrArg (· - 1))) h.active _ _
    enter := fun h _ _ _ =>
      h.bookkeep h.nesting (h.active.imp (congrArg _) (congrArg _)) _ _
    finish := fun {nesting stack s t f e} h hf _ _ _ =>
      ⟨h.nesting, h.active.imp (congrArg List.tail) (congrArg List.tail), h.idle, h.types,
        h.returns.set (hown hf) e, h.answered.write (hown hf) (fun _ => rfl) fun _ => rfl⟩
    enterLiteral := fun h => h.bookkeep h.nesting (h.active.imp (congrArg _) (congrArg _)) _ _
    leaveLiteral := fun h =>
      h.bookkeep h.nesting (h.active.imp (congrArg List.tail) (congrArg List.tail)) _ _
    offer := by
      intro nesting stack s t name e h ho _
      have hbound := hoffered ho
      exact ⟨h.nesting, h.active, h.idle, h.types.assign hbound (sep.not_bound hbound) e false,
        h.returns, h.answered⟩
    sign := by
      intro nesting stack s t f h hf hreturns
      have hf' : f ∈ (CallGraph.ofProgram (root.alone nodes)).functions := hf
      rw [outcome_writeSignature, outcome_writeSignature, ← hreturns]
      cases s.returns.get? f.name with
      | none => exact h
      | some returned =>
        -- The signature is read off the function's own name and its parameters.
        have hname := h.types.part_eq (sep.not_bound (hown hf))
        have hsignature : signatureOf t.types f returned = signatureOf s.types f returned := by
          refine signatureOf_congr hname (fun p hp x hx => h.types.part_eq ?_) returned
          exact (Region.apart _ _ (not_bound_of_spelled hroot sep)).read_params hf' hp hx
        dsimp only
        rw [hsignature]
        exact ⟨h.nesting, h.active, h.idle,
          h.types.assign (hown hf) (sep.not_bound (hown hf)) _ true, h.returns, h.answered⟩ }

/-! ## What is done for one group -/

section

variable {limits : Limits} (hsteady : limits.Steady) {whole : CallGraph}
  (hpart : (CallGraph.ofProgram (root.alone nodes)).PartOf
    (CallGraph.ofProgram (root.alone others)) whole) (rest : Session)

include hsteady hpart

theorem propagate_apart :
    Coupled (Apart (· ∈ Node.boundNames nodes) (· ∈ Node.boundNames others) rest 0 [])
      (fun _ => True)
      (propagate ⟨CallGraph.ofProgram (root.alone nodes), limits⟩ (root.withChildren nodes))
      ((Node.preorderAll nodes).forM (propagateNode ⟨whole, limits⟩)) := by
  have hp := pairing_apart hroot sep hsteady hpart rest
  have hsame : Interspersed (fun _ => False) (Node.Commented Eq) (Node.preorderAll nodes)
      (Node.preorderAll nodes) := .refl fun n _ => .refl (fun _ => rfl) n
  rw [propagate_withChildren hroot]
  refine .forM hsame nofun fun n hn n' h => ?_
  refine hp.passing.propagateNode (Region.covers_apart (not_bound_of_spelled hroot sep)) ?_ h
  rw [Node.preorder_withChildren]
  exact List.mem_cons_of_mem _ hn

theorem sites_apart (all : List Node) :
    Coupled (Apart (· ∈ Node.boundNames nodes) (· ∈ Node.boundNames others) rest 0 [])
      (fun _ => True)
      ((CallGraph.ofProgram (root.alone nodes)).sites.forM
        (refineSite ⟨CallGraph.ofProgram (root.alone nodes), limits⟩))
      ((CallGraph.ofPlaces (Place.preorderFromAll [root.withChildren all] nodes)).sites.forM
        (refineSite ⟨whole, limits⟩)) := by
  have hp := pairing_apart hroot sep hsteady hpart rest
  have hcover := Region.covers_apart (not_bound_of_spelled hroot sep)
  refine .forM (.of_forall₂ (CallGraph.sites_withChildren hroot nodes all)) nofun
    fun site hsite site' h => ?_
  refine hp.passing.refineSite h (fun _ hc => hcover.argument hsite hc)
    (fun _ _ e _ => Standard.meets_anything e) fun hnone => hp.function?_none hnone (.inl ?_)
  obtain ⟨n, hn, hcallee⟩ := CallGraph.exists_spelled_of_mem_sites hsite
  exact not_bound_of_spelled hroot sep n hn site.callee hcallee

theorem functions_apart (all : List Node) :
    Coupled (Apart (· ∈ Node.boundNames nodes) (· ∈ Node.boundNames others) rest 0 [])
      (fun _ => True)
      ((CallGraph.ofProgram (root.alone nodes)).functions.forM
        (refineFunction ⟨CallGraph.ofProgram (root.alone nodes), limits⟩))
      ((CallGraph.ofPlaces (Place.preorderFromAll [root.withChildren all] nodes)).functions.forM
        (refineFunction ⟨whole, limits⟩)) := by
  have hp := pairing_apart hroot sep hsteady hpart rest
  exact .forM (.of_forall₂ (CallGraph.functions_withChildren hroot nodes all)) nofun
    fun f hf g h => hp.refineFunction hf h

end

end

/-! ## What is done for both groups -/

/-- Two computations in sessions over the groups, and one in a session over the whole that does what
both do. -/
def Parallel (own foreign : String → Prop) (x y z : SessionM PUnit) : Prop :=
  ∀ s rest t, Apart own foreign rest 0 [] s t →
    Apart own foreign (outcome y rest).2 0 [] (outcome x s).2 (outcome z t).2

namespace Parallel

variable {own foreign : String → Prop} {x y z x' y' z' : SessionM PUnit}

/-- First what is done for the one group, then what is done for the other. -/
theorem beside {α : Type} {items others : List α} {body : α → SessionM PUnit}
    (hx : ∀ rest, Coupled (Apart own foreign rest 0 []) (fun _ => True) x (items.forM body))
    (hy : ∀ rest, Coupled (Apart foreign own rest 0 []) (fun _ => True) y (others.forM body)) :
    Parallel own foreign x y ((items ++ others).forM body) := by
  intro s rest t h
  -- The session over the other group waits, and then the one over the first does.
  have hfirst := (hx rest s t h).2.2
  have hsecond := (hy _ rest _ hfirst.symm).2.2.symm
  rw [List.forM_eq_forM, List.forM_append]
  exact hsecond

theorem bind (h : Parallel own foreign x y z) (h' : Parallel own foreign x' y' z') :
    Parallel own foreign (x >>= fun _ => x') (y >>= fun _ => y') (z >>= fun _ => z') :=
  fun s rest t hst => h' _ _ _ (h s rest t hst)

end Parallel

/-- All that a round does in its session. -/
theorem parallel_round {root : Node} (hroot : root.kind = .program) {nodes others : List Node}
    (sep : Separate nodes others) {limits : Limits} (hsteady : limits.Steady) :
    Parallel (· ∈ Node.boundNames nodes) (· ∈ Node.boundNames others)
      (propagate ⟨CallGraph.ofProgram (root.alone nodes), limits⟩ (root.withChildren nodes) *>
        refineCalls ⟨CallGraph.ofProgram (root.alone nodes), limits⟩)
      (propagate ⟨CallGraph.ofProgram (root.alone others), limits⟩ (root.withChildren others) *>
        refineCalls ⟨CallGraph.ofProgram (root.alone others), limits⟩)
      (propagate ⟨CallGraph.ofProgram (root.alone (nodes ++ others)), limits⟩
          (root.withChildren (nodes ++ others)) *>
        refineCalls ⟨CallGraph.ofProgram (root.alone (nodes ++ others)), limits⟩) := by
  have hfirst := Separate.partOf_first hroot sep
  have hsecond := Separate.partOf_second hroot sep
  -- Each pass of the whole is that of the first group, then that of the second, while in the
  -- sessions over the groups all passes of one follow each other.
  refine Parallel.bind ?_ (Parallel.bind ?_ ?_)
  · rw [propagate_withChildren hroot _ (nodes ++ others), Node.preorderAll_append]
    exact .beside (propagate_apart hroot sep hsteady hfirst)
      (propagate_apart hroot sep.symm hsteady hsecond)
  · rw [Separate.sites_whole hroot]
    exact .beside (fun rest => sites_apart hroot sep hsteady hfirst rest _)
      fun rest => sites_apart hroot sep.symm hsteady hsecond rest _
  · rw [Separate.functions_whole hroot sep]
    exact .beside (fun rest => functions_apart hroot sep hsteady hfirst rest _)
      fun rest => functions_apart hroot sep.symm hsteady hsecond rest _

end Typing

/-! ## Rounds -/

namespace Inference

open Typing

/-- What is known of a program is put together from what is known of two groups. -/
structure Divided (own foreign : String → Prop) (part rest whole : Knowledge) : Prop where
  types : Joined own foreign part.types.get? rest.types.get? whole.types.get?
  returns : Joined own foreign part.returns.get? rest.returns.get? whole.returns.get?

theorem Divided.symm {own foreign : String → Prop} {part rest whole : Knowledge}
    (h : Divided own foreign part rest whole) : Divided foreign own rest part whole :=
  ⟨h.types.symm, h.returns.symm⟩

section

variable {root : Node} (hroot : root.kind = .program) {nodes others : List Node}
  (sep : Separate nodes others)

include hroot sep

theorem divided_initial :
    Divided (· ∈ Node.boundNames nodes) (· ∈ Node.boundNames others) (initial (root.alone nodes))
      (initial (root.alone others)) (initial (root.alone (nodes ++ others))) := by
  have hseeds : ∀ {nodes others : List Node}, Separate nodes others →
      ∀ seed ∈ (Node.preorderAll nodes).flatMap Seed.ofNode,
        seed.1 ∈ Node.boundNames nodes ∧ seed.1 ∉ Node.boundNames others := by
    intro nodes others sep seed hseed
    have hbound : seed.1 ∈ Node.boundNames nodes := List.mem_map_of_mem hseed
    exact ⟨hbound, sep.not_bound hbound⟩
  have hwhole : TypeMap.collect (root.withChildren (nodes ++ others)) =
      (TypeMap.collect (root.withChildren nodes)).plant
        ((Node.preorderAll others).flatMap Seed.ofNode) := by
    rw [TypeMap.collect, TypeMap.collect, Seed.ofProgram_withChildren hroot,
      Seed.ofProgram_withChildren hroot, Node.preorderAll_append, List.flatMap_append,
      TypeMap.plant, List.foldl_append]
    rfl
  refine ⟨?_, .nothing⟩
  show Joined _ _ (TypeMap.collect (root.withChildren nodes)).get?
    (TypeMap.collect (root.withChildren others)).get?
    (TypeMap.collect (root.withChildren (nodes ++ others))).get?
  have hempty : Joined (· ∈ Node.boundNames nodes) (· ∈ Node.boundNames others)
      (Table.empty : TypeMap).get? (Table.empty : TypeMap).get? (Table.empty : TypeMap).get? :=
    .nothing
  have hfirst := hempty.plant (hseeds sep)
  have hsecond := hfirst.symm.plant (hseeds sep.symm)
  rw [hwhole, TypeMap.collect, TypeMap.collect, Seed.ofProgram_withChildren hroot,
    Seed.ofProgram_withChildren hroot]
  exact hsecond.symm

theorem not_bound_of_place : ∀ place ∈ Place.preorderFromAll [root.withChildren nodes] nodes,
    place.node.kind = .identifier → ∀ name, place.node.text = some name →
      name ∉ Node.boundNames others := by
  intro place hplace hk name htext
  have hmem : place.node ∈ Node.preorderAll nodes := by
    rw [← Place.map_node_preorderFromAll [root.withChildren nodes]]
    exact List.mem_map_of_mem hplace
  refine not_bound_of_spelled hroot sep place.node ?_ name (Node.mem_spelled_of_identifier hk htext)
  rw [Node.preorder_withChildren]
  exact List.mem_cons_of_mem _ hmem

/-- The uses that are seen in the whole program are those that are seen in the two groups. -/
theorem joined_uses {part rest whole : TypeMap}
    (h : Joined (· ∈ Node.boundNames nodes) (· ∈ Node.boundNames others) part.get? rest.get?
      whole.get?) (hpart : SameNames (root.withChildren nodes) part)
    (hrest : SameNames (root.withChildren others) rest) :
    Joined (· ∈ Node.boundNames nodes) (· ∈ Node.boundNames others)
      (Usage.ofProgram (root.alone nodes) part).get?
      (Usage.ofProgram (root.alone others) rest).get?
      (Usage.ofProgram (root.alone (nodes ++ others)) whole).get? := by
  have hcontains : ∀ name, name ∉ Node.boundNames others →
      whole.contains name = part.contains name := fun name hname => by
    rw [Table.contains, Table.contains, h.part_eq hname]
  have hcontains' : ∀ name, name ∉ Node.boundNames nodes →
      whole.contains name = rest.contains name := fun name hname => by
    rw [Table.contains, Table.contains, h.rest_eq hname]
  have hown : ∀ name ∈ part.names, name ∈ Node.boundNames nodes := fun name hname =>
    (TypeMap.mem_names_collect_withChildren hroot).1 ((hpart name).1 hname)
  have hown' : ∀ name ∈ rest.names, name ∈ Node.boundNames others := fun name hname =>
    (TypeMap.mem_names_collect_withChildren hroot).1 ((hrest name).1 hname)
  have hempty : Joined (· ∈ Node.boundNames nodes) (· ∈ Node.boundNames others)
      (Table.empty : Usage).get? (Table.empty : Usage).get? (Table.empty : Usage).get? := .nothing
  have hfirst := hempty.foldl_observe
    (Place.preorderFromAll_withChildren hroot nodes (nodes ++ others)) hcontains hown
    (not_bound_of_place hroot sep)
  have hsecond := hfirst.symm.foldl_observe
    (Place.preorderFromAll_withChildren hroot others (nodes ++ others)) hcontains' hown'
    (not_bound_of_place hroot sep.symm)
  rw [Usage.ofProgram_withChildren hroot, Usage.ofProgram_withChildren hroot,
    Usage.ofProgram_withChildren hroot, Place.preorderFromAll_append, List.foldl_append]
  exact hsecond.symm

/-- A round over the whole program is a round over each of the groups. -/
theorem Divided.round {limits : Limits} (hsteady : limits.Steady) {part rest whole : Knowledge}
    (h : Divided (· ∈ Node.boundNames nodes) (· ∈ Node.boundNames others) part rest whole)
    (hpart : SameNames (root.withChildren nodes) part.types)
    (hrest : SameNames (root.withChildren others) rest.types) :
    Divided (· ∈ Node.boundNames nodes) (· ∈ Node.boundNames others)
      (round ⟨CallGraph.ofProgram (root.alone nodes), limits⟩ (root.alone nodes) part)
      (round ⟨CallGraph.ofProgram (root.alone others), limits⟩ (root.alone others) rest)
      (round ⟨CallGraph.ofProgram (root.alone (nodes ++ others)), limits⟩
        (root.alone (nodes ++ others)) whole) := by
  have hsession := parallel_round hroot sep hsteady (Session.start part) (Session.start rest)
    (Session.start whole) ⟨⟨rfl, rfl⟩, ⟨rfl, rfl⟩, ⟨rfl, rfl⟩, h.types, h.returns, .nothing⟩
  exact ⟨(joined_uses hroot sep h.types hpart hrest).fold hsession.types, hsession.returns⟩

/-- What is held of the names and functions of a group, alone and in the whole program. -/
theorem Divided.alone {part rest whole : Knowledge}
    (h : Divided (· ∈ Node.boundNames nodes) (· ∈ Node.boundNames others) part rest whole)
    (hpart : SameNames (root.withChildren nodes) part.types) :
    (∀ name, part.types.get? name =
      if name ∈ Node.boundNames nodes then whole.types.get? name else none) ∧
    ∀ f ∈ (CallGraph.ofProgram (root.alone nodes)).functions,
      part.returns.get? f.name = whole.returns.get? f.name := by
  refine ⟨fun name => ?_, fun f hf => ?_⟩
  · split
    · rename_i hbound
      exact (h.types.part_eq (sep.not_bound hbound)).symm
    · rename_i hbound
      refine Option.eq_none_iff_forall_not_mem.2 fun e he => hbound ?_
      exact (TypeMap.mem_names_collect_withChildren hroot).1
        ((hpart name).1 (Table.mem_names_iff.2 ⟨e, he⟩))
  · exact (h.returns.part_eq (sep.not_bound (CallGraph.name_mem_boundNames hroot hf))).symm

/-- Any number of rounds. -/
theorem divided_after {limits : Limits} (hsteady : limits.Steady) (count : Nat) :
    let part := after (root.alone nodes) limits (initial (root.alone nodes)) count
    let rest := after (root.alone others) limits (initial (root.alone others)) count
    Divided (· ∈ Node.boundNames nodes) (· ∈ Node.boundNames others) part rest
      (after (root.alone (nodes ++ others)) limits (initial (root.alone (nodes ++ others))) count) ∧
    SameNames (root.withChildren nodes) part.types ∧
    SameNames (root.withChildren others) rest.types := by
  induction count with
  | zero => exact ⟨divided_initial hroot sep, fun _ => Iff.rfl, fun _ => Iff.rfl⟩
  | succ count ih =>
    obtain ⟨hdivided, hpart, hrest⟩ := ih
    rw [after_succ, after_succ, after_succ]
    exact ⟨hdivided.round hroot sep hsteady hpart hrest,
      hpart.round (not_hasBlankName hroot sep.named),
      hrest.round (not_hasBlankName hroot sep.named')⟩

end

/-- If no name that is bound in one of two groups of statements is written in the other and the
clock stands still, the rounds over the whole program come to the same for the names and functions
of each group as rounds over that group alone: the map of the group is that of the program,
restricted to the names that the group binds, and the functions of the program are those of the
groups, with the same results. -/
theorem groups_do_not_interfere (root : Node) (first second : List Node)
    (hroot : root.kind = .program) (hchildren : root.children = first ++ second)
    (hlabels : (root.preorder.map (·.label)).Nodup)
    (hfirst : ∀ name ∈ Node.boundNames first, name ∉ Node.writtenNames second)
    (hsecond : ∀ name ∈ Node.boundNames second, name ∉ Node.writtenNames first)
    (hnamed : "" ∉ Node.writtenNames root.children) (budget : Budget)
    (hclock : ∀ reading, budget.clock reading = budget.clock 0) (count : Nat) :
    let whole := after ⟨root, []⟩ budget.limits (initial ⟨root, []⟩) count
    (∀ group ∈ [first, second],
      let alone := after (root.alone group) budget.limits (initial (root.alone group)) count
      (∀ name, alone.types.get? name =
        if name ∈ Node.boundNames group then whole.types.get? name else none) ∧
      ∀ f ∈ (CallGraph.ofProgram (root.alone group)).functions,
        alone.returns.get? f.name = whole.returns.get? f.name) ∧
    (CallGraph.ofProgram ⟨root, []⟩).functions.map (·.name) =
      [first, second].flatMap fun group =>
        (CallGraph.ofProgram (root.alone group)).functions.map (·.name) := by
  have hwhole : root.alone (first ++ second) = ⟨root, []⟩ := by
    rw [← hchildren, Node.alone, Node.withChildren_children]
  have sep : Separate first second := .of_nodup hchildren hlabels hfirst hsecond hnamed
  obtain ⟨hdivided, hpart, hrest⟩ :=
    divided_after hroot sep (Budget.steady_limits hclock) count
  rw [hwhole] at hdivided
  refine ⟨?_, ?_⟩
  · simp only [List.forall_mem_cons]
    exact ⟨hdivided.alone hroot sep hpart, hdivided.symm.alone hroot sep.symm hrest, nofun⟩
  · have hnames := fun nodes => map_eq_of_forall₂
      (CallGraph.functions_withChildren hroot nodes (first ++ second)) fun _ _ hf => hf.name
    rw [← hwhole, Separate.functions_whole hroot sep, List.map_append, hnames, hnames]
    simp

/-- The trees of `f = x => x, f(1)`. -/
def numberCall : List Node :=
  [⟨1, .variableDeclarator, none, true, some "f = x => x",
      [⟨2, .identifier, some .name, true, some "f", []⟩,
        ⟨3, .arrowFunction, some .value, true, some "x => x",
          [⟨4, .identifier, some .parameter, true, some "x", []⟩,
            ⟨5, .identifier, some .body, true, some "x", []⟩]⟩]⟩,
    ⟨6, .callExpression, none, true, some "f(1)",
      [⟨7, .identifier, some .callee, true, some "f", []⟩,
        ⟨8, .arguments, some .arguments, true, some "(1)",
          [⟨9, .number, none, true, some "1", []⟩]⟩]⟩]

/-- The trees of `g = y => y, g(true)`. -/
def truthCall : List Node :=
  [⟨10, .variableDeclarator, none, true, some "g = y => y",
      [⟨11, .identifier, some .name, true, some "g", []⟩,
        ⟨12, .arrowFunction, some .value, true, some "y => y",
          [⟨13, .identifier, some .parameter, true, some "y", []⟩,
            ⟨14, .identifier, some .body, true, some "y", []⟩]⟩]⟩,
    ⟨15, .callExpression, none, true, some "g(true)",
      [⟨16, .identifier, some .callee, true, some "g", []⟩,
        ⟨17, .arguments, some .arguments, true, some "(true)",
          [⟨18, .trueLiteral, none, true, some "true", []⟩]⟩]⟩]

/-- Two functions, each with a call. -/
def twoCalls : Node := ⟨0, .program, none, true, none, numberCall ++ truthCall⟩

/-- What is held of a function and its parameter does not depend on the other function. -/
theorem groups_do_not_interfere_calls :
    ((twoCalls.preorder.map (·.label)).Nodup ∧
      (∀ name ∈ Node.boundNames numberCall, name ∉ Node.writtenNames truthCall) ∧
      (∀ name ∈ Node.boundNames truthCall, name ∉ Node.writtenNames numberCall) ∧
      "" ∉ Node.writtenNames twoCalls.children) ∧
    Node.boundNames numberCall = ["f", "f", "x"] ∧
    ∀ (config : Config) (clock count : Nat), ∀ name ∈ Node.boundNames numberCall,
      let budget : Budget := ⟨config, fun _ => clock⟩
      (after (twoCalls.alone numberCall) budget.limits (initial (twoCalls.alone numberCall))
          count).types.get? name =
        (after ⟨twoCalls, []⟩ budget.limits (initial ⟨twoCalls, []⟩) count).types.get? name := by
  have hlabels : (twoCalls.preorder.map (·.label)).Nodup := by decide
  have hfirst : ∀ name ∈ Node.boundNames numberCall, name ∉ Node.writtenNames truthCall := by
    decide +kernel
  have hsecond : ∀ name ∈ Node.boundNames truthCall, name ∉ Node.writtenNames numberCall := by
    decide +kernel
  have hnamed : "" ∉ Node.writtenNames twoCalls.children := by decide +kernel
  refine ⟨⟨hlabels, hfirst, hsecond, hnamed⟩, by decide +kernel,
    fun config clock count name hname => ?_⟩
  have hgroup := (groups_do_not_interfere twoCalls numberCall truthCall rfl rfl hlabels hfirst
    hsecond hnamed ⟨config, fun _ => clock⟩ (fun _ => rfl) count).1 numberCall (by simp)
  exact (hgroup.1 name).trans (if_pos hname)

end Inference

end ScriptTypes
