import ScriptTypes.Proofs.Lockstep.Resolution

/-!
# Standards that runs uphold

Whatever a run holds of the names and functions of a program meets every standard: the estimates
that are collected, those of the arguments in the call graph, and all that any number of rounds
makes of them.

* `Standard.Fills`: all that a table holds meets a standard.
* `Standard.Upholds`: all that is known of a program meets a standard.
* `pairing_upheld`: the actions of a session keep to the standard, with and without comments.
* `roundSession_eq`: the session of a round does not depend on comments.
* `Standard.upholds_round`: a round keeps to the standard.
* `Inference.stages`: what is known between the rounds.
* `Standard.upholds_stages`: all that is known there meets the standard.
-/

namespace ScriptTypes

open Typing

/-- What an offer of a candidate keeps holds when all uses are folded in. -/
theorem Usage.fold_invariant {P : TypeMap → Prop} {types : TypeMap}
    (hassign : ∀ types name tags current e, P types → Usage.candidate? tags current = some e →
      P (types.assign name e false)) (usage : Usage) (h : P types) : P (usage.fold types) := by
  unfold Usage.fold
  generalize usage.sorted = entries
  induction entries generalizing types with
  | nil => exact h
  | cons entry entries ih =>
    refine ih ?_
    unfold Usage.foldName
    dsimp only
    split
    · exact h
    · split
      · exact hassign _ _ _ _ _ h ‹_›
      · exact h

namespace Standard

/-! ## Tables -/

/-- All that the table holds meets the standard. -/
def Fills (std : Standard) (table : Table Estimate) : Prop :=
  ∀ name, std.MeetsSome (table.get? name)

variable {std : Standard} {table : Table Estimate} {types : TypeMap} {e : Estimate}

theorem fills_empty : std.Fills .empty := fun _ => meetsSome_none

theorem Fills.set (h : std.Fills table) (name : String) (he : std.Meets e) :
    std.Fills (table.set name e) := by
  intro other
  rw [Table.get?_set]
  split
  · exact meetsSome_some he
  · exact h other

theorem Fills.assign (h : std.Fills types) (name : String) (he : std.Meets e)
    (replaceEqual : Bool) : std.Fills (types.assign name e replaceEqual) := by
  unfold TypeMap.assign
  split
  · exact h.set name he
  · exact h

/-! ## Collected names -/

theorem meets_floor : std.Meets Seed.floor :=
  meets_of std.type_any fun hc => absurd hc (Nat.not_lt_zero _)

theorem meets_rest : std.Meets Seed.rest :=
  meets_percent (std.type_array.2 std.type_any) (by decide)

theorem meets_function [std.Signs] : std.Meets Seed.function := by
  refine meets_percent (Signs.type_fn nofun std.type_any ?_) (by decide)
  rintro _ ⟨⟩
  exact std.type_array.2 std.type_any

theorem meets_forName {name : Option String} (he : std.Meets e) :
    ∀ seed ∈ Seed.forName name e, std.Meets seed.2 := by
  unfold Seed.forName
  split
  · simpa using he
  · nofun

theorem meets_ofPattern (pattern : Option Node) :
    ∀ seed ∈ Seed.ofPattern pattern, std.Meets seed.2 := by
  unfold Seed.ofPattern
  split
  · intro seed hseed
    obtain ⟨binding, -, rfl⟩ := List.mem_map.1 hseed
    exact meets_floor
  · nofun

theorem meets_ofValue (name : Option String) (value : Option Node) :
    ∀ seed ∈ Seed.ofValue name value, std.Meets seed.2 := by
  unfold Seed.ofValue
  split
  · exact meets_forName (meets_structural _)
  · nofun

theorem meets_ofParam (param : Param) : ∀ seed ∈ Seed.ofParam param, std.Meets seed.2 := by
  unfold Seed.ofParam
  split
  · exact List.forall_mem_append.2 ⟨meets_forName meets_rest, meets_ofPattern _⟩
  · refine List.forall_mem_append.2 ⟨?_, meets_ofValue _ _⟩
    exact List.forall_mem_append.2 ⟨meets_forName meets_floor, meets_ofPattern _⟩

theorem meets_ofFunction [std.Signs] (n : Node) : ∀ seed ∈ Seed.ofFunction n, std.Meets seed.2 := by
  unfold Seed.ofFunction
  refine List.forall_mem_append.2 ⟨?_, fun seed hseed => ?_⟩
  · split
    · exact meets_forName meets_function
    · nofun
  · obtain ⟨param, -, hseed⟩ := List.mem_flatMap.1 hseed
    exact meets_ofParam param seed hseed

theorem meets_ofDeclarator (n : Node) : ∀ seed ∈ Seed.ofDeclarator n, std.Meets seed.2 := by
  unfold Seed.ofDeclarator
  split
  · nofun
  · split
    · exact meets_ofPattern _
    · exact List.forall_mem_append.2 ⟨meets_forName meets_floor, meets_ofValue _ _⟩

theorem meets_ofNode [std.Signs] (n : Node) : ∀ seed ∈ Seed.ofNode n, std.Meets seed.2 := by
  unfold Seed.ofNode
  split
  · exact meets_ofDeclarator n
  · split
    · exact meets_ofFunction n
    · nofun

theorem fills_plant {seeds : List Seed} (hseeds : ∀ seed ∈ seeds, std.Meets seed.2)
    (h : std.Fills types) : std.Fills (types.plant seeds) := by
  unfold TypeMap.plant
  induction seeds generalizing types with
  | nil => exact h
  | cons seed seeds ih =>
    obtain ⟨hseed, hseeds⟩ := List.forall_mem_cons.1 hseeds
    exact ih hseeds (h.assign seed.1 hseed false)

theorem fills_collect [std.Signs] (root : Node) : std.Fills (TypeMap.collect root) := by
  refine fills_plant (fun seed hseed => ?_) fills_empty
  obtain ⟨n, -, hseed⟩ := List.mem_flatMap.1 hseed
  exact meets_ofNode n seed hseed

/-! ## Calls -/

/-- The arguments that were typed with the call graph. -/
theorem meetsSome_argument {program : Place} {site : CallSite}
    (hsite : site ∈ (CallGraph.ofProgram program).sites) :
    ∀ argument ∈ site.arguments, std.MeetsSome argument := by
  obtain ⟨place, -, -, -, harguments⟩ := CallGraph.exists_place_of_mem_sites hsite
  intro argument hargument
  rw [harguments] at hargument
  obtain ⟨n, -, rfl⟩ := List.mem_map.1 hargument
  unfold CallSite.literalType?
  split
  · exact meetsSome_some (meets_structural n)
  · exact meetsSome_none

/-! ## Uses -/

theorem meets_candidate? {tags : List UsageTag} {current : Option Estimate}
    (h : Usage.candidate? tags current = some e) : std.Meets e := by
  have hunion : std.type (.union [.number, .string]) :=
    type_pair (std.type_prim _) (std.type_prim _) rfl rfl (by simp [Ty.same])
  unfold Usage.candidate? at h
  repeat' split at h
  all_goals cases h
  · exact meets_percent (std.type_array.2 std.type_any) (by decide)
  iterate 5 · exact meets_prim _ rfl _
  · exact meets_percent hunion (by decide)

theorem fills_fold (usage : Usage) (h : std.Fills types) : std.Fills (usage.fold types) :=
  Usage.fold_invariant (fun _ name _ _ _ h hcandidate =>
    h.assign name (meets_candidate? hcandidate) false) usage h

/-! ## Signatures -/

theorem meets_signatureOf [std.Signs] (h : std.Fills types) (f : DeclaredFunction)
    (he : std.Meets e) : std.Meets (signatureOf types f e) :=
  meets_modest (type_signature he.type fun _ _ x _ => h x) (min_le_left _ _)

end Standard

/-! ## Sessions -/

namespace Typing

/-- A session with a nesting and a stack, in which all that is held meets a standard. -/
structure Upheld (std : Standard) (nesting : Nat) (stack : List (Option String)) (s : Session) :
    Prop where
  nesting : s.nesting = nesting
  active : s.active = stack
  types : std.Fills s.types
  returns : std.Fills s.returns
  answered : ∀ name, std.MeetsSome (s.answered.get? name)

/-- The stack and the counters may change. -/
theorem Upheld.bookkeep {std : Standard} {nesting nesting' n : Nat}
    {stack stack' a : List (Option String)} {s : Session} (h : Upheld std nesting stack s)
    (hnesting : n = nesting') (hactive : a = stack') (readings : Nat) :
    Upheld std nesting' stack' { s with active := a, nesting := n, readings := readings } :=
  ⟨hnesting, hactive, h.types, h.returns, h.answered⟩

variable {left right : Scope} {region : Region left.graph} {links : Nat → Nat → Prop}

/-- The actions of a session keep to the standard, and do the same in the session over a program
with comments put in. -/
theorem pairing_upheld (std : Standard) (hlinks : Relator.BiUnique links)
    [std.Signs] (hlimits : left.limits.Agrees right.limits)
    (hfunctions : List.Forall₂ (DeclaredFunction.Commented links) left.graph.functions
      right.graph.functions) :
    Pairing left right region links std fun nesting stack s t =>
      s = t ∧ Upheld std nesting stack s where
  depth := hlimits.depth
  function? h := rel_some (CallGraph.function?_commented hfunctions _) h
  function?_none h _ := rel_none (CallGraph.function?_commented hfunctions _) h
  functionAt? _ _ hn := CallGraph.functionAt?_commented hlinks hfunctions hn
  nesting := by
    rintro nesting stack s _ ⟨rfl, h⟩
    exact ⟨h.nesting, h.nesting⟩
  active := by
    rintro nesting stack s _ ⟨rfl, h⟩
    exact ⟨h.active, h.active⟩
  types := by
    rintro nesting stack s _ name ⟨rfl, h⟩ -
    exact ⟨rfl, h.types name⟩
  answered := by
    rintro nesting stack s _ f ⟨rfl, h⟩ -
    exact ⟨rfl, h.answered f.name⟩
  final := by
    rintro nesting stack s _ f ⟨rfl, h⟩ -
    exact ⟨rfl, fun e he => h.returns f.name e (Option.filter_eq_some_iff.1 he).1⟩
  returned := by
    rintro nesting s _ f ⟨rfl, -⟩ - -
    rfl
  clock := by
    rintro nesting stack s _ ⟨rfl, h⟩
    rw [outcome_expired, outcome_expired, hlimits.expired]
    exact ⟨rfl, trivial, rfl, h.bookkeep h.nesting h.active _⟩
  descend := by
    rintro nesting stack s _ ⟨rfl, h⟩
    exact ⟨rfl, h.bookkeep (congrArg (· + 1) h.nesting) h.active _⟩
  ascend := by
    rintro nesting stack s _ ⟨rfl, h⟩
    exact ⟨rfl, h.bookkeep (congrArg (· - 1) h.nesting) h.active _⟩
  enter := by
    rintro nesting stack s _ f ⟨rfl, h⟩ - - -
    exact ⟨rfl, h.bookkeep h.nesting (congrArg _ h.active) _⟩
  finish := by
    rintro nesting stack s _ f e ⟨rfl, h⟩ - - he -
    refine ⟨rfl, h.nesting, congrArg List.tail h.active, h.types, h.returns.set f.name he, ?_⟩
    intro name
    show std.MeetsSome (if f.name = name then some e else s.answered.get? name)
    split
    · exact Standard.meetsSome_some he
    · exact h.answered name
  enterLiteral := by
    rintro nesting stack s _ ⟨rfl, h⟩
    exact ⟨rfl, h.bookkeep h.nesting (congrArg _ h.active) _⟩
  leaveLiteral := by
    rintro nesting stack s _ ⟨rfl, h⟩
    exact ⟨rfl, h.bookkeep h.nesting (congrArg List.tail h.active) _⟩
  offer := by
    rintro nesting stack s _ name e ⟨rfl, h⟩ - he
    exact ⟨rfl, h.nesting, h.active, h.types.assign name he false, h.returns, h.answered⟩
  sign := by
    rintro nesting stack s _ f ⟨rfl, h⟩ - -
    refine ⟨rfl, ?_⟩
    rw [outcome_writeSignature]
    cases hr : s.returns.get? f.name with
    | none => exact h
    | some e =>
      have he := Standard.meets_signatureOf h.types f (h.returns f.name e hr)
      exact ⟨h.nesting, h.active, h.types.assign f.name he true, h.returns, h.answered⟩

theorem upheld_start {std : Standard} {known : Knowledge} (htypes : std.Fills known.types)
    (hreturns : std.Fills known.returns) : Upheld std 0 [] (Session.start known) :=
  ⟨rfl, rfl, htypes, hreturns, fun _ => Standard.meetsSome_none⟩

/-- The session of a round does not depend on comments, nor on limits that typing cannot tell apart.
Nor does, with the session, how often the clock is read in it. -/
theorem roundSession_eq (left right : Scope) {region : Region left.graph} {root root' : Node}
    (cover : region.Covers root) (hlinks : Relator.BiUnique links)
    (hlimits : left.limits.Agrees right.limits)
    (hfunctions : List.Forall₂ (DeclaredFunction.Commented links) left.graph.functions
      right.graph.functions)
    (hsites : List.Forall₂ (CallSite.Commented links) left.graph.sites right.graph.sites)
    (h : root.Commented links root') (known : Knowledge) :
    roundSession left root known = roundSession right root' known := by
  have hfills : ∀ table, Standard.anything.Fills table := fun _ _ e _ => Standard.meets_anything e
  have hstart : Upheld .anything 0 [] (Session.start known) := upheld_start (hfills _) (hfills _)
  have hpairing : Pairing left right region links .anything _ :=
    pairing_upheld .anything hlinks hlimits hfunctions
  -- The pairing relates equal sessions only.
  exact (hpairing.session cover h hsites (fun _ _ _ _ e _ => Standard.meets_anything e) hfunctions
    _ _ ⟨rfl, hstart⟩).2.2.1

end Typing

/-! ## Runs -/

/-- What is known between rounds: at the start, after each of some rounds, and where a run of at
most so many rounds ends. -/
def Inference.stages (scope : Scope) (program : Place) (count : Nat) : List Knowledge :=
  initial program :: settle scope program count (initial program) ::
    (rounds scope program count (initial program)).map Prod.snd

namespace Standard

open Inference

/-- All that is known of a program meets the standard. -/
structure Upholds (std : Standard) (known : Knowledge) : Prop where
  types : std.Fills known.types
  returns : std.Fills known.returns

variable {std : Standard} [std.Signs] {known : Knowledge}

theorem upholds_initial (program : Place) : std.Upholds (initial program) :=
  ⟨fills_collect program.node, fills_empty⟩

theorem upholds_round (program : Place) (limits : Limits) (h : std.Upholds known) :
    std.Upholds (round ⟨CallGraph.ofProgram program, limits⟩ program known) := by
  let scope : Scope := ⟨CallGraph.ofProgram program, limits⟩
  have hstart : Upheld std 0 [] (Session.start known) := upheld_start h.types h.returns
  have hpairing : Pairing scope scope (Region.whole program) Eq std _ :=
    pairing_upheld std biUnique_eq (.refl _) scope.graph.functions_commented
  have hsession := hpairing.session_self (Region.covers_whole program program.node)
    (fun site hsite => meetsSome_argument hsite) _ _ ⟨rfl, hstart⟩
  have hend : Upheld std 0 [] (roundSession scope program.node known) := hsession.2.2.2
  exact ⟨fills_fold _ hend.types, hend.returns⟩

theorem upholds_rounds (program : Place) (limits : Limits) {count : Nat} (h : std.Upholds known) :
    ∀ entry ∈ rounds ⟨CallGraph.ofProgram program, limits⟩ program count known,
      std.Upholds entry.2 := by
  induction count generalizing limits known with
  | zero => nofun
  | succ count ih =>
    rw [rounds_succ]
    have hnext := upholds_round program limits h
    exact List.forall_mem_cons.2 ⟨hnext, ih _ hnext⟩

theorem upholds_settle (program : Place) (limits : Limits) (count : Nat) (h : std.Upholds known) :
    std.Upholds (settle ⟨CallGraph.ofProgram program, limits⟩ program count known) := by
  refine settle_invariant (P := std.Upholds) (fun limits known hknown => ?_) count h
  exact upholds_round program limits hknown

theorem upholds_stages (program : Place) (limits : Limits) (count : Nat) :
    ∀ known ∈ stages ⟨CallGraph.ofProgram program, limits⟩ program count, std.Upholds known := by
  have hstart : std.Upholds (initial program) := upholds_initial program
  have hsettled := upholds_settle program limits count hstart
  refine List.forall_mem_cons.2 ⟨hstart, List.forall_mem_cons.2 ⟨hsettled, fun known hknown => ?_⟩⟩
  obtain ⟨entry, hentry, rfl⟩ := List.mem_map.1 hknown
  exact upholds_rounds program limits hstart entry hentry

theorem fills_run (budget : Budget) (program : Place) : std.Fills (run budget program) :=
  (upholds_settle program budget.limits _ (upholds_initial program)).types

end Standard

end ScriptTypes
