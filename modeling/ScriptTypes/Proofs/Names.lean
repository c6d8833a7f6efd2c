import ScriptTypes.Proofs.Refinement
import ScriptTypes.Proofs.Serialization

/-!
# The names of a program

A round writes to the names that the program declares and to those whose uses are folded in, and to
no others. Uses are observed of names that are known already, so the names of a run are those that
were collected at its start.

* `Usage.get?_fold_eq`: folding uses in changes each name by its own uses.
* `get?_steps`: steps leave the names alone that are neither offered anything nor those of
  functions.
* `get?_resolve`: a round leaves the names alone that are neither collected nor used.
* `SameNames.round`: a round keeps the names that were collected.
-/

namespace ScriptTypes

/-! ## Uses -/

namespace Usage

theorem mem_names_observe {types : TypeMap} {usage : Usage} {place : Place} {name : String}
    (h : name ∈ (observe types usage place).names) : name ∈ usage.names ∨ name ∈ types.names := by
  unfold observe at h
  split at h
  · split at h
    · split at h
      · rename_i other tag _ _ hcontains
        rcases Table.mem_names_set.1 h with rfl | h
        · exact .inr (Table.contains_iff.1 hcontains)
        · exact .inl h
      · exact .inl h
    · exact .inl h
  · exact .inl h

theorem mem_names_foldl_observe {types : TypeMap} {places : List Place} {usage : Usage}
    {name : String} (h : name ∈ (places.foldl (observe types) usage).names) :
    name ∈ usage.names ∨ name ∈ types.names := by
  induction places generalizing usage with
  | nil => exact .inl h
  | cons place places ih =>
    rcases ih h with h | h
    · exact mem_names_observe h
    · exact .inr h

/-- Uses are observed of names that are known. -/
theorem mem_names_of_mem_ofProgram {root : Place} {types : TypeMap} {name : String}
    (h : name ∈ (ofProgram root types).names) : name ∈ types.names := by
  rcases mem_names_foldl_observe h with h | h
  · simp [Table.mem_names_iff] at h
  · exact h

/-- The uses that are observed depend on the names that are known, not on their types. -/
theorem ofProgram_congr (root : Place) {types others : TypeMap}
    (h : ∀ name, name ∈ types.names ↔ name ∈ others.names) :
    ofProgram root types = ofProgram root others := by
  have hcontains : ∀ name, types.contains name = others.contains name := fun name => by
    rw [Bool.eq_iff_iff, Table.contains_iff, Table.contains_iff, h]
  have hobserve : observe types = observe others := by
    funext usage place
    simp only [observe, hcontains]
  rw [ofProgram, ofProgram, hobserve]

theorem get?_foldName {types : TypeMap} {name other : String} (tags : List UsageTag)
    (h : name ≠ other) : (foldName types name tags).get? other = types.get? other := by
  unfold foldName
  dsimp only
  split
  · rfl
  · split
    · rw [TypeMap.get?_assign, if_neg h]
    · rfl

/-- What is held of a name after what its uses say was offered. -/
def withUses (tags : List UsageTag) (current : Option Estimate) : Option Estimate :=
  if current.any (fun e => Confidence.usageCeiling ≤ e.confidence) then current
  else
    match candidate? tags current with
    | some candidate => some (Estimate.merge current candidate false)
    | none => current

theorem get?_foldName_self (types : TypeMap) (name : String) (tags : List UsageTag) :
    (foldName types name tags).get? name = withUses tags (types.get? name) := by
  unfold foldName withUses
  dsimp only
  split
  · rfl
  · cases candidate? tags (types.get? name) with
    | none => rfl
    | some candidate => exact (TypeMap.get?_assign _ _ _ _ _).trans (if_pos rfl)

theorem get?_foldl_foldName {entries : Entries (List UsageTag)}
    (hnodup : (Entries.names entries).Nodup) (types : TypeMap) (name : String) :
    (entries.foldl (fun types entry => foldName types entry.1 entry.2) types).get? name =
      (entries.get? name).elim (types.get? name) (withUses · (types.get? name)) := by
  induction entries generalizing types with
  | nil => rfl
  | cons entry entries ih =>
    obtain ⟨key, tags⟩ := entry
    have hcons : key ∉ Entries.names entries ∧ (Entries.names entries).Nodup :=
      List.nodup_cons.1 hnodup
    rw [List.foldl_cons, ih hcons.2, Entries.get?]
    by_cases hk : key = name
    · subst hk
      have hnone : Entries.get? entries key = none := by
        refine Option.eq_none_iff_forall_not_mem.2 fun value hvalue => hcons.1 ?_
        exact Entries.mem_names_iff.2 ⟨value, hvalue⟩
      rw [hnone, if_pos rfl]
      exact get?_foldName_self types key tags
    · rw [if_neg hk, get?_foldName tags hk]

/-- Folding uses in changes each name by its own uses. -/
theorem get?_fold_eq (usage : Usage) (types : TypeMap) (name : String) :
    (usage.fold types).get? name =
      (usage.get? name).elim (types.get? name) (withUses · (types.get? name)) := by
  have hnodup : (Entries.names usage.sorted).Nodup :=
    ((Entries.sorted_perm usage.entries).map Prod.fst).nodup_iff.2 usage.nodup
  rw [fold, get?_foldl_foldName hnodup, Table.sorted, Entries.get?_sorted usage.nodup]
  rfl

/-- Folding uses in leaves the names alone that are not used. -/
theorem get?_fold {usage : Usage} {types : TypeMap} {name : String} (h : name ∉ usage.names) :
    (usage.fold types).get? name = types.get? name := by
  have hnone : usage.get? name = none := by
    refine Option.eq_none_iff_forall_not_mem.2 fun tags htags => h ?_
    exact Table.mem_names_iff.2 ⟨tags, htags⟩
  rw [get?_fold_eq, hnone]
  rfl

end Usage

/-! ## Frames -/

namespace Typing

variable {graph : CallGraph} {offered : String → Prop} {name : String}

theorem get?_step {s t : Session} (h : Step graph offered s t) (ho : ¬offered name)
    (hd : ∀ f ∈ graph.functions, f.name ≠ name) : t.types.get? name = s.types.get? name := by
  cases h with
  | offer e hother =>
    refine (TypeMap.get?_assign _ _ _ _ _).trans (if_neg ?_)
    rintro rfl
    exact ho hother
  | record e _ => rfl
  | sign hf _ => exact (TypeMap.get?_assign _ _ _ _ _).trans (if_neg (hd _ hf))
  | bookkeep stack nesting readings => rfl

theorem get?_steps {s t : Session} (h : Relation.ReflTransGen (Step graph offered) s t)
    (ho : ¬offered name) (hd : ∀ f ∈ graph.functions, f.name ≠ name) :
    t.types.get? name = s.types.get? name := by
  induction h with
  | refl => rfl
  | tail _ hstep ih => exact (get?_step hstep ho hd).trans ih

/-- A round leaves the names alone that the program does not declare and that are not used. -/
theorem get?_resolve (program : Place) (limits : Limits) (usage : Usage) (known : Knowledge)
    (ho : ¬(Region.declared program).offered name)
    (hd : ∀ f ∈ (CallGraph.ofProgram program).functions, f.name ≠ name) (hu : name ∉ usage.names) :
    (resolve ⟨CallGraph.ofProgram program, limits⟩ program.node usage known).types.get? name =
      known.types.get? name := by
  rw [types_resolve, Usage.get?_fold hu]
  exact get?_steps (steps_roundSession (Region.covers_declared program) known) ho hd

end Typing

/-! ## Whole trees -/

namespace Inference

open Typing

/-- A map knows the names that are collected in a tree, and no others. -/
def SameNames (root : Node) (types : TypeMap) : Prop :=
  ∀ name, name ∈ types.names ↔ name ∈ (TypeMap.collect root).names

variable {root : Node} {limits : Limits} {known : Knowledge}

/-- Without blank names a round keeps the names: those that are there stay, and no others come. -/
theorem SameNames.round (hblank : ¬HasBlankName root) (h : SameNames root known.types) :
    SameNames root
      (Inference.round ⟨CallGraph.ofProgram ⟨root, []⟩, limits⟩ ⟨root, []⟩ known).types := by
  intro name
  constructor
  · intro hname
    refine Decidable.byContradiction fun hcollect => ?_
    have hunknown : name ∉ known.types.names := fun hmem => hcollect ((h name).1 hmem)
    have hoffered : ¬(Region.declared ⟨root, []⟩).offered name :=
      not_or.2 ⟨hcollect, fun hb => hblank hb.2⟩
    have hfunctions : ∀ f ∈ (CallGraph.ofProgram ⟨root, []⟩).functions, f.name ≠ name :=
      fun f hf heq => hcollect (heq ▸ TypeMap.mem_collect_of_function hf)
    have husage : name ∉ (Usage.ofProgram ⟨root, []⟩ known.types).names :=
      fun hmem => hunknown (Usage.mem_names_of_mem_ofProgram hmem)
    have hframe := get?_resolve ⟨root, []⟩ limits _ known hoffered hfunctions husage
    rw [Table.mem_names_iff] at hname hunknown
    exact hunknown (hframe ▸ hname)
  · intro hname
    obtain ⟨old, hold⟩ := Table.mem_names_iff.1 ((h name).2 hname)
    obtain ⟨new, hnew, -⟩ := refines_resolve ⟨root, []⟩ limits root _ known name old hold
    exact Table.mem_names_iff.2 ⟨new, hnew⟩

theorem SameNames.settle (hblank : ¬HasBlankName root) (count : Nat)
    (h : SameNames root known.types) :
    SameNames root
      (Inference.settle ⟨CallGraph.ofProgram ⟨root, []⟩, limits⟩ ⟨root, []⟩ count known).types := by
  refine settle_invariant (P := fun later => SameNames root later.types)
    (fun limits known hnames => ?_) count h
  exact hnames.round hblank

/-- In each of some rounds the uses are those of the first, and the names are those that were
collected. -/
theorem SameNames.rounds (hblank : ¬HasBlankName root) {count : Nat}
    (h : SameNames root known.types) :
    ∀ entry ∈ Inference.rounds ⟨CallGraph.ofProgram ⟨root, []⟩, limits⟩ ⟨root, []⟩ count known,
      entry.1 = Usage.ofProgram ⟨root, []⟩ (TypeMap.collect root) ∧
        SameNames root entry.2.types := by
  induction count generalizing limits known with
  | zero => simp [Inference.rounds]
  | succ count ih =>
    rintro entry hentry
    rw [rounds_succ, List.mem_cons] at hentry
    rcases hentry with rfl | hentry
    · exact ⟨Usage.ofProgram_congr _ h, h.round hblank⟩
    · exact ih (h.round hblank) entry hentry

/-- A round on a whole tree leaves a name alone that is not blank, not collected and not used. In a
tree without blank names the names are those that were collected and the uses are those of the
first round, in each of any number of rounds, however many of them a run makes, and in its
answer. -/
theorem names_closed (root : Node) :
    let program : Place := ⟨root, []⟩
    let graph := CallGraph.ofProgram program
    let collected := TypeMap.collect root
    (∀ (budget : Budget) (known : Knowledge) (usage : Usage) (name : String), name ≠ "" →
      name ∉ collected.names → name ∉ usage.names →
        (resolve ⟨graph, budget.limits⟩ root usage known).types.get? name =
          known.types.get? name) ∧
    ((∀ n ∈ root.preorder, n.kind = .identifier ∨ n.kind = .shorthandPattern → n.text ≠ some "") →
      ∀ budget : Budget,
        (∀ count, ∀ entry ∈ rounds ⟨graph, budget.limits⟩ program count (initial program),
          entry.1 = Usage.ofProgram program collected ∧
            ∀ name, name ∈ entry.2.types.names ↔ name ∈ collected.names) ∧
        (∀ count,
          let known := settle ⟨graph, budget.limits⟩ program count (initial program)
          Usage.ofProgram program known.types = Usage.ofProgram program collected ∧
            ∀ name, name ∈ known.types.names ↔ name ∈ collected.names) ∧
        ∀ name, name ∈ (run budget program).names ↔ name ∈ collected.names) := by
  refine ⟨fun budget known usage name hname hcollect husage => ?_, fun hnames budget => ?_⟩
  · refine get?_resolve ⟨root, []⟩ budget.limits usage known ?_ ?_ husage
    · exact not_or.2 ⟨hcollect, fun hblank => hname hblank.1⟩
    · exact fun f hf heq => hcollect (heq ▸ TypeMap.mem_collect_of_function hf)
  · have hblank : ¬HasBlankName root := fun ⟨n, hn, hk, htext⟩ => hnames n hn hk htext
    have hstart : SameNames root (initial ⟨root, []⟩).types := fun _ => Iff.rfl
    refine ⟨fun count => hstart.rounds hblank, fun count => ?_, hstart.settle hblank _⟩
    exact ⟨Usage.ofProgram_congr _ (hstart.settle hblank count), hstart.settle hblank count⟩

/-- The tree of `{ a } = b` in a declaration. -/
def unpacking : Node :=
  ⟨0, .variableDeclarator, none, true, some "{ a } = b",
    [⟨1, .objectPattern, some .name, true, some "{ a }",
        [⟨2, .shorthandPattern, none, true, some "a", []⟩]⟩,
      ⟨3, .identifier, some .value, true, some "b", []⟩]⟩

/-- Where a name is bound by a pattern and another is used without being declared, the rounds know
the former and leave the latter alone. -/
theorem names_closed_unpacking :
    ("b" ≠ "" ∧ "b" ∉ (TypeMap.collect unpacking).names ∧
      "b" ∉ (Table.empty : Usage).names ∧
      ∀ (budget : Budget) (known : Knowledge),
        (resolve ⟨CallGraph.ofProgram ⟨unpacking, []⟩, budget.limits⟩ unpacking .empty
          known).types.get? "b" = known.types.get? "b") ∧
    (∀ n ∈ unpacking.preorder,
      n.kind = .identifier ∨ n.kind = .shorthandPattern → n.text ≠ some "") ∧
    ∀ (budget : Budget) name, name ∈ (run budget ⟨unpacking, []⟩).names ↔
      name ∈ (TypeMap.collect unpacking).names := by
  have hb : "b" ∉ (TypeMap.collect unpacking).names := by decide +kernel
  have hempty : "b" ∉ (Table.empty : Usage).names := by decide
  have hnames : ∀ n ∈ unpacking.preorder,
      n.kind = .identifier ∨ n.kind = .shorthandPattern → n.text ≠ some "" := by decide
  refine ⟨⟨by decide, hb, hempty, fun budget known => ?_⟩, hnames, fun budget => ?_⟩
  · exact (names_closed unpacking).1 budget known .empty "b" (by decide) hb hempty
  · exact ((names_closed unpacking).2 hnames budget).2.2

end Inference

end ScriptTypes
