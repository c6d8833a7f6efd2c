import Mathlib.Data.List.Forall2
import ScriptTypes.Proofs.Positivity
import ScriptTypes.Proofs.Program

/-!
# What is collected

The map that is collected from a program is told by the list of its seeds: each name has the
earliest of its seeds that are held with the greatest confidence. A name without confidence was
declared and nothing more, since structural typing always has some confidence in its answer.

* `Node.Plants`, `Node.PlantsInOrder`: the seeds of a node and of a program, form by form.
* `Seed.Wins`: the earliest seed of a name with the greatest confidence.
* `TypeMap.collect_winners`: what is collected are the seeds that win.
-/

namespace ScriptTypes

/-! ## The list of the seeds -/

/-- The seeds of a parameter: nothing is known of a name, a default value is typed, a rest parameter
is an array, and a pattern declares the names that it binds. -/
inductive Param.Plants : Param → List Seed → Prop
  | name {name : String} : Plants ⟨some name, false, none, none⟩ [(name, .of .any .zero)]
  | default {name : String} {value : Node} : Plants ⟨some name, false, some value, none⟩
      [(name, .of .any .zero), (name, Typing.structural value)]
  | rest {name : String} :
    Plants ⟨some name, true, none, none⟩ [(name, .of (.array .any) (.percent 80))]
  | pattern {isRest : Bool} {default : Option Node} {pattern : Node} :
    Plants ⟨none, isRest, default, some pattern⟩
      (pattern.bindings.map fun binding => (binding.name, .of .any .zero))
  | nothing {isRest : Bool} {default : Option Node} : Plants ⟨none, isRest, default, none⟩ []

/-- The seeds of a node: of a variable its floor and then its value, of a pattern the floors of the
names that it binds, of a function its placeholder, if it is declared with a name, and then its
parameters one by one. -/
inductive Node.Plants (n : Node) : List Seed → Prop
  | unset {target : Node} {name : String} : n.kind = .variableDeclarator →
    n.child? .name = some target → target.kind.isDestructuring = false → target.text = some name →
    n.child? .value = none → Plants n [(name, .of .any .zero)]
  | set {target value : Node} {name : String} : n.kind = .variableDeclarator →
    n.child? .name = some target → target.kind.isDestructuring = false → target.text = some name →
    n.child? .value = some value →
    Plants n [(name, .of .any .zero), (name, Typing.structural value)]
  | textless {target : Node} : n.kind = .variableDeclarator → n.child? .name = some target →
    target.kind.isDestructuring = false → target.text = none → Plants n []
  | destructured {target : Node} : n.kind = .variableDeclarator → n.child? .name = some target →
    target.kind.isDestructuring = true →
    Plants n (target.bindings.map fun binding => (binding.name, .of .any .zero))
  | targetless : n.kind = .variableDeclarator → n.child? .name = none → Plants n []
  | declaration {name : String} {parts : List (List Seed)} :
    n.kind.isFunctionDeclaration = true → (n.child? .name).bind (·.text) = some name →
    List.Forall₂ Param.Plants n.params parts →
    Plants n ((name, .of (.fn [] .any (some (.array .any))) (.percent 70)) :: parts.flatten)
  | nameless {parts : List (List Seed)} :
    n.kind.isFunctionDeclaration = true → (n.child? .name).bind (·.text) = none →
    List.Forall₂ Param.Plants n.params parts → Plants n parts.flatten
  | literal {parts : List (List Seed)} :
    n.kind.isFunctionLiteral = true ∨ n.kind = .methodDefinition →
    List.Forall₂ Param.Plants n.params parts → Plants n parts.flatten
  | other : n.kind ≠ .variableDeclarator → n.kind.isFunction = false →
    n.kind ≠ .methodDefinition → Plants n []

/-- The seeds of a program, in the order of its nodes. -/
def Node.PlantsInOrder (root : Node) (seeds : List Seed) : Prop :=
  ∃ parts, List.Forall₂ Node.Plants root.preorder parts ∧ seeds = parts.flatten

/-- Lists that a relation gives one by one, put together. -/
theorem exists_forall₂_flatten_iff {α β : Type} {R : α → List β → Prop} {f : α → List β}
    {as : List α} {bs : List β} (h : ∀ a ∈ as, ∀ part, R a part ↔ part = f a) :
    (∃ parts, List.Forall₂ R as parts ∧ bs = parts.flatten) ↔ bs = as.flatMap f := by
  constructor
  · rintro ⟨parts, hparts, rfl⟩
    induction hparts with
    | nil => rfl
    | cons hfirst _ ih =>
      obtain ⟨ha, has⟩ := List.forall_mem_cons.1 h
      rw [List.flatten_cons, List.flatMap_cons, (ha _).1 hfirst, ih has]
  · intro hbs
    refine ⟨as.map f, List.forall₂_map_right_iff.2 (List.forall₂_same.2 fun a ha => ?_), hbs⟩
    exact (h a ha _).2 rfl

/-- A parameter without a name has the seeds of its pattern, whatever else it has. -/
theorem Seed.ofParam_nameless (isRest : Bool) (default pattern : Option Node) :
    ofParam ⟨none, isRest, default, pattern⟩ = ofPattern pattern := by
  cases isRest <;> cases default <;> simp [ofParam, forName, ofValue]

theorem Param.Plants.eq_ofParam {p : Param} {seeds : List Seed} (h : p.Plants seeds) :
    seeds = Seed.ofParam p := by
  cases h with
  | name | default | rest => rfl
  | pattern | nothing =>
    rw [Seed.ofParam_nameless]
    rfl

theorem Param.exists_plants (n : Node) : ∃ seeds, (ofNode n).Plants seeds := by
  unfold ofNode
  dsimp only
  split
  · cases n.text with
    | none => exact ⟨_, .nothing⟩
    | some name => exact ⟨_, .name⟩
  · split
    · cases n.child? .right with
      | none => exact ⟨_, .name⟩
      | some value => exact ⟨_, .default⟩
    · cases n.child? .left with
      | none => exact ⟨_, .nothing⟩
      | some target => exact ⟨_, .pattern⟩
  · split
    · exact ⟨_, .rest⟩
    · cases n.operand? with
      | none => exact ⟨_, .nothing⟩
      | some target => exact ⟨_, .pattern⟩
  · exact ⟨_, .pattern⟩

variable {root n : Node} {seeds : List Seed}

theorem Node.forall₂_params_iff :
    (∃ parts, List.Forall₂ Param.Plants n.params parts ∧ seeds = parts.flatten) ↔
      seeds = n.params.flatMap Seed.ofParam := by
  refine exists_forall₂_flatten_iff fun p hp part => ⟨Param.Plants.eq_ofParam, ?_⟩
  rintro rfl
  obtain ⟨m, -, rfl⟩ := List.mem_map.1 hp
  obtain ⟨seeds, hseeds⟩ := Param.exists_plants m
  exact hseeds.eq_ofParam ▸ hseeds

/-- A function that is not declared with a name of its own has the seeds of its parameters. -/
theorem Seed.ofFunction_nameless
    (h : n.kind.isFunctionDeclaration = true → (n.child? .name).bind (·.text) = none) :
    ofFunction n = n.params.flatMap ofParam := by
  unfold ofFunction
  split
  · rename_i hk
    rw [h hk]
    rfl
  · rfl

theorem Node.Plants.eq_ofNode (h : n.Plants seeds) : seeds = Seed.ofNode n := by
  have hparams {parts} (h : List.Forall₂ Param.Plants n.params parts) :
      parts.flatten = n.params.flatMap Seed.ofParam :=
    forall₂_params_iff.1 ⟨parts, h, rfl⟩
  cases h with
  | unset hk ht hd hname hvalue | set hk ht hd hname hvalue =>
    rw [Seed.ofNode_declarator hk, Seed.ofDeclarator, ht]
    simp only [hd, hname, hvalue]
    rfl
  | textless hk ht hd hname =>
    rw [Seed.ofNode_declarator hk, Seed.ofDeclarator, ht]
    cases hvalue : n.child? .value <;> simp [hd, hname, Seed.ofValue, Seed.forName]
  | destructured hk ht hd =>
    rw [Seed.ofNode_declarator hk, Seed.ofDeclarator, ht]
    simp only [hd]
    rfl
  | targetless hk ht => rw [Seed.ofNode_declarator hk, Seed.ofDeclarator, ht]
  | declaration hk hname hparts =>
    rw [Seed.ofNode_function (.inl (by simp [Kind.isFunction, hk])), Seed.ofFunction, if_pos hk,
      hname, hparams hparts]
    rfl
  | nameless hk hname hparts =>
    rw [Seed.ofNode_function (.inl (by simp [Kind.isFunction, hk])),
      Seed.ofFunction_nameless fun _ => hname, hparams hparts]
  | literal hk hparts =>
    have hliteral : n.kind.isFunctionDeclaration = false := by
      rcases hk with hk | hk
      · cases h : n.kind <;> simp [h, Kind.isFunctionLiteral, Kind.isFunctionDeclaration] at hk ⊢
      · rw [hk]
        rfl
    rw [Seed.ofNode_function (hk.imp_left fun hk => by simp [Kind.isFunction, hk]),
      Seed.ofFunction_nameless fun h => by simp [hliteral] at h, hparams hparts]
  | other hdeclarator hfunction hmethod => simp [Seed.ofNode, hdeclarator, hfunction, hmethod]

theorem Node.exists_plants (n : Node) : ∃ seeds, n.Plants seeds := by
  obtain ⟨parts, hparts, -⟩ := (forall₂_params_iff (n := n)).2 rfl
  by_cases hdeclarator : n.kind = .variableDeclarator
  · cases ht : n.child? .name with
    | none => exact ⟨_, .targetless hdeclarator ht⟩
    | some target =>
      cases hd : target.kind.isDestructuring with
      | true => exact ⟨_, .destructured hdeclarator ht hd⟩
      | false =>
        cases hname : target.text with
        | none => exact ⟨_, .textless hdeclarator ht hd hname⟩
        | some name =>
          cases hvalue : n.child? .value with
          | none => exact ⟨_, .unset hdeclarator ht hd hname hvalue⟩
          | some value => exact ⟨_, .set hdeclarator ht hd hname hvalue⟩
  · by_cases hliteral : n.kind.isFunctionLiteral = true ∨ n.kind = .methodDefinition
    · exact ⟨_, .literal hliteral hparts⟩
    · rw [not_or, Bool.not_eq_true] at hliteral
      cases hdeclaration : n.kind.isFunctionDeclaration with
      | true =>
        cases hname : (n.child? .name).bind (·.text) with
        | none => exact ⟨_, .nameless hdeclaration hname hparts⟩
        | some name => exact ⟨_, .declaration hdeclaration hname hparts⟩
      | false =>
        have hfunction : n.kind.isFunction = false := by
          simp [Kind.isFunction, hliteral.1, hdeclaration]
        exact ⟨_, .other hdeclarator hfunction hliteral.2⟩

/-- The list of the seeds of a program, form by form, is the one that is planted. -/
theorem Node.plantsInOrder_iff : root.PlantsInOrder seeds ↔ seeds = Seed.ofProgram root := by
  refine exists_forall₂_flatten_iff fun n _ part => ⟨Node.Plants.eq_ofNode, ?_⟩
  rintro rfl
  obtain ⟨seeds, hseeds⟩ := Node.exists_plants n
  exact hseeds.eq_ofNode ▸ hseeds

/-! ## Floors -/

theorem forall_mem_flatten_of_forall₂ {α β : Type} {R : α → List β → Prop} {P : β → Prop}
    (hR : ∀ {a part}, R a part → ∀ b ∈ part, P b) {as : List α} {parts : List (List β)}
    (h : List.Forall₂ R as parts) : ∀ b ∈ parts.flatten, P b := by
  induction h with
  | nil => simp
  | cons hfirst _ ih =>
    rw [List.flatten_cons]
    exact List.forall_mem_append.2 ⟨hR hfirst, ih⟩

theorem Param.Plants.floor_or_pos {p : Param} (h : p.Plants seeds) :
    ∀ seed ∈ seeds, seed.2 = .of .any .zero ∨ .zero < seed.2.confidence := by
  cases h with
  | name => simp
  | default =>
    simp only [List.forall_mem_cons, true_or, true_and]
    exact ⟨.inr (Typing.structuralWithin_pos _ _), nofun⟩
  | rest =>
    simp only [List.forall_mem_cons]
    exact ⟨.inr (Confidence.percent_pos (by decide)), nofun⟩
  | pattern => simp
  | nothing => simp

theorem Node.Plants.floor_or_pos (h : n.Plants seeds) :
    ∀ seed ∈ seeds, seed.2 = .of .any .zero ∨ .zero < seed.2.confidence := by
  have hparams {parts} (hparts : List.Forall₂ Param.Plants n.params parts) :
      ∀ seed ∈ parts.flatten, seed.2 = .of .any .zero ∨ .zero < seed.2.confidence :=
    forall_mem_flatten_of_forall₂ Param.Plants.floor_or_pos hparts
  cases h with
  | unset | destructured => simp
  | set =>
    simp only [List.forall_mem_cons, true_or, true_and]
    exact ⟨.inr (Typing.structuralWithin_pos _ _), nofun⟩
  | declaration _ _ hparts =>
    exact List.forall_mem_cons.2 ⟨.inr (Confidence.percent_pos (by decide)), hparams hparts⟩
  | nameless _ _ hparts | literal _ hparts => exact hparams hparts
  | textless | targetless | other => simp

/-- A seed is a floor, or it is held with some confidence. -/
theorem Node.PlantsInOrder.floor_or_pos (h : root.PlantsInOrder seeds) :
    ∀ seed ∈ seeds, seed.2 = .of .any .zero ∨ .zero < seed.2.confidence := by
  obtain ⟨parts, hparts, rfl⟩ := h
  exact forall_mem_flatten_of_forall₂ Node.Plants.floor_or_pos hparts

/-! ## The seeds that win -/

namespace Seed

/-- The earliest of the seeds of a name that are held with the greatest confidence: those before it
are held with less, and those after it with no more. -/
def Wins (seeds : List Seed) (name : String) (e : Estimate) : Prop :=
  ∃ before after, seeds = before ++ (name, e) :: after ∧
    (∀ d, (name, d) ∈ before → d.confidence < e.confidence) ∧
    ∀ d, (name, d) ∈ after → d.confidence ≤ e.confidence

variable {name : String} {d e : Estimate}

theorem Wins.mem (h : Wins seeds name e) : (name, e) ∈ seeds := by
  obtain ⟨before, after, rfl, -⟩ := h
  simp

theorem Wins.le (h : Wins seeds name e) (hd : (name, d) ∈ seeds) :
    d.confidence ≤ e.confidence := by
  obtain ⟨before, after, rfl, hbefore, hafter⟩ := h
  rcases List.mem_append.1 hd with hd | hd
  · exact le_of_lt (hbefore d hd)
  · rcases List.mem_cons.1 hd with heq | hd
    · rw [(Prod.mk.inj heq).2]
    · exact hafter d hd

/-- Only one seed of a name wins. -/
theorem Wins.unique (h : Wins seeds name e) (h' : Wins seeds name d) : e = d := by
  obtain ⟨before, after, rfl, hbefore, hafter⟩ := h
  obtain ⟨before', after', hsplit, hbefore', hafter'⟩ := h'
  -- The one that stands earlier would be both below the other and not below it.
  rcases List.append_eq_append_iff.1 hsplit with ⟨between, rfl, hrest⟩ | ⟨between, rfl, hrest⟩
  · cases between with
    | nil => simpa using (List.cons.inj hrest).1
    | cons first between =>
      obtain ⟨rfl, rfl⟩ := List.cons.inj hrest
      exact absurd (hafter d (by simp)) (not_le_of_gt (hbefore' e (by simp)))
  · cases between with
    | nil => simpa using (List.cons.inj hrest).1.symm
    | cons first between =>
      obtain ⟨rfl, rfl⟩ := List.cons.inj hrest
      exact absurd (hafter' e (by simp)) (not_le_of_gt (hbefore d (by simp)))

/-- One more seed, for another name or held with no more confidence. -/
theorem Wins.concat {seed : Seed} (h : Wins seeds name e)
    (hseed : seed.1 = name → seed.2.confidence ≤ e.confidence) : Wins (seeds ++ [seed]) name e := by
  obtain ⟨before, after, rfl, hbefore, hafter⟩ := h
  refine ⟨before, after ++ [seed], by simp, hbefore, fun d hd => ?_⟩
  rcases List.mem_append.1 hd with hd | hd
  · exact hafter d hd
  · obtain rfl := List.mem_singleton.1 hd
    exact hseed rfl

end Seed

namespace TypeMap

open Seed

variable {name : String} {d e : Estimate}

theorem plant_concat (types : TypeMap) (seeds : List Seed) (seed : Seed) :
    types.plant (seeds ++ [seed]) = (types.plant seeds).assign seed.1 seed.2 false := by
  rw [plant, List.foldl_append]
  rfl

theorem exists_get?_plant_iff :
    (∃ e, (plant .empty seeds).get? name = some e) ↔ ∃ e, (name, e) ∈ seeds := by
  have hempty : name ∉ (Table.empty : TypeMap).names := by simp [Table.mem_names_iff]
  rw [← Table.mem_names_iff, mem_names_plant, or_iff_right hempty]
  constructor
  · rintro ⟨⟨_, e⟩, hseed, rfl⟩
    exact ⟨e, hseed⟩
  · rintro ⟨e, hseed⟩
    exact ⟨_, hseed, rfl⟩

/-- What is held for a name after planting is the seed that wins. By induction on the seeds, the
last one taken off. -/
theorem wins_of_get?_plant (h : (plant .empty seeds).get? name = some e) :
    Wins seeds name e := by
  induction seeds using List.reverseRecOn generalizing e with
  | nil => cases h
  | append_singleton seeds seed ih =>
    obtain ⟨other, new⟩ := seed
    rw [plant_concat, get?_assign] at h
    split at h
    · rename_i hname
      obtain rfl : other = name := hname
      cases hold : (plant .empty seeds).get? other with
      | none =>
        rw [hold] at h
        obtain rfl : new = e := Option.some.inj h
        refine ⟨seeds, [], rfl, fun d hd => ?_, nofun⟩
        obtain ⟨held, hheld⟩ := exists_get?_plant_iff.2 ⟨d, hd⟩
        rw [hold] at hheld
        cases hheld
      | some old =>
        have hwins := ih hold
        rw [hold] at h
        by_cases hlt : old.confidence < new.confidence
        · obtain rfl : new = e := by simpa [Estimate.merge, Estimate.supersedes, hlt] using h
          exact ⟨seeds, [], rfl, fun d hd => lt_of_le_of_lt (hwins.le hd) hlt, nofun⟩
        · obtain rfl : old = e := by simpa [Estimate.merge, Estimate.supersedes, hlt] using h
          exact hwins.concat fun _ => not_lt.1 hlt
    · exact (ih h).concat fun hname => absurd hname ‹_›

theorem get?_plant_eq_some_iff :
    (plant .empty seeds).get? name = some e ↔ Wins seeds name e := by
  refine ⟨wins_of_get?_plant, fun hwins => ?_⟩
  obtain ⟨held, hheld⟩ := exists_get?_plant_iff.2 ⟨e, hwins.mem⟩
  rw [hheld, hwins.unique (wins_of_get?_plant hheld)]

/-- Each name that is collected has the earliest of its seeds that are held with the greatest
confidence, and it has no confidence if and only if all of them are floors. Structural typing has
some confidence in each of its answers. -/
theorem collect_winners (root : Node) :
    (∃ seeds, (∀ listed, root.PlantsInOrder listed ↔ listed = seeds) ∧
      (∀ name, name ∈ (collect root).names ↔ ∃ e, (name, e) ∈ seeds) ∧
      (∀ name e, (collect root).get? name = some e ↔ Wins seeds name e) ∧
      ∀ name e, (collect root).get? name = some e →
        (e.confidence = .zero ↔ ∀ d, (name, d) ∈ seeds → d = .of .any .zero) ∧
        (e.confidence = .zero → e.type = .any)) ∧
    ∀ room n, .zero < (Typing.structuralWithin room n).run.confidence := by
  refine ⟨⟨Seed.ofProgram root, fun listed => Node.plantsInOrder_iff, fun name => ?_,
    fun name e => get?_plant_eq_some_iff, fun name e he => ?_⟩, Typing.structuralWithin_pos⟩
  · rw [Table.mem_names_iff]
    exact exists_get?_plant_iff
  · have hwins : Wins (Seed.ofProgram root) name e := get?_plant_eq_some_iff.1 he
    have hfloor : ∀ d, (name, d) ∈ Seed.ofProgram root → d.confidence = .zero →
        d = .of .any .zero := by
      intro d hd hzero
      refine ((Node.plantsInOrder_iff.2 rfl).floor_or_pos _ hd).resolve_right fun hpos => ?_
      rw [hzero] at hpos
      exact lt_irrefl _ hpos
    refine ⟨⟨fun hzero d hd => hfloor d hd ?_, fun hall => ?_⟩, fun hzero => ?_⟩
    · exact le_antisymm (hzero ▸ hwins.le hd) (Nat.zero_le _)
    · rw [hall e hwins.mem]
    · rw [hfloor e hwins.mem hzero]

end TypeMap

end ScriptTypes
