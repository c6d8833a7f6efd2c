import ScriptTypes.Proofs.Lockstep.Basic
import ScriptTypes.Resolution

/-!
# Taking values apart

A name in an object pattern is offered what going from property to property along its keys gives.
Accesses to members go the same way from the outside in, so a chain of them is typed as the name
would be that a pattern takes out along the same keys.

* `bindIn_eq`, `bindFirst_eq`, `bindValue_eq`, `bindRest_eq`: which child is bound.
* `bindMembers_append`: the members of a pattern are bound one after the other.
* `Node.Reaches`: the names of a pattern, with the way that leads to them through pairs.
* `Node.Accesses`: chains of accesses to members.
* `destructure_along`: what a name is offered, between what stands before it and after it.
* `outcome_accesses`: what a chain of accesses is typed as.
* `destructuring_follows_members`: both, along the same keys.
-/

namespace ScriptTypes

/-! ## Ways into a pattern -/

/-- A turn on the way into an object pattern: the children before the member that the way leads
through, the key of that member, and the children after it. -/
structure Turn where
  before : List Node
  key : String
  after : List Node

namespace Node

/-- An object pattern takes a property of a value apart along a target: one of its members is a pair
of the key and the target. -/
inductive Pairs (pattern : Node) (turn : Turn) (target : Node) : Prop
  | mk {member : Node} (kind : pattern.kind = .objectPattern)
    (children : pattern.children = turn.before ++ member :: turn.after)
    (isOperand : member.isOperand = true) (isPair : member.kind = .pairPattern)
    (key : (member.child? .key).bind propertyKey? = some turn.key)
    (value : member.child? .value = some target)

theorem Pairs.kind {pattern target : Node} {turn : Turn} (h : pattern.Pairs turn target) :
    pattern.kind = .objectPattern := by
  cases h
  assumption

/-- A way through the pairs of nested object patterns that ends at a name: a member that is a name
and its own key, or the value of a pair, without a default. -/
inductive Reaches : Node → List Turn → Node → Prop
  | shorthand {pattern name : Node} {turn : Turn} (kind : pattern.kind = .objectPattern)
    (children : pattern.children = turn.before ++ name :: turn.after)
    (isOperand : name.isOperand = true) (isName : name.kind = .shorthandPattern)
    (key : name.text = some turn.key) : Reaches pattern [turn] name
  | value {pattern name : Node} {turn : Turn} (pair : pattern.Pairs turn name)
    (isName : name.kind = .identifier ∨ name.kind = .shorthandPattern) :
    Reaches pattern [turn] name
  | nested {pattern inner name : Node} {turn : Turn} {turns : List Turn}
    (pair : pattern.Pairs turn inner) (rest : Reaches inner turns name) :
    Reaches pattern (turn :: turns) name

theorem Reaches.kind {pattern name : Node} {turns : List Turn} (h : pattern.Reaches turns name) :
    pattern.kind = .objectPattern := by
  cases h with
  | shorthand hk => exact hk
  | value hpair => exact hpair.kind
  | nested hpair => exact hpair.kind

theorem Reaches.isName {pattern name : Node} {turns : List Turn} (h : pattern.Reaches turns name) :
    name.kind = .identifier ∨ name.kind = .shorthandPattern := by
  induction h with
  | shorthand _ _ _ hname => exact .inr hname
  | value _ hname => exact hname
  | nested _ _ ih => exact ih

/-- An access to a member of an object, not through an optional chain. -/
structure AccessesMember (n object : Node) (key : String) : Prop where
  kind : n.kind = .memberExpression
  required : n.isOptional = false
  object : n.child? .object = some object
  key : n.memberName? = some key

/-- A chain of accesses to members that starts at a base. The first one is none to a constant of a
known namespace. -/
inductive Accesses (base : Node) : List String → Node → Prop
  | first {n : Node} {key : String} (access : n.AccessesMember base key)
    (noConstant : Typing.staticProperty? n = none) : Accesses base [key] n
  | next {object n : Node} {keys : List String} {key : String} (rest : Accesses base keys object)
    (access : n.AccessesMember object key) : Accesses base (keys ++ [key]) n

end Node

namespace Typing

section

variable (scope : Scope)

/-! ## Which child is bound -/

theorem bindIn_eq (field : Field) (offered : Option Estimate) (nodes : List Node) :
    bindIn scope field offered nodes =
      (nodes.find? (·.field = some field)).elim (pure ()) (bindTarget scope · offered) := by
  induction nodes with
  | nil => rfl
  | cons node nodes ih => by_cases h : node.field = some field <;> simp [bindIn, h, ih]

theorem bindFirst_eq (offered : Option Estimate) (nodes : List Node) :
    bindFirst scope offered nodes =
      (nodes.find? Node.isOperand).elim (pure ()) (bindTarget scope · offered) := by
  induction nodes with
  | nil => rfl
  | cons node nodes ih => by_cases h : node.isOperand = true <;> simp [bindFirst, h, ih]

theorem bindValue_eq (offered : Option Estimate) (node : Node) :
    bindValue scope offered node =
      (node.child? .value).elim (pure ()) (bindTarget scope · offered) := by
  obtain ⟨_, _, _, _, _, children⟩ := node
  rw [bindValue, bindIn_eq]
  rfl

theorem bindRest_eq (offered : Option Estimate) (node : Node) :
    bindRest scope offered node = node.operand?.elim (pure ()) (bindTarget scope · offered) := by
  obtain ⟨_, _, _, _, _, children⟩ := node
  rw [bindRest, bindFirst_eq]
  rfl

theorem bindMembers_cons (source : Estimate) (node : Node) (nodes : List Node) :
    bindMembers scope source (node :: nodes) = (do
      bindMembers scope source [node]
      bindMembers scope source nodes) := by
  simp only [bindMembers]
  by_cases ho : node.isOperand = true
  · simp only [ho, if_true]
    split
    · split <;> simp
    · split <;> simp
    · split <;> simp
    · simp
    · simp
  · simp [ho]

/-- The members of a pattern are bound one after the other. -/
theorem bindMembers_append (source : Estimate) (nodes others : List Node) :
    bindMembers scope source (nodes ++ others) = (do
      bindMembers scope source nodes
      bindMembers scope source others) := by
  induction nodes with
  | nil => simp [bindMembers]
  | cons node nodes ih =>
    rw [List.cons_append, bindMembers_cons, bindMembers_cons scope source node nodes, ih,
      bind_assoc]

theorem bindMembers_singleton_pair (source : Estimate) {member target : Node} {key : String}
    (ho : member.isOperand = true) (hk : member.kind = .pairPattern)
    (hkey : (member.child? .key).bind Node.propertyKey? = some key)
    (hvalue : member.child? .value = some target) :
    bindMembers scope source [member] = bindTarget scope target (Member.property? source key) := by
  simp [bindMembers, ho, hk, hkey, bindValue_eq, hvalue]

theorem bindMembers_singleton_shorthand (source : Estimate) {member : Node} {key : String}
    (ho : member.isOperand = true) (hk : member.kind = .shorthandPattern)
    (hkey : member.text = some key) :
    bindMembers scope source [member] = bindTarget scope member (Member.property? source key) := by
  simp [bindMembers, ho, hk, hkey]

/-- A name is offered an estimate. -/
theorem bindTarget_name {node : Node} {name : String}
    (hk : node.kind = .identifier ∨ node.kind = .shorthandPattern) (htext : node.text = some name)
    (estimate : Estimate) : bindTarget scope node (some estimate) = assign name estimate false := by
  obtain ⟨_, kind, _, _, text, _⟩ := node
  obtain rfl : text = some name := htext
  rcases hk with rfl | rfl <;> simp [bindTarget]

/-- A name that is offered nothing is left alone. -/
theorem bindTarget_name_none {node : Node}
    (hk : node.kind = .identifier ∨ node.kind = .shorthandPattern) :
    bindTarget scope node none = pure () := by
  obtain ⟨_, kind, _, _, text, _⟩ := node
  rcases hk with rfl | rfl <;> simp [bindTarget]

/-- A nested object pattern takes apart what it is offered. -/
theorem bindTarget_object {node : Node} (hk : node.kind = .objectPattern)
    (offered : Option Estimate) :
    bindTarget scope node offered = offered.elim (pure ()) (destructure scope node) := by
  obtain ⟨_, kind, _, _, _, _⟩ := node
  obtain rfl : kind = .objectPattern := hk
  cases offered <;> simp [bindTarget, destructure]

/-! ## Along the keys -/

/-- Binds the members that stand before a way into a pattern, as far as there is a value. -/
def bindBefore (source : Estimate) : List Turn → SessionM Unit
  | [] => pure ()
  | turn :: turns => do
    bindMembers scope source turn.before
    (Member.property? source turn.key).elim (pure ()) fun next => bindBefore next turns

/-- Binds the members that stand after a way into a pattern, the innermost first. -/
def bindAfter (source : Estimate) : List Turn → SessionM Unit
  | [] => pure ()
  | turn :: turns => do
    (Member.property? source turn.key).elim (pure ()) fun next => bindAfter next turns
    bindMembers scope source turn.after

variable {pattern target : Node} {turn : Turn} {turns : List Turn}

/-- What stands around a pair is bound around it. -/
theorem destructure_pair (h : pattern.Pairs turn target) (source : Estimate) :
    destructure scope pattern source = (do
      bindMembers scope source turn.before
      bindTarget scope target (Member.property? source turn.key)
      bindMembers scope source turn.after) := by
  obtain ⟨hk, hchildren, ho, hpair, hkey, hvalue⟩ := h
  rw [destructure, if_pos hk, hchildren, bindMembers_append, bindMembers_cons,
    bindMembers_singleton_pair scope source ho hpair hkey hvalue]

/-- What a name in a pattern is offered, between what stands before it and what stands after it. -/
theorem destructure_along (h : pattern.Reaches turns target) (source : Estimate) :
    destructure scope pattern source = (do
      bindBefore scope source turns
      bindTarget scope target ((turns.map (·.key)).foldlM Member.property? source)
      bindAfter scope source turns) := by
  induction h generalizing source with
  | @shorthand pattern name turn hk hchildren ho hname hkey =>
    rw [destructure, if_pos hk, hchildren, bindMembers_append, bindMembers_cons,
      bindMembers_singleton_shorthand scope source ho hname hkey]
    cases hvalue : Member.property? source turn.key <;> simp [bindBefore, bindAfter, hvalue]
  | @value pattern name turn hpair =>
    rw [destructure_pair scope hpair]
    cases hvalue : Member.property? source turn.key <;> simp [bindBefore, bindAfter, hvalue]
  | @nested pattern inner name turn turns hpair hrest ih =>
    rw [destructure_pair scope hpair, bindTarget_object scope hrest.kind]
    cases hvalue : Member.property? source turn.key with
    | none => simp [bindBefore, bindAfter, hvalue, bindTarget_name_none scope hrest.isName]
    | some next => simp [bindBefore, bindAfter, hvalue, ih]

end

/-! ## Chains of accesses -/

variable {scope : Scope} {base n object : Node} {key : String} {keys : List String}

theorem unwrapParens_access (h : n.AccessesMember object key) : n.unwrapParens = n := by
  rw [Node.unwrapParens_eq, if_neg]
  simp [h.kind]

/-- The session inside so many expressions more, the clock read once for each of them. -/
def Session.inside (s : Session) (depth : Nat) : Session :=
  { s with nesting := s.nesting + depth, readings := s.readings + depth }

/-- The session out of so many expressions again. -/
def Session.outside (s : Session) (depth : Nat) : Session :=
  { s with nesting := s.nesting - depth }

theorem Session.inside_inside (s : Session) (outer inner : Nat) :
    (s.inside outer).inside inner = s.inside (inner + outer) := by
  simp only [inside, Nat.add_assoc, Nat.add_comm inner]

theorem Session.outside_outside (s : Session) (inner outer : Nat) :
    (s.outside inner).outside outer = s.outside (inner + outer) := by
  simp only [outside, Nat.sub_sub]

/-- While there is time, an access to a member is typed by the property of what the object is typed
as inside it. -/
theorem outcome_access {s : Session} (hexpired : scope.limits.expired s.readings = false)
    (h : n.AccessesMember object key) (hconstant : staticProperty? n = none) (room : Nat) :
    outcome (inferWithin scope (room + 1) n) s =
      (((Member.property? (outcome (inferWithin scope room object) (s.inside 1)).1 key).getD
          .unknown),
        (outcome (inferWithin scope room object) (s.inside 1)).2.outside 1) := by
  rw [outcome_inferWithin_of_not_expired hexpired, unwrapParens_access h, outcome_nested]
  unfold Forms.typeOf
  rw [h.kind]
  show ((outcome (memberType _ n) _).1, (outcome ascend (outcome (memberType _ n) _).2).2) = _
  simp [memberType, hconstant, h.object, h.key, throughChain, h.required, Session.inside,
    Session.outside]

/-- A member of a member is no constant of a known namespace. -/
theorem staticProperty?_of_accesses (h : base.Accesses keys object)
    (ha : n.AccessesMember object key) : staticProperty? n = none := by
  have hobject : object.kind = .memberExpression := by
    cases h with
    | first haccess => exact haccess.kind
    | next _ haccess => exact haccess.kind
  have hnamespace : n.namespace? = none := by
    simp [Node.namespace?, ha.object, Node.identifierName?, hobject]
  simp [staticProperty?, hnamespace]

/-- Nothing is known of the members of what is not known. -/
theorem property?_unknown (key : String) : Member.property? .unknown key = none := rfl

/-- A chain of accesses is typed by going from property to property from what its base is typed as
where it stands, if there is time for each of the accesses. -/
theorem outcome_accesses (h : base.Accesses keys n) (room : Nat) (s : Session)
    (hexpired : ∀ depth < keys.length, scope.limits.expired (s.readings + depth) = false) :
    let typed := outcome (inferWithin scope room base) (s.inside keys.length)
    outcome (inferWithin scope (room + keys.length) n) s =
      ((keys.foldlM Member.property? typed.1).getD .unknown, typed.2.outside keys.length) := by
  induction h generalizing s with
  | @first n key haccess hconstant =>
    have hfirst : scope.limits.expired s.readings = false := hexpired 0 Nat.zero_lt_one
    simp [outcome_access hfirst haccess hconstant]
  | @next object n keys key hrest haccess ih =>
    rw [List.length_append, List.length_singleton] at hexpired ⊢
    -- The last access is the outermost expression, so its time is the first to be looked at.
    have hfirst : scope.limits.expired s.readings = false := hexpired 0 (Nat.succ_pos _)
    have hinside : ∀ depth < keys.length,
        scope.limits.expired ((s.inside 1).readings + depth) = false := by
      intro depth hdepth
      have hlater := hexpired (depth + 1) (by omega)
      rwa [show (s.inside 1).readings + depth = s.readings + (depth + 1) by
        simp only [Session.inside]; omega]
    rw [← Nat.add_assoc, outcome_access hfirst haccess (staticProperty?_of_accesses hrest haccess),
      ih (s.inside 1) hinside]
    dsimp only
    rw [List.foldlM_append, Session.inside_inside, Session.outside_outside]
    cases keys.foldlM Member.property?
        (outcome (inferWithin scope room base) (s.inside (keys.length + 1))).1 with
    | none => simp [property?_unknown]
    | some value => simp

/-- A name in a pattern is offered what its keys lead to from the value that is taken apart, after
what stands before it and before what stands after it; it is left alone where they lead nowhere. A
chain of accesses, if there is time and room for each of them, is typed as what the same keys lead
to from what its base is typed as inside the chain, and is unknown where they lead nowhere. -/
theorem destructuring_follows_members :
    (∀ (scope : Scope) (pattern name : Node) (turns : List Turn) (text : String),
      pattern.Reaches turns name → name.text = some text → ∀ source : Estimate,
        (∀ value, (turns.map (·.key)).foldlM Member.property? source = some value →
          destructure scope pattern source = (do
            bindBefore scope source turns
            assign text value false
            bindAfter scope source turns)) ∧
        ((turns.map (·.key)).foldlM Member.property? source = none →
          destructure scope pattern source = (do
            bindBefore scope source turns
            bindAfter scope source turns))) ∧
    ∀ (scope : Scope) (base n : Node) (keys : List String), base.Accesses keys n →
      ∀ (room : Nat) (s : Session),
        (∀ depth < keys.length, scope.limits.expired (s.readings + depth) = false) →
        let typed := outcome (inferWithin scope room base) (s.inside keys.length)
        outcome (inferWithin scope (room + keys.length) n) s =
          ((keys.foldlM Member.property? typed.1).getD .unknown,
            typed.2.outside keys.length) := by
  refine ⟨fun scope pattern name turns text h htext source => ?_,
    fun scope base n keys h room s hexpired => outcome_accesses h room s hexpired⟩
  have halong := destructure_along scope h source
  constructor
  · intro value hvalue
    rwa [hvalue, bindTarget_name scope h.isName htext] at halong
  · intro hnone
    rwa [hnone, bindTarget_name_none scope h.isName, pure_bind] at halong

/-- The pattern `{ a: { b } }`. -/
def innerPattern : Node :=
  ⟨0, .objectPattern, none, true, none,
    [⟨1, .pairPattern, none, true, none,
      [⟨2, .propertyIdentifier, some .key, true, some "a", []⟩,
        ⟨3, .objectPattern, some .value, true, none,
          [⟨4, .shorthandPattern, none, true, some "b", []⟩]⟩]⟩]⟩

/-- A member of an object that is written before it. -/
def memberOf (label : Nat) (object : Node) (key : String) : Node :=
  ⟨label, .memberExpression, some .object, true, none,
    [object, ⟨label + 1, .propertyIdentifier, some .property, true, some key, []⟩]⟩

/-- The name `o`, whose members are accessed. -/
def outerName : Node := ⟨5, .identifier, some .object, true, some "o", []⟩

/-- An object whose property `a` is an object whose property `b` is a number. -/
def outerObject : Estimate :=
  ⟨.object, .objectLiteral, some [("a", ⟨.object, .objectLiteral, some [("b", .of .number .one)]⟩)]⟩

/-- The same number is taken out of the object by the pattern and by `o.a.b`. -/
theorem destructuring_follows_members_nested :
    let turns : List Turn := [⟨[], "a", []⟩, ⟨[], "b", []⟩]
    let name : Node := ⟨4, .shorthandPattern, none, true, some "b", []⟩
    let chain := memberOf 6 (memberOf 8 outerName "a") "b"
    let scope : Scope := ⟨CallGraph.ofProgram ⟨chain, []⟩, ⟨8, fun _ => false⟩⟩
    innerPattern.Reaches turns name ∧
      destructure scope innerPattern outerObject = (do
        bindBefore scope outerObject turns
        assign "b" (.of .number .one) false
        bindAfter scope outerObject turns) ∧
      outerName.Accesses ["a", "b"] chain ∧
      (outcome (infer scope chain) (.start ⟨.ofEntries [("o", outerObject)], .empty⟩)).1 =
        .of .number .one := by
  intro turns name chain scope
  have hreaches : innerPattern.Reaches turns name :=
    .nested (.mk rfl rfl rfl rfl rfl rfl) (.shorthand rfl rfl rfl rfl rfl)
  have haccesses : outerName.Accesses ["a", "b"] chain :=
    .next (.first ⟨rfl, rfl, rfl, rfl⟩ rfl) ⟨rfl, rfl, rfl, rfl⟩
  refine ⟨hreaches, ?_, haccesses, ?_⟩
  · exact (destructuring_follows_members.1 scope _ _ _ "b" hreaches rfl outerObject).1 _ rfl
  · have htyped := destructuring_follows_members.2 scope _ _ _ haccesses 98
      (.start ⟨.ofEntries [("o", outerObject)], .empty⟩) fun _ _ => rfl
    exact congrArg Prod.fst htyped

end Typing

end ScriptTypes
