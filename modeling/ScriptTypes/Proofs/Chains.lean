import ScriptTypes.Proofs.UnionLaws
import ScriptTypes.Proofs.Upheld

/-!
# Optional chains

What is reached through an optional chain may be undefined, and its type says so: it is `any`, or
`undefined` is among its members. Constants of known namespaces are the exception, since they are
looked up before the chain is taken into account. A union without members would be one too, but
typing builds none.

* `Node.IsChained`: accesses and calls through an optional chain.
* `Ty.AdmitsUndefined`: the types that say that a value may be undefined.
* `Standard.inhabited`: the standard that no union is without members.
* `chained_admits_undefined`: what typing through an optional chain gives.
-/

namespace ScriptTypes

/-- A member, an element or the result of a call, reached through an optional chain. -/
def Node.IsChained (n : Node) : Prop :=
  (n.kind = .memberExpression ∨ n.kind = .subscriptExpression) ∧ n.isOptional = true ∨
  n.kind = .callExpression ∧ (n.isOptional = true ∨
    ∃ callee, n.child? .callee = some callee ∧ callee.kind = .memberExpression ∧
      callee.isOptional = true)

theorem Node.IsChained.unwrapParens_eq {n : Node} (hn : n.IsChained) : n.unwrapParens = n := by
  rw [Node.unwrapParens_eq, if_neg]
  rcases hn with ⟨hk | hk, -⟩ | ⟨hk, -⟩ <;> simp [hk]

namespace Ty

/-- Nothing is known of the type, or `undefined` is among its members. -/
def AdmitsUndefined (t : Ty) : Prop := t = .any ∨ .undefined ∈ t.members

theorem eq_undefined_of_class {t : Ty} (h : classOf t = classOf .undefined) : t = .undefined := by
  have hsame : same t .undefined = true := classOf_eq_iff.1 h
  cases t with
  | prim p =>
    rw [show p = .undefined by simpa [same] using hsame]
  | _ => simp [same] at hsame

theorem eq_of_members_nil {t : Ty} (h : t.members = []) : t = .union [] := by
  cases t with
  | union ms => exact congrArg Ty.union h
  | _ => cases h

theorem admitsUndefined_orUndefined {t : Ty} (h : t ≠ .union []) :
    t.orUndefined.AdmitsUndefined := by
  have hlast : .undefined ∈ t.members ++ [.undefined] :=
    List.mem_append_right _ List.mem_cons_self
  unfold orUndefined
  dsimp only
  split
  · exact .inl rfl
  · split
    · -- Some distinct member equals `undefined`, and only `undefined` does.
      obtain ⟨m, hm, hclass⟩ :=
        List.mem_map.1 (mem_classes_distinct.2 (List.mem_map_of_mem hlast))
      exact .inr (eq_undefined_of_class hclass ▸ hm)
    · have hsome : (distinct (t.members ++ [.undefined])).length ≠ 0 := distinct_ne_nil (by simp)
      obtain ⟨only, honly⟩ := List.length_eq_one_iff.1
        (show (distinct (t.members ++ [.undefined])).length = 1 by omega)
      cases hmembers : t.members with
      | nil => exact absurd (eq_of_members_nil hmembers) h
      | cons m ms =>
        have hclass : classOf m = classOf .undefined :=
          (classOf_eq_of_distinct honly (by simp [hmembers])).trans
            (classOf_eq_of_distinct honly hlast).symm
        refine .inr ?_
        rw [hmembers, eq_undefined_of_class hclass]
        exact List.mem_cons_self

/-- The empty union is the only type that stays without `undefined`. -/
theorem orUndefined_eq_empty_or (t : Ty) :
    t.orUndefined = .union [] ∨ t.orUndefined.AdmitsUndefined := by
  by_cases h : t = .union []
  · rw [h]
    exact .inl (by simp [orUndefined, members, distinct, distinctOnto, maxMembers])
  · exact .inr (admitsUndefined_orUndefined h)

theorem parts_subset_of_mem_members {t m : Ty} (hm : m ∈ t.members) : m.parts ⊆ t.parts := by
  intro part hpart
  cases t with
  | union ms => exact mem_parts_iff.2 (.inr ⟨m, hm, hpart⟩)
  | _ =>
    obtain rfl := List.mem_singleton.1 hm
    exact hpart

end Ty

/-- All types without an empty union inside may be guessed, and held as firmly as one likes. -/
def Standard.inhabited : Standard :=
  { Standard.anything with
    type t := .union [] ∉ t.parts
    type_any := by simp [Ty.parts]
    type_prim p := by simp [Ty.parts]
    type_array := by simp [Ty.parts]
    type_generic := by simp [Ty.parts, Ty.mem_partsOfAll]
    type_result := by
      intro params returns rest h hreturns
      simp [Ty.parts, hreturns] at h
    type_member ht hm hempty := ht (Ty.parts_subset_of_mem_members hm hempty)
    type_union := by
      intro s t hs ht hmax hone hempty
      rcases List.mem_cons.1 hempty with heq | hpart
      · have hnil : s.members ++ t.members = [] := by
          by_contra hne
          exact Ty.distinct_ne_nil hne (by rw [← Ty.union.inj heq]; rfl)
        exact hs (Ty.eq_of_members_nil (List.append_eq_nil_iff.1 hnil).1 ▸ Ty.mem_parts_self s)
      · obtain ⟨m, hm, hpart⟩ := Ty.mem_partsOfAll.1 hpart
        rcases List.mem_append.1 (Ty.mem_distinct hm) with hm | hm
        · exact hs (Ty.parts_subset_of_mem_members hm hpart)
        · exact ht (Ty.parts_subset_of_mem_members hm hpart) }

instance : Standard.inhabited.Signs where
  type_fn := by
    intro params returns rest hparams hreturns hrest hempty
    simp only [Ty.parts, List.mem_cons, List.mem_append, Ty.mem_partsOfAll, Ty.mem_partsOfRest,
      reduceCtorEq, false_or] at hempty
    rcases hempty with (⟨t, ht, hempty⟩ | hempty) | ⟨t, ht, hempty⟩
    · exact hparams t ht hempty
    · exact hreturns hempty
    · exact hrest t ht hempty

namespace Typing

variable {n : Node} {s : Session}

section

variable {infer : Node → SessionM Estimate}

theorem throughChain_of_isOptional (h : n.isOptional = true) (e : Estimate) :
    throughChain n e = e.withUndefined := if_pos h

theorem memberType_chained (h : n.isOptional = true) (hconstant : staticProperty? n = none) :
    ∃ e : Estimate, (outcome (memberType infer n) s).1 = e.withUndefined := by
  unfold memberType
  simp only [hconstant, throughChain_of_isOptional h]
  split
  · exact ⟨_, rfl⟩
  · exact ⟨_, rfl⟩

theorem subscriptType_chained (h : n.isOptional = true) :
    ∃ e : Estimate, (outcome (subscriptType infer n) s).1 = e.withUndefined := by
  unfold subscriptType
  simp only [throughChain_of_isOptional h]
  split
  · exact ⟨_, rfl⟩
  · exact ⟨_, rfl⟩

theorem callType_chained {scope : Scope}
    (h : n.isOptional = true ∨ ∃ callee, n.child? .callee = some callee ∧
      callee.kind = .memberExpression ∧ callee.isOptional = true) :
    (outcome (callType scope infer n) s).1 = .unknownCall ∨
      ∃ e : Estimate, (outcome (callType scope infer n) s).1 = e.withUndefined := by
  unfold callType
  split
  · exact .inl rfl
  · rename_i callee hcallee
    have hoptional : (n.isOptional || (decide (callee.kind = .memberExpression) &&
        callee.isOptional)) = true := by
      rcases h with h | ⟨other, hother, hk, h⟩
      · simp [h]
      · obtain rfl : callee = other := Option.some.inj (hcallee.symm.trans hother)
        simp [hk, h]
    simp only [hoptional, if_true]
    exact .inr ⟨_, rfl⟩

end

/-- Unless it is a constant, what is typed through an optional chain is unknown or some estimate
that may be undefined. -/
theorem inferWithin_chained {scope : Scope} (hexpired : scope.limits.expired s.readings = false)
    (room : Nat) (hn : n.IsChained)
    (hconstant : n.kind = .memberExpression → staticProperty? n = none) :
    (outcome (inferWithin scope (room + 1) n) s).1 = .unknownCall ∨
      ∃ e : Estimate, (outcome (inferWithin scope (room + 1) n) s).1 = e.withUndefined := by
  rw [outcome_inferWithin_of_not_expired hexpired, outcome_nested, hn.unwrapParens_eq]
  unfold Forms.typeOf
  rcases hn with ⟨hk | hk, hoptional⟩ | ⟨hk, hoptional⟩
  · rw [hk]
    exact .inr (memberType_chained hoptional (hconstant hk))
  · rw [hk]
    exact .inr (subscriptType_chained hoptional)
  · rw [hk]
    exact callType_chained hoptional

/-- In a session whose types have no empty union inside, none comes out. -/
theorem inhabited_inferWithin {program : Place} {limits : Limits} {room : Nat}
    (hroom : s.active.length + room ≤ maxNesting + 1) (htypes : Standard.inhabited.Fills s.types)
    (hreturns : Standard.inhabited.Fills s.returns)
    (hanswered : ∀ name, Standard.inhabited.MeetsSome (s.answered.get? name)) :
    (outcome (inferWithin ⟨CallGraph.ofProgram program, limits⟩ room n) s).1.type ≠ .union [] := by
  let scope : Scope := ⟨CallGraph.ofProgram program, limits⟩
  have hpairing : Pairing scope scope (Region.whole program) Eq .inhabited _ :=
    pairing_upheld .inhabited biUnique_eq (.refl _) scope.graph.functions_commented
  obtain ⟨-, hmeets, -⟩ := hpairing.inferWithin room s.nesting s.active hroom n n
    trivial (.refl (fun _ => rfl) n) s s ⟨rfl, rfl, rfl, htypes, hreturns, hanswered⟩
  have hinhabited : Ty.union [] ∉ (outcome (inferWithin scope room n) s).1.type.parts := hmeets.type
  exact fun hempty => hinhabited (hempty ▸ Ty.mem_parts_self _)

/-- What is typed through an optional chain while there is time: a constant of a known
namespace is what it always is; all else is unknown or has `undefined` among its members, unless it
is an empty union, and that it is only if the session holds one. -/
theorem chained_admits_undefined (scope : Scope) (s : Session)
    (hexpired : scope.limits.expired s.readings = false) (room : Nat) (n : Node)
    (hn : n.IsChained) :
    let e := (outcome (inferWithin scope (room + 1) n) s).1
    (∀ known, n.kind = .memberExpression → staticProperty? n = some known → e = known) ∧
    ((n.kind = .memberExpression → staticProperty? n = none) →
      (e.type.AdmitsUndefined ∨ e.type = .union []) ∧
      ∀ program, scope.graph = CallGraph.ofProgram program →
        s.active.length + room ≤ maxNesting → Standard.inhabited.Fills s.types →
        Standard.inhabited.Fills s.returns →
        (∀ name, Standard.inhabited.MeetsSome (s.answered.get? name)) →
        e.type.AdmitsUndefined) := by
  intro e
  refine ⟨fun known hk hknown => ?_, fun hconstant => ?_⟩
  · show (outcome (inferWithin scope (room + 1) n) s).1 = known
    rw [outcome_inferWithin_of_not_expired hexpired, outcome_nested, hn.unwrapParens_eq]
    unfold Forms.typeOf
    rw [hk]
    show (outcome (memberType _ n) _).1 = known
    rw [memberType, hknown]
    rfl
  · have hadmits : e.type.AdmitsUndefined ∨ e.type = .union [] := by
      rcases inferWithin_chained hexpired room hn hconstant with heq | ⟨result, heq⟩
      · exact .inl (.inl (congrArg Estimate.type heq))
      · rw [show e.type = result.type.orUndefined from
          (congrArg Estimate.type heq).trans result.type_withUndefined]
        exact (Ty.orUndefined_eq_empty_or _).symm
    refine ⟨hadmits, fun program hgraph hroom htypes hreturns hanswered => ?_⟩
    obtain ⟨graph, limits⟩ := scope
    obtain rfl : graph = CallGraph.ofProgram program := hgraph
    exact hadmits.resolve_right
      (inhabited_inferWithin (Nat.succ_le_succ hroom) htypes hreturns hanswered)

/-- A member of an object, reached through an optional chain. -/
def chained (object member : String) : Node :=
  ⟨0, .memberExpression, none, true, none,
    [⟨1, .identifier, some .object, true, some object, []⟩,
      ⟨2, .optionalChain, none, true, some "?.", []⟩,
      ⟨3, .propertyIdentifier, some .property, true, some member, []⟩]⟩

/-- The length of a text that may be missing. -/
theorem chained_admits_undefined_length :
    let scope : Scope := ⟨CallGraph.ofProgram ⟨chained "text" "length", []⟩, ⟨8, fun _ => false⟩⟩
    let s : Session := .start ⟨.ofEntries [("text", .of .string .one)], .empty⟩
    (outcome (infer scope (chained "text" "length")) s).1 =
        (Estimate.of .number .certain).withUndefined ∧
      (outcome (infer scope (chained "text" "length")) s).1.type.AdmitsUndefined := by
  intro scope s
  have hn : (chained "text" "length").IsChained := .inl ⟨.inl rfl, rfl⟩
  have htypes : Standard.inhabited.Fills s.types :=
    Standard.fills_empty.set "text" (Standard.meets_prim _ rfl _)
  exact ⟨rfl, ((chained_admits_undefined scope s rfl 99 _ hn).2 fun _ => rfl).2 _ rfl (by decide)
    htypes Standard.fills_empty fun _ => Standard.meetsSome_none⟩

/-- A constant of a known namespace does not get `undefined` through an optional chain. -/
theorem constant_through_chain :
    (chained "Math" "PI").IsChained ∧
      (outcome (infer ⟨.empty, ⟨8, fun _ => false⟩⟩ (chained "Math" "PI"))
        (.start ⟨.empty, .empty⟩)).1 =
        .of .number .staticMember ∧
      ¬Ty.number.AdmitsUndefined :=
  ⟨.inl ⟨.inl rfl, rfl⟩, rfl, by simp [Ty.AdmitsUndefined, Ty.members]⟩

end Typing

end ScriptTypes
