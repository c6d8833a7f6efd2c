import ScriptTypes.Proofs.Upheld

/-!
# Unions are proper

Wherever a union stands in what a run holds, however deep inside other types and inside the shapes
of objects, it has two to four members, no two of them equal and none of them a union.

* `Ty.parts`: a type and all types inside it, at any depth.
* `Ty.components`: the types that a type is built from.
* `Ty.induction_components`, `Ty.induction_parts`: induction on the types inside a type.
* `Ty.Proper`: the members of a union as they should be.
* `Ty.WellFormed`: every union inside a type is proper.
* `Ty.same_comm`: equality of types is symmetric.
* `Inference.unions_well_formed`: the types of a run are well formed.
-/

namespace ScriptTypes

namespace Ty

/-! ## Parts of types -/

mutual
/-- The type and all types inside it, at any depth. -/
def parts : Ty → List Ty
  | .any => [.any]
  | .prim p => [.prim p]
  | .array element => .array element :: parts element
  | .generic name args => .generic name args :: partsOfAll args
  | .fn params returns rest =>
    .fn params returns rest :: (partsOfAll params ++ parts returns ++ partsOfRest rest)
  | .union members => .union members :: partsOfAll members

/-- The parts of several types. -/
def partsOfAll : List Ty → List Ty
  | [] => []
  | t :: ts => parts t ++ partsOfAll ts

/-- The parts of the type of a rest parameter. -/
def partsOfRest : Option Ty → List Ty
  | none => []
  | some t => parts t
end

theorem mem_partsOfAll {t : Ty} {ts : List Ty} : t ∈ partsOfAll ts ↔ ∃ s ∈ ts, t ∈ s.parts := by
  induction ts with
  | nil => simp [partsOfAll]
  | cons s ts ih => simp [partsOfAll, ih]

theorem mem_partsOfRest {t : Ty} {rest : Option Ty} :
    t ∈ partsOfRest rest ↔ ∃ s, rest = some s ∧ t ∈ s.parts := by
  cases rest <;> simp [partsOfRest]

/-- The types that a type is built from. -/
def components : Ty → List Ty
  | .any => []
  | .prim _ => []
  | .array element => [element]
  | .generic _ args => args
  | .fn params returns rest => params ++ returns :: rest.toList
  | .union members => members

mutual

theorem induction_components {P : Ty → Prop} (h : ∀ t, (∀ c ∈ t.components, P c) → P t) :
    ∀ t, P t
  | .any => h _ (by simp [components])
  | .prim _ => h _ (by simp [components])
  | .array element => h _ (by simpa [components] using induction_components h element)
  | .generic _ args => h _ (forall_of_components h args)
  | .fn params returns none => by
    have hparams := forall_of_components h params
    have hreturns := induction_components h returns
    exact h _ (List.forall_mem_append.2 ⟨hparams, by simpa using hreturns⟩)
  | .fn params returns (some rest) => by
    have hparams := forall_of_components h params
    have hreturns := induction_components h returns
    have hrest := induction_components h rest
    exact h _ (List.forall_mem_append.2 ⟨hparams, by simpa using ⟨hreturns, hrest⟩⟩)
  | .union members => h _ (forall_of_components h members)

theorem forall_of_components {P : Ty → Prop} (h : ∀ t, (∀ c ∈ t.components, P c) → P t) :
    ∀ ts : List Ty, ∀ t ∈ ts, P t
  | [] => by simp
  | first :: rest => by
    have hfirst := induction_components h first
    have hrest := forall_of_components h rest
    exact List.forall_mem_cons.2 ⟨hfirst, hrest⟩

end

/-- The parts of a type besides itself are those of the types that it is built from. -/
theorem mem_parts_iff {part t : Ty} :
    part ∈ t.parts ↔ part = t ∨ ∃ c ∈ t.components, part ∈ c.parts := by
  cases t <;>
    simp [parts, components, mem_partsOfAll, mem_partsOfRest, or_and_right, exists_or]

theorem mem_parts_self (t : Ty) : t ∈ t.parts := mem_parts_iff.2 (.inl rfl)

theorem mem_parts_of_components {c t : Ty} (h : c ∈ t.components) : c ∈ t.parts :=
  mem_parts_iff.2 (.inr ⟨c, h, mem_parts_self c⟩)

theorem mem_parts_trans {part inner t : Ty} (hpart : part ∈ inner.parts) (h : inner ∈ t.parts) :
    part ∈ t.parts := by
  induction t using induction_components with
  | h t ih =>
    rcases mem_parts_iff.1 h with rfl | ⟨c, hc, hinner⟩
    · exact hpart
    · exact mem_parts_iff.2 (.inr ⟨c, hc, ih c hc hinner⟩)

/-- Induction on the types inside a type, at any depth. -/
theorem induction_parts {P : Ty → Prop}
    (h : ∀ t, (∀ c ∈ t.components, ∀ part ∈ c.parts, P part) → P t) (t : Ty) : P t := by
  have hparts : ∀ part ∈ t.parts, P part := by
    induction t using induction_components with
    | h t ih =>
      intro part hpart
      rcases mem_parts_iff.1 hpart with rfl | ⟨c, hc, hpart⟩
      · exact h part ih
      · exact ih c hc part hpart
  exact hparts t (mem_parts_self t)

/-! ## Well-formed types -/

/-- Whether the type is a union. -/
def isUnion : Ty → Bool
  | .union _ => true
  | _ => false

/-- Two to four types, no two of them equal and none of them a union. -/
structure Proper (members : List Ty) : Prop where
  two_le : 2 ≤ members.length
  le_four : members.length ≤ 4
  distinct : members.Pairwise fun a b => (a == b) = false ∧ (b == a) = false
  flat : ∀ t ∈ members, t.isUnion = false

/-- Every union inside the type is proper. -/
def WellFormed (t : Ty) : Prop := ∀ members, .union members ∈ t.parts → Proper members

/-! ## Equality -/

mutual

/-- Equality of types is symmetric. -/
theorem same_comm : ∀ a b : Ty, same a b = same b a
  | .any, b => by cases b <;> simp [same]
  | .prim p, b => by cases b <;> simp [same, eq_comm]
  | .array a, b => by
    cases b with
    | array b => simp only [same, same_comm a b]
    | _ => simp [same]
  | .generic n as, b => by
    cases b with
    | generic m bs => simp only [same, sameAll_comm as bs, eq_comm]
    | _ => simp [same]
  | .fn ps r x, b => by
    cases b with
    | fn qs s y => simp only [same, sameAll_comm ps qs, same_comm r s, sameRest_comm x y]
    | _ => simp [same]
  | .union as, b => by
    cases b with
    | union bs =>
      have hmembers := same_comm_of_mem as
      have hany : ∀ b, (as.any fun a => same a b) = as.any (same b) := fun b => by
        rw [Bool.eq_iff_iff, List.any_eq_true, List.any_eq_true]
        exact exists_congr fun a => and_congr_right fun ha => by rw [hmembers a ha b]
      have hall : (as.all fun a => bs.any (same a)) = as.all fun a => bs.any fun b => same b a := by
        rw [Bool.eq_iff_iff, List.all_eq_true, List.all_eq_true]
        refine forall₂_congr fun a ha => ?_
        rw [show same a = fun b => same b a from funext (hmembers a ha)]
      rw [same_union, same_union, Bool.and_comm, hall]
      simp only [hany]
    | _ => simp [same]

theorem sameAll_comm : ∀ as bs : List Ty, sameAll as bs = sameAll bs as
  | [], bs => by cases bs <;> simp [sameAll]
  | a :: as, bs => by
    cases bs with
    | nil => simp [sameAll]
    | cons b bs => simp only [sameAll, same_comm a b, sameAll_comm as bs]

theorem sameRest_comm : ∀ x y : Option Ty, sameRest x y = sameRest y x
  | none, y => by cases y <;> simp [sameRest]
  | some a, y => by
    cases y with
    | none => simp [sameRest]
    | some b => simp only [sameRest, same_comm a b]

theorem same_comm_of_mem : ∀ as : List Ty, ∀ a ∈ as, ∀ b, same a b = same b a
  | [], _, h, _ => nomatch h
  | first :: as, a, h, b => by
    rcases List.mem_cons.1 h with heq | h
    · rw [heq]
      exact same_comm first b
    · exact same_comm_of_mem as a h b

end

/-! ## Distinct members -/

theorem pairwise_distinctOnto {seen : List Ty} (h : seen.Pairwise fun a b => (a == b) = false)
    (ts : List Ty) : (distinctOnto seen ts).Pairwise fun a b => (a == b) = false := by
  induction ts generalizing seen with
  | nil => exact h
  | cons t ts ih =>
    unfold distinctOnto
    split
    · exact ih h
    · rename_i hnew
      refine ih (List.pairwise_append.2 ⟨h, List.pairwise_singleton _ _, fun a ha b hb => ?_⟩)
      rw [List.mem_singleton.1 hb, ← Bool.not_eq_true]
      exact fun heq => hnew (List.any_eq_true.2 ⟨a, ha, heq⟩)

theorem pairwise_distinct (ts : List Ty) :
    (distinct ts).Pairwise fun a b => (a == b) = false ∧ (b == a) = false := by
  refine (pairwise_distinctOnto .nil ts).imp fun {a b} h => ⟨h, ?_⟩
  show same b a = false
  rw [same_comm]
  exact h

theorem length_le_distinctOnto (seen ts : List Ty) :
    seen.length ≤ (distinctOnto seen ts).length := by
  induction ts generalizing seen with
  | nil => exact Nat.le_refl _
  | cons t ts ih =>
    unfold distinctOnto
    split
    · exact ih seen
    · refine Nat.le_trans ?_ (ih (seen ++ [t]))
      simp

theorem distinct_ne_nil {ts : List Ty} (h : ts ≠ []) : (distinct ts).length ≠ 0 := by
  cases ts with
  | nil => exact absurd rfl h
  | cons t ts =>
    have hlength := length_le_distinctOnto [t] ts
    have hfirst : distinct (t :: ts) = distinctOnto [t] ts := by simp [distinct, distinctOnto]
    rw [hfirst]
    simp only [List.length_singleton] at hlength
    omega

/-! ## Well-formed types -/

variable {s t : Ty}

theorem wellFormed_array : (Ty.array t).WellFormed ↔ t.WellFormed := by
  simp [WellFormed, parts]

theorem wellFormed_generic {name : String} {args : List Ty} :
    (Ty.generic name args).WellFormed ↔ ∀ t ∈ args, t.WellFormed := by
  simp only [WellFormed, parts, List.mem_cons, mem_partsOfAll, reduceCtorEq, false_or]
  exact ⟨fun h t ht ms hms => h ms ⟨t, ht, hms⟩, fun h ms ⟨t, ht, hms⟩ => h t ht ms hms⟩

theorem wellFormed_fn {params : List Ty} {returns : Ty} {rest : Option Ty} :
    (Ty.fn params returns rest).WellFormed ↔
      (∀ t ∈ params, t.WellFormed) ∧ returns.WellFormed ∧ ∀ t, rest = some t → t.WellFormed := by
  simp only [WellFormed, parts, List.mem_cons, List.mem_append, mem_partsOfAll, mem_partsOfRest,
    reduceCtorEq, false_or]
  constructor
  · exact fun h => ⟨fun t ht ms hms => h ms (.inl (.inl ⟨t, ht, hms⟩)),
      fun ms hms => h ms (.inl (.inr hms)), fun t ht ms hms => h ms (.inr ⟨t, ht, hms⟩)⟩
  · rintro ⟨hparams, hreturns, hrest⟩ ms ((⟨t, ht, hms⟩ | hms) | ⟨t, ht, hms⟩)
    · exact hparams t ht ms hms
    · exact hreturns ms hms
    · exact hrest t ht ms hms

theorem wellFormed_union {members : List Ty} :
    (Ty.union members).WellFormed ↔ Proper members ∧ ∀ t ∈ members, t.WellFormed := by
  simp only [WellFormed, parts, List.mem_cons, mem_partsOfAll, union.injEq]
  constructor
  · exact fun h => ⟨h members (.inl rfl), fun t ht ms hms => h ms (.inr ⟨t, ht, hms⟩)⟩
  · rintro ⟨hproper, hmembers⟩ ms (rfl | ⟨t, ht, hms⟩)
    · exact hproper
    · exact hmembers t ht ms hms

/-- The members of a well-formed type are well formed, there are some, and none is a union. -/
theorem WellFormed.members (h : t.WellFormed) :
    t.members ≠ [] ∧ ∀ m ∈ t.members, m.WellFormed ∧ m.isUnion = false := by
  cases t with
  | union ms =>
    obtain ⟨hproper, hmembers⟩ := wellFormed_union.1 h
    refine ⟨fun hnil => ?_, fun m hm => ⟨hmembers m hm, hproper.flat m hm⟩⟩
    have hlength := hproper.two_le
    simp only [Ty.members] at hnil
    rw [hnil] at hlength
    simp at hlength
  | _ =>
    refine ⟨by simp [Ty.members], fun m hm => ?_⟩
    rw [Ty.members, List.mem_singleton] at hm
    · exact ⟨hm ▸ h, hm ▸ rfl⟩
    · nofun

/-- The distinct members of two well-formed types make a well-formed union, unless they are too many
or only one. -/
theorem wellFormed_join (hs : s.WellFormed) (ht : t.WellFormed)
    (hmax : (distinct (s.members ++ t.members)).length ≤ maxMembers)
    (hone : (distinct (s.members ++ t.members)).length ≠ 1) :
    (Ty.union (distinct (s.members ++ t.members))).WellFormed := by
  obtain ⟨hnil, hleft⟩ := hs.members
  obtain ⟨-, hright⟩ := ht.members
  have hall : ∀ m ∈ distinct (s.members ++ t.members), m.WellFormed ∧ m.isUnion = false := by
    intro m hm
    rcases List.mem_append.1 (mem_distinct hm) with hm | hm
    · exact hleft m hm
    · exact hright m hm
  have hsome : (distinct (s.members ++ t.members)).length ≠ 0 := distinct_ne_nil (by simp [hnil])
  refine wellFormed_union.2 ⟨⟨by omega, hmax, pairwise_distinct _, fun m hm => (hall m hm).2⟩, ?_⟩
  exact fun m hm => (hall m hm).1

end Ty

/-- Well-formed types may be guessed, and held as firmly as one likes. -/
def Standard.wellFormed : Standard where
  type := Ty.WellFormed
  firm _ := True
  type_any := by simp [Ty.WellFormed, Ty.parts]
  type_prim p := by simp [Ty.WellFormed, Ty.parts]
  type_array := Ty.wellFormed_array
  type_generic := Ty.wellFormed_generic
  type_result h := (Ty.wellFormed_fn.1 h).2.1
  type_member h hm := (h.members.2 _ hm).1
  type_union := Ty.wellFormed_join
  firm_basic _ := trivial
  firm_element _ := trivial
  firm_promise _ _ := trivial

instance : Standard.wellFormed.Signs :=
  ⟨fun hparams hreturns hrest => Ty.wellFormed_fn.2 ⟨hparams, hreturns, hrest⟩⟩

namespace Inference

/-- However many rounds are made and whatever the clock shows in them, every union in what is held
of the names, in what the functions return and in the arguments of the call graph is proper, inside
the types and inside the shapes of objects at any depth; and so it is in the answer of a run. -/
theorem unions_well_formed (program : Place) (budget : Budget) :
    let graph := CallGraph.ofProgram program
    (∀ count, ∀ known ∈ stages ⟨graph, budget.limits⟩ program count,
      (∀ name e, known.types.get? name = some e → ∀ part ∈ e.parts, part.type.WellFormed) ∧
      ∀ name e, known.returns.get? name = some e → ∀ part ∈ e.parts, part.type.WellFormed) ∧
    (∀ site ∈ graph.sites, ∀ e, some e ∈ site.arguments →
      ∀ part ∈ e.parts, part.type.WellFormed) ∧
    ∀ name e, (run budget program).get? name = some e →
      ∀ part ∈ e.parts, part.type.WellFormed := by
  refine ⟨fun count known hknown => ?_, fun site hsite e he part hpart => ?_,
    fun name e he part hpart => ?_⟩
  · have hupholds : Standard.wellFormed.Upholds known :=
      Standard.upholds_stages program budget.limits count known hknown
    exact ⟨fun name e he part hpart => (hupholds.types name e he part hpart).1,
      fun name e he part hpart => (hupholds.returns name e he part hpart).1⟩
  · have hargument : Standard.wellFormed.MeetsSome (some e) :=
      Standard.meetsSome_argument hsite _ he
    exact (hargument e rfl part hpart).1
  · have hrun : Standard.wellFormed.Fills (run budget program) := Standard.fills_run budget program
    exact (hrun name e he part hpart).1

end Inference

end ScriptTypes
