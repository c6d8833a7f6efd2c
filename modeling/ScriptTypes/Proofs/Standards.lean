import ScriptTypes.Inference
import ScriptTypes.Proofs.Rounding

/-!
# Standards for estimates

A standard says which types may be guessed, and which of them may be held above what a signature is
worth. If it allows what the forms of types are built from, every way of making an estimate from
others that meet it gives one that meets it.

* `Estimate.parts`: an estimate and those of its properties, at any depth.
* `Standard`: the types that may be guessed and those that may be held firmly.
* `Standard.Meets`: an estimate with all its parts is as the standard says.
* `Standard.meets_unionOf`, `Standard.meets_binary`, `Standard.meets_property?`, …: one statement
  for each way of making an estimate.
-/

namespace ScriptTypes

/-! ## Parts of estimates -/

namespace Estimate

mutual
/-- The estimate and those of its properties, at any depth. -/
def parts : Estimate → List Estimate
  | e@⟨_, _, shape⟩ => e :: partsOfShape shape

/-- The parts of the properties of a shape. -/
def partsOfShape : Option (List (String × Estimate)) → List Estimate
  | none => []
  | some entries => partsOfEntries entries

/-- The parts of some properties. -/
def partsOfEntries : List (String × Estimate) → List Estimate
  | [] => []
  | (_, value) :: rest => parts value ++ partsOfEntries rest
end

theorem mem_partsOfEntries {part : Estimate} {entries : List (String × Estimate)} :
    part ∈ partsOfEntries entries ↔ ∃ entry ∈ entries, part ∈ entry.2.parts := by
  induction entries with
  | nil => simp [partsOfEntries]
  | cons entry rest ih => simp [partsOfEntries, ih]

theorem mem_parts {part e : Estimate} :
    part ∈ e.parts ↔
      part = e ∨ ∃ shape, e.shape = some shape ∧ ∃ entry ∈ shape, part ∈ entry.2.parts := by
  obtain ⟨type, confidence, shape⟩ := e
  cases shape with
  | none => simp [parts, partsOfShape]
  | some shape => simp [parts, partsOfShape, mem_partsOfEntries]

end Estimate

theorem Entries.mem_of_get? {α : Type} {entries : Entries α} {name : String} {value : α}
    (h : Entries.get? entries name = some value) : (name, value) ∈ entries := by
  induction entries with
  | nil => cases h
  | cons entry rest ih =>
    obtain ⟨key, first⟩ := entry
    unfold get? at h
    split at h
    · rename_i hkey
      cases h
      exact hkey ▸ List.mem_cons_self
    · exact List.mem_cons_of_mem _ (ih h)

/-! ## Members of unions -/

namespace Ty

/-- Whether a value may be certain to be of the type. -/
def isBasic : Ty → Bool
  | .number | .string | .boolean | .null | .undefined | .regExp => true
  | _ => false

theorem mem_distinctOnto {t : Ty} {seen ts : List Ty} (h : t ∈ distinctOnto seen ts) :
    t ∈ seen ∨ t ∈ ts := by
  induction ts generalizing seen with
  | nil => exact .inl h
  | cons first ts ih =>
    unfold distinctOnto at h
    split at h
    · exact (ih h).imp_right (List.mem_cons_of_mem _)
    · rcases ih h with hseen | hrest
      · rcases List.mem_append.1 hseen with hold | hnew
        · exact .inl hold
        · exact .inr (List.mem_cons.2 (.inl (List.mem_singleton.1 hnew)))
      · exact .inr (List.mem_cons_of_mem _ hrest)

theorem mem_distinct {t : Ty} {ts : List Ty} (h : t ∈ distinct ts) : t ∈ ts :=
  (mem_distinctOnto h).resolve_left List.not_mem_nil

end Ty

/-! ## Standards -/

/-- Which types may be guessed, and which of them may be held above what a signature is worth. The
guesses include whatever the forms of types but signatures are built from, and unions of distinct
members that are neither too many nor alone; what is held firmly includes the basic types, the
elements of arrays that are, and the promises of what is no promise. -/
structure Standard where
  type : Ty → Prop
  firm : Ty → Prop
  type_any : type .any
  type_prim (p : Primitive) : type (.prim p)
  type_array {element : Ty} : type (.array element) ↔ type element
  type_generic {name : String} {args : List Ty} : type (.generic name args) ↔ ∀ t ∈ args, type t
  type_result {params : List Ty} {returns : Ty} {rest : Option Ty} :
    type (.fn params returns rest) → type returns
  type_member {t member : Ty} : type t → member ∈ t.members → type member
  type_union {s t : Ty} : type s → type t →
    (Ty.distinct (s.members ++ t.members)).length ≤ Ty.maxMembers →
    (Ty.distinct (s.members ++ t.members)).length ≠ 1 →
    type (.union (Ty.distinct (s.members ++ t.members)))
  firm_basic {t : Ty} : t.isBasic = true → firm t
  firm_element {element : Ty} : firm (.array element) → firm element
  firm_promise {t : Ty} : firm t → t.isPromise = false → firm (.promise t)

namespace Standard

/-- The standard that everything meets. -/
def anything : Standard where
  type _ := True
  firm _ := True
  type_any := trivial
  type_prim _ := trivial
  type_array := Iff.rfl
  type_generic := ⟨fun _ _ _ => trivial, fun _ => trivial⟩
  type_result _ := trivial
  type_member _ _ := trivial
  type_union _ _ _ _ := trivial
  firm_basic _ := trivial
  firm_element _ := trivial
  firm_promise _ _ := trivial

/-- A standard by which signatures may be guessed from parameters and results that may. -/
class Signs (std : Standard) : Prop where
  type_fn {params : List Ty} {returns : Ty} {rest : Option Ty} : (∀ t ∈ params, std.type t) →
    std.type returns → (∀ t, rest = some t → std.type t) → std.type (.fn params returns rest)

instance : Signs anything := ⟨fun _ _ _ => trivial⟩

variable (std : Standard)

/-- Each part of the estimate has a type that may be guessed, and one that may be held firmly if it
is held above what a signature is worth. -/
def Meets (e : Estimate) : Prop :=
  ∀ part ∈ e.parts,
    std.type part.type ∧ (Confidence.signatureMax < part.confidence → std.firm part.type)

theorem meets_anything (e : Estimate) : anything.Meets e := fun _ _ => ⟨trivial, fun _ => trivial⟩

variable {std} {e l r : Estimate} {t : Ty} {c : Confidence}

theorem meets_iff :
    std.Meets e ↔ std.type e.type ∧ (Confidence.signatureMax < e.confidence → std.firm e.type) ∧
      ∀ shape, e.shape = some shape → ∀ entry ∈ shape, std.Meets entry.2 := by
  constructor
  · intro h
    obtain ⟨htype, hfirm⟩ := h e (Estimate.mem_parts.2 (.inl rfl))
    refine ⟨htype, hfirm, fun shape hshape entry hentry part hpart => ?_⟩
    exact h part (Estimate.mem_parts.2 (.inr ⟨shape, hshape, entry, hentry, hpart⟩))
  · rintro ⟨htype, hfirm, hshape⟩ part hpart
    rcases Estimate.mem_parts.1 hpart with rfl | ⟨shape, heq, entry, hentry, hpart⟩
    · exact ⟨htype, hfirm⟩
    · exact hshape shape heq entry hentry part hpart

theorem Meets.type (h : std.Meets e) : std.type e.type := (meets_iff.1 h).1

theorem Meets.firm (h : std.Meets e) (hc : .signatureMax < e.confidence) : std.firm e.type :=
  (meets_iff.1 h).2.1 hc

theorem Meets.entry (h : std.Meets e) {shape : List (String × Estimate)}
    (hshape : e.shape = some shape) {entry : String × Estimate} (hentry : entry ∈ shape) :
    std.Meets entry.2 := (meets_iff.1 h).2.2 shape hshape entry hentry

theorem meets_of (ht : std.type t) (hf : .signatureMax < c → std.firm t) : std.Meets (.of t c) :=
  meets_iff.2 ⟨ht, hf, nofun⟩

theorem firm_of_modest (hc : c ≤ .signatureMax) (hlt : .signatureMax < c) : std.firm t :=
  absurd hc (not_le_of_gt hlt)

/-- An estimate that is held no more firmly than a signature. -/
theorem meets_modest (ht : std.type t) (hc : c ≤ .signatureMax) : std.Meets (.of t c) :=
  meets_of ht (firm_of_modest hc)

/-- The levels at which estimates are modest. -/
theorem meets_percent {n : Nat} (ht : std.type t) (hn : n ≤ 95) :
    std.Meets (.of t (.percent n)) := meets_modest ht (Confidence.percent_le_signatureMax hn)

theorem meets_unknown : std.Meets .unknown := meets_percent std.type_any (by decide)

theorem meets_unknownCall : std.Meets .unknownCall := meets_percent std.type_any (by decide)

theorem meets_prim (p : Primitive) (hp : (Ty.prim p).isBasic = true) (c : Confidence) :
    std.Meets (.of (.prim p) c) := meets_of (std.type_prim p) fun _ => std.firm_basic hp

theorem meets_getD {o : Option Estimate} (ho : ∀ e, o = some e → std.Meets e)
    (he : std.Meets e) : std.Meets (o.getD e) := by
  cases o with
  | none => exact he
  | some found => exact ho found rfl

/-! ## Tables of types -/

theorem mem_of_lookup {α : Type} [BEq α] {key : α} {table : List (α × Ty)}
    (h : table.lookup key = some t) : ∃ other, (other, t) ∈ table := by
  induction table with
  | nil => simp at h
  | cons entry table ih =>
    obtain ⟨other, type⟩ := entry
    rw [List.lookup_cons] at h
    split at h
    · cases h
      exact ⟨other, List.mem_cons_self⟩
    · obtain ⟨other, hmem⟩ := ih h
      exact ⟨other, List.mem_cons_of_mem _ hmem⟩

/-- What a table of types that may be guessed gives may be guessed. -/
theorem type_of_lookup {α : Type} [BEq α] {key : α} {table : List (α × Ty)}
    (htable : ∀ entry ∈ table, std.type entry.2) (h : table.lookup key = some t) : std.type t := by
  obtain ⟨other, hmem⟩ := mem_of_lookup h
  exact htable _ hmem

/-! ## Fading and properties -/

theorem Meets.withConfidence (h : std.Meets e) (hc : c ≤ .signatureMax) :
    std.Meets (e.withConfidence c) :=
  meets_iff.2 ⟨h.type, firm_of_modest hc, fun _ hshape _ => h.entry hshape⟩

theorem Meets.faded (h : std.Meets e) {n : Nat} (hn : n ≤ 95) : std.Meets (e.faded (.percent n)) :=
  h.withConfidence (Confidence.mul_percent_le_signatureMax hn)

theorem Meets.property? (h : std.Meets e) {name : String} {value : Estimate}
    (hv : e.property? name = some value) : std.Meets value := by
  obtain ⟨shape, hshape, hget⟩ := Option.bind_eq_some_iff.1 hv
  exact h.entry hshape (Entries.mem_of_get? hget)

theorem meets_member (h : std.Meets e) {name : String} {value : Estimate}
    (hv : Member.property? e name = some value) : std.Meets value := by
  have hlength : std.Meets (.of .number .certain) := meets_prim _ rfl _
  have hproperties : ∀ entry ∈ Builtin.genericProperties, std.type entry.2 := by
    simp [Builtin.genericProperties, std.type_prim]
  unfold Member.property? at hv
  split at hv
  · rename_i own hown
    cases hv
    exact h.property? hown
  · split at hv
    iterate 2
      · split at hv
        · cases hv
          exact hlength
        · cases hv
    · obtain ⟨type, hlookup, rfl⟩ := Option.map_eq_some_iff.1 hv
      exact meets_percent (type_of_lookup hproperties hlookup) (by decide)
    · cases hv

/-- The elements of an array are held like the array. -/
theorem Meets.element (h : std.Meets e) (ht : e.type = .array t) :
    std.Meets (.of t e.confidence) := by
  refine meets_of (std.type_array.1 (ht ▸ h.type)) fun hc => std.firm_element ?_
  exact ht ▸ h.firm hc

/-! ## Unions -/

/-- Two types that differ and are no unions. -/
theorem type_pair {s : Ty} (hs : std.type s) (ht : std.type t) (hms : s.members = [s])
    (hmt : t.members = [t]) (hne : s.same t = false) : std.type (.union [s, t]) := by
  have hbeq : (s == t) = false := hne
  have hdistinct : Ty.distinct (s.members ++ t.members) = [s, t] := by
    simp [hms, hmt, Ty.distinct, Ty.distinctOnto, hbeq]
  have hunion := std.type_union hs ht
  rw [hdistinct] at hunion
  exact hunion (show 2 ≤ 4 by decide) (show 2 ≠ 1 by decide)

theorem type_orUndefined (ht : std.type t) : std.type t.orUndefined := by
  unfold Ty.orUndefined
  dsimp only
  split
  · exact std.type_any
  · rename_i hmax
    split
    · rename_i hmany
      exact std.type_union ht (std.type_prim .undefined) (Nat.le_of_not_lt hmax)
        (Nat.ne_of_gt hmany)
    · exact ht

theorem meets_collapsed : std.Meets .collapsed := meets_percent std.type_any (by decide)

/-- A union is worth no more than a signature. -/
theorem union_le_signatureMax (c : Confidence) :
    max .unionMin (c * .unionDecay) ≤ Confidence.signatureMax :=
  max_le (Confidence.percent_le_signatureMax (by decide))
    (Confidence.mul_percent_le_signatureMax (by decide))

theorem meets_unionOf (hl : std.Meets l) (hr : std.Meets r) : std.Meets (l.unionOf r) := by
  have hsame : ∀ c : Confidence, c * .sameUnionDecay ≤ .signatureMax := fun c =>
    Confidence.mul_percent_le_signatureMax (by decide)
  unfold Estimate.unionOf
  split
  · exact meets_collapsed
  · dsimp only
    split
    · refine meets_iff.2 ⟨hl.type, firm_of_modest (hsame _), ?_⟩
      intro shape hshape entry hentry
      dsimp only at hshape
      split at hshape
      · exact hl.entry hshape hentry
      · cases hshape
    · split
      · exact meets_collapsed
      · rename_i hmax
        split
        · rename_i only honly
          have hmem : only ∈ l.type.members ++ r.type.members :=
            Ty.mem_distinct (honly ▸ List.mem_singleton_self only)
          refine meets_modest ?_ (hsame _)
          rcases List.mem_append.1 hmem with hmem | hmem
          · exact std.type_member hl.type hmem
          · exact std.type_member hr.type hmem
        · rename_i hmany
          refine meets_modest (std.type_union hl.type hr.type (by omega) ?_)
            (union_le_signatureMax _)
          intro hone
          obtain ⟨only, honly⟩ := List.length_eq_one_iff.1 hone
          exact hmany only honly

theorem meets_withUndefined (h : std.Meets e) : std.Meets e.withUndefined := by
  unfold Estimate.withUndefined
  dsimp only
  split
  · exact h
  · split
    · exact meets_collapsed
    · refine meets_modest (std.type_union h.type (std.type_prim .undefined) ?_ ‹_›)
        (union_le_signatureMax _)
      exact Nat.le_of_not_lt ‹_›

/-! ## Operators -/

theorem meets_unary? {operator : String} (h : Operator.unary? operator = some e) :
    std.Meets e := by
  unfold Operator.unary? at h
  repeat' split at h
  all_goals cases h
  all_goals exact meets_prim _ rfl _

theorem meets_binary (operator : String) (hl : std.Meets l) (hr : std.Meets r) :
    std.Meets (Operator.binary operator l r) := by
  unfold Operator.binary Operator.plus
  repeat' split
  · exact meets_unionOf hl hr
  iterate 4 · exact meets_prim _ rfl _
  · exact meets_percent std.type_any (by decide)
  · exact meets_unknownCall

/-! ## Promises -/

theorem type_promise : std.type (.promise t) ↔ std.type t := by
  simp [std.type_generic]

theorem meets_promiseOf (h : std.Meets e) : std.Meets (Typing.promiseOf e) :=
  meets_modest (type_promise.2 h.type) <|
    max_le (Confidence.percent_le_signatureMax (by decide))
      (Confidence.mul_percent_le_signatureMax (by decide))

theorem meets_unknownPromise : std.Meets Typing.unknownPromise :=
  meets_percent (type_promise.2 std.type_any) (by decide)

theorem meets_awaited (h : std.Meets e) : std.Meets (Typing.awaited e) := by
  unfold Typing.awaited
  split
  · rename_i inner hinner
    refine meets_modest ?_ (Confidence.mul_percent_le_signatureMax (by decide))
    have htype := h.type
    unfold Ty.promised? at hinner
    split at hinner
    · rename_i name args heq
      rw [heq, std.type_generic] at htype
      split at hinner
      · cases hinner
        cases args with
        | nil => exact std.type_any
        | cons first rest => exact htype first List.mem_cons_self
      · cases hinner
    · cases hinner
  · exact h

/-- What an asynchronous function returns is held like what its body does. -/
theorem meets_asynchronous (h : std.Meets e) (isAsync : Bool) :
    std.Meets (if isAsync && !e.type.isPromise then .of (.promise e.type) e.confidence else e) := by
  split
  · rename_i hwrap
    refine meets_of (type_promise.2 h.type) fun hc => std.firm_promise (h.firm hc) ?_
    simp only [Bool.and_eq_true, Bool.not_eq_true'] at hwrap
    exact hwrap.2
  · exact h

/-! ## Arrays and methods -/

theorem type_usableType {o : Option Estimate} (h : ∀ e, o = some e → std.Meets e) :
    std.type (Estimate.usableType o) := by
  unfold Estimate.usableType
  split
  · rename_i e
    split
    · exact std.type_any
    · exact (h e rfl).type
  · exact std.type_any

theorem meets_arrayOf {elements : List Estimate} (h : ∀ e ∈ elements, std.Meets e) :
    std.Meets (Typing.arrayOf elements) := by
  have hany : std.type (.array .any) := std.type_array.2 std.type_any
  unfold Typing.arrayOf
  split
  · exact meets_percent hany (by decide)
  · rename_i first rest
    split
    · exact meets_percent (std.type_array.2 (h first List.mem_cons_self).type) (by decide)
    · exact meets_percent hany (by decide)

theorem type_genericMethod? {type method : String}
    (h : Member.genericMethod? type method = some t) : std.type t := by
  have hexec : std.type (.union [.generic "RegExpExecArray" [], .null]) :=
    type_pair (std.type_generic.2 (by simp)) (std.type_prim _) rfl rfl (by simp [Ty.same])
  have hmethods : ∀ entry ∈ Builtin.genericMethods, std.type entry.2 := by
    simp [Builtin.genericMethods, Builtin.mapType, Builtin.setType, std.type_prim, std.type_any,
      std.type_array, std.type_generic]
  unfold Member.genericMethod? at h
  repeat' split at h
  · cases h
    exact hexec
  · cases h
    exact std.type_prim _
  · exact type_of_lookup hmethods h

theorem type_stringMethod (method : String) :
    std.type ((Builtin.stringMethods.lookup method).getD .string) := by
  have hmatch : std.type (.union [.array .string, .null]) :=
    type_pair (std.type_array.2 (std.type_prim _)) (std.type_prim _) rfl rfl (by simp [Ty.same])
  have hmethods : ∀ entry ∈ Builtin.stringMethods, std.type entry.2 := by
    simp [Builtin.stringMethods, std.type_prim, std.type_array, hmatch]
  cases h : Builtin.stringMethods.lookup method with
  | none => exact std.type_prim _
  | some t => exact type_of_lookup hmethods h

theorem type_numberMethod {method : String} (h : Builtin.numberMethods.lookup method = some t) :
    std.type t := by
  refine type_of_lookup (fun entry hentry => ?_) h
  simp only [Builtin.numberMethods] at hentry
  revert entry
  simp [std.type_prim]

/-- What a method returns is held no more firmly than its receiver, and modestly. -/
theorem meets_method {o : Option Ty} (ho : ∀ t, o = some t → std.type t) {value : Estimate}
    (h : (o.bind fun type => if type.isAny then none
      else some (.of type (min .methodReturn e.confidence))) = some value) : std.Meets value := by
  obtain ⟨type, htype, hvalue⟩ := Option.bind_eq_some_iff.1 h
  split at hvalue
  · cases hvalue
  · cases hvalue
    exact meets_modest (ho type htype) (le_trans (min_le_left _ _)
      (Confidence.percent_le_signatureMax (by decide)))

/-! ## Calls and members -/

theorem meets_calledResult? (h : std.Meets e) {value : Estimate}
    (hv : Typing.calledResult? e = some value) : std.Meets value := by
  unfold Typing.calledResult? at hv
  split at hv
  · rename_i heq
    cases hv
    have htype := h.type
    rw [heq] at htype
    exact meets_modest (std.type_result htype) (Confidence.mul_percent_le_signatureMax (by decide))
  · cases hv

theorem meets_throughChain (n : Node) (h : std.Meets e) : std.Meets (Typing.throughChain n e) := by
  unfold Typing.throughChain
  split
  · exact meets_withUndefined h
  · exact h

theorem meets_indexed (h : std.Meets e) (index : Option Node) :
    std.Meets (Typing.indexed e index) := by
  unfold Typing.indexed
  split
  · exact h.element ‹_›
  · exact meets_prim _ rfl _
  · split
    · split
      · refine meets_getD (fun value hvalue => ?_) meets_unknown
        obtain ⟨name, -, hmember⟩ := Option.bind_eq_some_iff.1 hvalue
        exact meets_member h hmember
      · exact meets_unknown
    · exact meets_unknown

theorem meets_elementOf (h : std.Meets e) {value : Estimate}
    (hv : Typing.elementOf e = some value) : std.Meets value := by
  obtain ⟨element, helement, rfl⟩ := Option.map_eq_some_iff.1 hv
  unfold Ty.element? at helement
  split at helement
  · rename_i heq
    cases helement
    exact h.element heq
  · cases helement

end Standard

end ScriptTypes
