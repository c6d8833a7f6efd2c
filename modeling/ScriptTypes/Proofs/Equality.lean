import Mathlib.Data.List.Forall2
import ScriptTypes.Proofs.Unions

/-!
# Equality is an equivalence

Types are compared with unions taken as sets, and estimates with shapes taken as maps, at any depth.
Equality of types is an equivalence, so that types can be counted by the classes of equal ones, and
so is equality of estimates. All ways to build types and estimates respect it.

* `Ty.same_refl`, `Ty.same_trans`: with `Ty.same_comm`, equality of types is an equivalence.
* `Ty.classOf_eq_iff`: the classes of equal types.
* `Ty.mem_classes_distinct`, `Ty.nodup_classes_distinct`: the distinct types of a list have each of
  its classes once.
* `Ty.same_union_iff`: unions are equal when their members have the same classes.
* `Estimate.same_refl`, `Estimate.same_comm`, `Estimate.same_trans`: equality of estimates is an
  equivalence.
* `equality_congruent`: both equalities, with the rule for each way to build a value.
-/

namespace ScriptTypes

namespace Ty

/-! ## Types -/

mutual

theorem same_refl : ∀ t : Ty, same t t = true
  | .any => by simp [same]
  | .prim p => by simp [same]
  | .array a => by simp [same, same_refl a]
  | .generic n as => by simp [same, sameAll_refl as]
  | .fn ps r x => by simp [same, sameAll_refl ps, same_refl r, sameRest_refl x]
  | .union as => by
    have hself : ∀ a ∈ as, same a a = true := same_refl_of_mem as
    rw [same_union, Bool.and_eq_true, List.all_eq_true, List.all_eq_true]
    exact ⟨fun a ha => List.any_eq_true.2 ⟨a, ha, hself a ha⟩,
      fun a ha => List.any_eq_true.2 ⟨a, ha, hself a ha⟩⟩

theorem sameAll_refl : ∀ ts : List Ty, sameAll ts ts = true
  | [] => by simp [sameAll]
  | t :: ts => by simp [sameAll, same_refl t, sameAll_refl ts]

theorem sameRest_refl : ∀ x : Option Ty, sameRest x x = true
  | none => by simp [sameRest]
  | some t => by simp [sameRest, same_refl t]

theorem same_refl_of_mem : ∀ ts : List Ty, ∀ t ∈ ts, same t t = true
  | [], _, h => nomatch h
  | first :: ts, t, h => by
    rcases List.mem_cons.1 h with heq | h
    · rw [heq]
      exact same_refl first
    · exact same_refl_of_mem ts t h

end

mutual

theorem same_trans : ∀ a b c : Ty, same a b = true → same b c = true → same a c = true
  | .any, b, c => by
    cases b with
    | any => exact fun _ h => h
    | _ => simp [same]
  | .prim p, b, c => by
    cases b with
    | prim q =>
      intro hpq h
      have hpq : p = q := by simpa [same] using hpq
      rw [hpq]
      exact h
    | _ => simp [same]
  | .array a, b, c => by
    cases b with
    | array b =>
      cases c with
      | array c => simpa only [same] using same_trans a b c
      | _ => simp [same]
    | _ => simp [same]
  | .generic n as, b, c => by
    cases b with
    | generic m bs =>
      cases c with
      | generic k cs =>
        simp only [same, Bool.and_eq_true, decide_eq_true_eq]
        exact fun hab hbc => ⟨hab.1.trans hbc.1, sameAll_trans as bs cs hab.2 hbc.2⟩
      | _ => simp [same]
    | _ => simp [same]
  | .fn ps r x, b, c => by
    cases b with
    | fn qs s y =>
      cases c with
      | fn us t z =>
        simp only [same, Bool.and_eq_true]
        exact fun hab hbc => ⟨⟨sameAll_trans ps qs us hab.1.1 hbc.1.1,
          same_trans r s t hab.1.2 hbc.1.2⟩, sameRest_trans x y z hab.2 hbc.2⟩
      | _ => simp [same]
    | _ => simp [same]
  | .union as, b, c => by
    cases b with
    | union bs =>
      cases c with
      | union cs =>
        have hmembers := same_trans_of_mem as
        simp only [same_union, Bool.and_eq_true, List.all_eq_true, List.any_eq_true]
        rintro ⟨hab, hba⟩ ⟨hbc, hcb⟩
        constructor
        · intro a ha
          obtain ⟨b, hb, hsame⟩ := hab a ha
          obtain ⟨c, hc, hsame'⟩ := hbc b hb
          exact ⟨c, hc, hmembers a ha b c hsame hsame'⟩
        · intro c hc
          obtain ⟨b, hb, hsame'⟩ := hcb c hc
          obtain ⟨a, ha, hsame⟩ := hba b hb
          exact ⟨a, ha, hmembers a ha b c hsame hsame'⟩
      | _ => simp [same]
    | _ => simp [same]

theorem sameAll_trans : ∀ as bs cs : List Ty, sameAll as bs = true → sameAll bs cs = true →
    sameAll as cs = true
  | [], bs, cs => by
    cases bs with
    | nil => exact fun _ h => h
    | cons b bs => simp [sameAll]
  | a :: as, bs, cs => by
    cases bs with
    | nil => simp [sameAll]
    | cons b bs =>
      cases cs with
      | nil => simp [sameAll]
      | cons c cs =>
        simp only [sameAll, Bool.and_eq_true]
        exact fun hab hbc => ⟨same_trans a b c hab.1 hbc.1, sameAll_trans as bs cs hab.2 hbc.2⟩

theorem sameRest_trans : ∀ x y z : Option Ty, sameRest x y = true → sameRest y z = true →
    sameRest x z = true
  | none, y, z => by
    cases y with
    | none => exact fun _ h => h
    | some b => simp [sameRest]
  | some a, y, z => by
    cases y with
    | none => simp [sameRest]
    | some b =>
      cases z with
      | none => simp [sameRest]
      | some c => simpa only [sameRest] using same_trans a b c

theorem same_trans_of_mem : ∀ as : List Ty, ∀ a ∈ as, ∀ b c, same a b = true →
    same b c = true → same a c = true
  | [], _, h, _, _ => nomatch h
  | first :: as, a, h, b, c => by
    rcases List.mem_cons.1 h with heq | h
    · rw [heq]
      exact same_trans first b c
    · exact same_trans_of_mem as a h b c

end

instance : EquivBEq Ty where
  rfl := same_refl _
  symm h := (same_comm _ _).trans h
  trans := same_trans _ _ _

/-! ## Classes of equal types -/

/-- Types, with equality for the relation. -/
def equality : Setoid Ty where
  r s t := s.same t = true
  iseqv := ⟨same_refl, fun h => (same_comm _ _).trans h, same_trans _ _ _⟩

/-- The class of the types that equal a type. -/
def classOf (t : Ty) : Quotient equality := Quotient.mk equality t

theorem classOf_eq_iff {s t : Ty} : classOf s = classOf t ↔ (s == t) = true := Quotient.eq

theorem classOf_mem_iff {t : Ty} {ts : List Ty} :
    classOf t ∈ ts.map classOf ↔ ts.any (· == t) = true := by
  simp only [List.mem_map, classOf_eq_iff, List.any_eq_true]

theorem mem_classes_distinctOnto {c : Quotient equality} {seen ts : List Ty} :
    c ∈ (distinctOnto seen ts).map classOf ↔ c ∈ seen.map classOf ∨ c ∈ ts.map classOf := by
  induction ts generalizing seen with
  | nil => simp [distinctOnto]
  | cons t ts ih =>
    unfold distinctOnto
    split
    · rename_i hseen
      rw [ih, List.map_cons, List.mem_cons]
      refine ⟨Or.imp_right .inr, ?_⟩
      rintro (h | rfl | h)
      · exact .inl h
      · exact .inl (classOf_mem_iff.2 hseen)
      · exact .inr h
    · rw [ih, List.map_append, List.mem_append, List.map_cons, List.mem_cons, or_assoc]
      simp

/-- The distinct types of a list have the classes that the list has. -/
theorem mem_classes_distinct {c : Quotient equality} {ts : List Ty} :
    c ∈ (distinct ts).map classOf ↔ c ∈ ts.map classOf := by
  simp [distinct, mem_classes_distinctOnto]

/-- They have each class once. -/
theorem nodup_classes_distinct (ts : List Ty) : ((distinct ts).map classOf).Nodup := by
  refine List.pairwise_map.2 ((pairwise_distinct ts).imp fun h heq => ?_)
  rw [classOf_eq_iff, h.1] at heq
  cases heq

theorem classes_subset_iff {as bs : List Ty} :
    as.map classOf ⊆ bs.map classOf ↔ ∀ a ∈ as, ∃ b ∈ bs, (a == b) = true := by
  constructor
  · intro h a ha
    obtain ⟨b, hb, heq⟩ := List.mem_map.1 (h (List.mem_map_of_mem ha))
    exact ⟨b, hb, classOf_eq_iff.1 heq.symm⟩
  · intro h c hc
    obtain ⟨a, ha, rfl⟩ := List.mem_map.1 hc
    obtain ⟨b, hb, hab⟩ := h a ha
    exact List.mem_map.2 ⟨b, hb, (classOf_eq_iff.2 hab).symm⟩

/-- Unions are equal when their members have the same classes. -/
theorem same_union_iff {as bs : List Ty} :
    (Ty.union as == Ty.union bs) = true ↔ ∀ c, c ∈ as.map classOf ↔ c ∈ bs.map classOf := by
  have hsets : (Ty.union as == Ty.union bs) = true ↔
      as.map classOf ⊆ bs.map classOf ∧ bs.map classOf ⊆ as.map classOf := by
    rw [show (Ty.union as == Ty.union bs) = same (.union as) (.union bs) from rfl, same_union,
      Bool.and_eq_true, List.all_eq_true, List.all_eq_true, classes_subset_iff, classes_subset_iff]
    simp only [List.any_eq_true]
    refine and_congr_right fun _ => forall₂_congr fun b _ => exists_congr fun a => ?_
    rw [show (b == a) = same b a from rfl, same_comm]
  rw [hsets]
  exact ⟨fun h c => ⟨fun hc => h.1 hc, fun hc => h.2 hc⟩,
    fun h => ⟨fun c => (h c).1, fun c => (h c).2⟩⟩

/-! ## Equality part by part -/

theorem sameAll_iff {as bs : List Ty} :
    sameAll as bs = true ↔ List.Forall₂ (fun a b => (a == b) = true) as bs := by
  induction as generalizing bs with
  | nil => cases bs <;> simp [sameAll]
  | cons a as ih =>
    cases bs with
    | nil => simp [sameAll]
    | cons b bs => rw [sameAll, Bool.and_eq_true, ih, List.forall₂_cons]; rfl

theorem sameRest_iff {x y : Option Ty} :
    sameRest x y = true ↔ Option.Rel (fun a b => (a == b) = true) x y := by
  cases x <;> cases y <;> simp [sameRest]
  rfl

/-- Unions are equal when each member of one equals some member of the other, and conversely. -/
theorem same_union_iff_members {as bs : List Ty} :
    (Ty.union as == Ty.union bs) = true ↔
      (∀ a ∈ as, ∃ b ∈ bs, (a == b) = true) ∧ ∀ b ∈ bs, ∃ a ∈ as, (b == a) = true := by
  rw [same_union_iff, ← classes_subset_iff, ← classes_subset_iff]
  exact ⟨fun h => ⟨fun c => (h c).1, fun c => (h c).2⟩,
    fun h c => ⟨fun hc => h.1 hc, fun hc => h.2 hc⟩⟩

end Ty

namespace Estimate

/-! ## Estimates -/

mutual

/-- Equality of estimates is reflexive. -/
theorem same_refl : ∀ e : Estimate, same e e = true
  | ⟨t, c, p⟩ => by simp [same, sameShape_refl p]

theorem sameShape_refl : ∀ p : Option (List (String × Estimate)), sameShape p p = true
  | none => by simp [sameShape]
  | some as => by
    have hvalues := same_refl_of_mem as
    rw [sameShape_iff]
    intro name
    cases ha : Entries.get? as name with
    | none => exact .none
    | some value => exact .some (hvalues _ (Entries.mem_of_get? ha))

theorem same_refl_of_mem : ∀ entries : List (String × Estimate), ∀ entry ∈ entries,
    same entry.2 entry.2 = true
  | [], _, h => nomatch h
  | (_, value) :: entries, entry, h => by
    rcases List.mem_cons.1 h with heq | h
    · rw [heq]
      exact same_refl value
    · exact same_refl_of_mem entries entry h

end

mutual

/-- Equality of estimates is symmetric. -/
theorem same_comm : ∀ a b : Estimate, same a b = same b a
  | ⟨s, c, p⟩, ⟨t, d, q⟩ => by
    have htypes : (s == t) = (t == s) := Ty.same_comm s t
    have hconfidences : decide (c = d) = decide (d = c) := decide_eq_decide.2 eq_comm
    rw [same, same, htypes, hconfidences, sameShape_comm p q]

theorem sameShape_comm : ∀ p q : Option (List (String × Estimate)), sameShape p q = sameShape q p
  | none, none => rfl
  | none, some _ => by simp [sameShape]
  | some _, none => by simp [sameShape]
  | some as, some bs => by
    have hvalues := same_comm_of_mem as
    rw [Bool.eq_iff_iff, sameShape_iff, sameShape_iff]
    refine forall_congr' fun name => ?_
    cases ha : Entries.get? as name with
    | none =>
      cases Entries.get? bs name <;> simp
    | some value =>
      have hvalue := hvalues _ (Entries.mem_of_get? ha)
      cases Entries.get? bs name with
      | none => simp
      | some other => simp [hvalue other]

theorem same_comm_of_mem : ∀ entries : List (String × Estimate), ∀ entry ∈ entries, ∀ e : Estimate,
    same entry.2 e = same e entry.2
  | [], _, h, _ => nomatch h
  | (_, value) :: entries, entry, h, e => by
    rcases List.mem_cons.1 h with heq | h
    · rw [heq]
      exact same_comm value e
    · exact same_comm_of_mem entries entry h e

end

/-- Estimates are equal when their types are, the confidences are the same, and both have no shape
or shapes that are equal as maps. -/
theorem same_iff {a b : Estimate} :
    (a == b) = true ↔ (a.type == b.type) = true ∧ a.confidence = b.confidence ∧
      Option.Rel (fun p q => ∀ name,
        Option.Rel (fun x y => (x == y) = true) (Entries.get? p name) (Entries.get? q name))
        a.shape b.shape := by
  obtain ⟨s, c, p⟩ := a
  obtain ⟨t, d, q⟩ := b
  have hshape : sameShape p q = true ↔ Option.Rel (fun p q => ∀ name,
      Option.Rel (fun x y => (x == y) = true) (Entries.get? p name) (Entries.get? q name)) p q := by
    cases p with
    | none => cases q <;> simp [sameShape]
    | some as =>
      cases q with
      | none => simp [sameShape]
      | some bs =>
        rw [Option.rel_some_some]
        exact sameShape_iff as bs
  show same ⟨s, c, p⟩ ⟨t, d, q⟩ = true ↔ _
  rw [same, Bool.and_eq_true, Bool.and_eq_true, decide_eq_true_iff, hshape, and_assoc]

mutual

/-- Equality of estimates is transitive. -/
theorem same_trans : ∀ a b c : Estimate, same a b = true → same b c = true → same a c = true
  | ⟨r, x, p⟩, ⟨s, y, q⟩, ⟨t, z, u⟩ => by
    simp only [same, Bool.and_eq_true, decide_eq_true_eq]
    rintro ⟨⟨htype, hconfidence⟩, hshape⟩ ⟨⟨htype', hconfidence'⟩, hshape'⟩
    exact ⟨⟨Ty.same_trans r s t htype htype', hconfidence.trans hconfidence'⟩,
      sameShape_trans p q u hshape hshape'⟩

theorem sameShape_trans : ∀ p q u : Option (List (String × Estimate)), sameShape p q = true →
    sameShape q u = true → sameShape p u = true
  | none, q, u => by
    intro hab hbc
    cases q with
    | none => exact hbc
    | some bs => simp [sameShape] at hab
  | some as, q, u => by
    cases q with
    | none =>
      intro hab
      simp [sameShape] at hab
    | some bs =>
      cases u with
      | none => simp [sameShape]
      | some cs =>
        have hvalues := same_trans_of_mem as
        rw [sameShape_iff, sameShape_iff, sameShape_iff]
        intro hab hbc name
        have hab := hab name
        have hbc := hbc name
        cases ha : Entries.get? as name with
        | none =>
          rw [ha] at hab
          cases hb : Entries.get? bs name with
          | none => rwa [hb] at hbc
          | some y =>
            rw [hb] at hab
            cases hab
        | some x =>
          rw [ha] at hab
          obtain ⟨y, hb, hxy⟩ := rel_some hab rfl
          obtain ⟨z, hc, hyz⟩ := rel_some hbc hb
          rw [hc]
          exact .some (hvalues _ (Entries.mem_of_get? ha) y z hxy hyz)

theorem same_trans_of_mem : ∀ entries : List (String × Estimate), ∀ entry ∈ entries,
    ∀ b c : Estimate, same entry.2 b = true → same b c = true → same entry.2 c = true
  | [], _, h, _, _ => nomatch h
  | (_, value) :: entries, entry, h, b, c => by
    rcases List.mem_cons.1 h with heq | h
    · rw [heq]
      exact same_trans value b c
    · exact same_trans_of_mem entries entry h b c

end

end Estimate

/-- Equality of types is an equivalence, and values built alike are equal exactly when their parts
are: unions regardless of the order and the repetition of their members. Equality of estimates is an
equivalence, with properties compared as maps. -/
theorem equality_congruent :
    Equivalence (fun s t : Ty => (s == t) = true) ∧
    (∀ a b : Ty, (Ty.array a == Ty.array b) = true ↔ (a == b) = true) ∧
    (∀ (name other : String) (as bs : List Ty),
      (Ty.generic name as == Ty.generic other bs) = true ↔
        name = other ∧ List.Forall₂ (fun a b => (a == b) = true) as bs) ∧
    (∀ (params others : List Ty) (returns result : Ty) (rest last : Option Ty),
      (Ty.fn params returns rest == Ty.fn others result last) = true ↔
        List.Forall₂ (fun a b => (a == b) = true) params others ∧ (returns == result) = true ∧
          Option.Rel (fun a b => (a == b) = true) rest last) ∧
    (∀ as bs : List Ty, (Ty.union as == Ty.union bs) = true ↔
      (∀ a ∈ as, ∃ b ∈ bs, (a == b) = true) ∧ ∀ b ∈ bs, ∃ a ∈ as, (b == a) = true) ∧
    (∀ as bs cs : List Ty, List.Forall₂ (fun a b => (a == b) = true) as bs →
      (∀ t, t ∈ cs ↔ t ∈ bs) → (Ty.union as == Ty.union cs) = true) ∧
    Equivalence (fun a b : Estimate => (a == b) = true) ∧
    ∀ a b : Estimate, (a == b) = true ↔
      (a.type == b.type) = true ∧ a.confidence = b.confidence ∧
        Option.Rel (fun p q => ∀ name,
          Option.Rel (fun x y => (x == y) = true) (Entries.get? p name) (Entries.get? q name))
          a.shape b.shape := by
  refine ⟨Ty.equality.iseqv, fun a b => ?_, fun name other as bs => ?_,
    fun params others returns result rest last => ?_, fun as bs => Ty.same_union_iff_members,
    fun as bs cs hparts hmembers => ?_, ?_, fun a b => Estimate.same_iff⟩
  · show Ty.same (.array a) (.array b) = true ↔ _
    rw [Ty.same]
    rfl
  · show Ty.same (.generic name as) (.generic other bs) = true ↔ _
    rw [Ty.same, Bool.and_eq_true, decide_eq_true_iff, Ty.sameAll_iff]
  · show Ty.same (.fn params returns rest) (.fn others result last) = true ↔ _
    rw [Ty.same, Bool.and_eq_true, Bool.and_eq_true, Ty.sameAll_iff, Ty.sameRest_iff, and_assoc]
    rfl
  · -- The classes of the members say it all, and order and repetition do not change these.
    have hclasses : as.map Ty.classOf = bs.map Ty.classOf :=
      List.forall₂_eq_eq_eq ▸ List.forall₂_map_left_iff.2
        (List.forall₂_map_right_iff.2 (hparts.imp fun a b h => Ty.classOf_eq_iff.2 h))
    rw [Ty.same_union_iff]
    intro c
    rw [hclasses]
    simp only [List.mem_map, hmembers]
  · exact ⟨Estimate.same_refl, fun {a b} h => (Estimate.same_comm b a).trans h,
      fun {a b c} => Estimate.same_trans a b c⟩

/-- Arrays of numbers or texts, or null: members in another order and repeated, also further
inside. -/
theorem equality_congruent_nested :
    let numbers := Ty.array (.union [.number, .string])
    let texts := Ty.array (.union [.string, .number, .string])
    List.Forall₂ (fun a b => (a == b) = true) [numbers, .null] [texts, .null] ∧
      (∀ t, t ∈ [Ty.null, texts, .null] ↔ t ∈ [texts, .null]) ∧
      (Ty.union [numbers, .null] == Ty.union [.null, texts, .null]) = true := by
  intro numbers texts
  have hinside : (Ty.union [.number, .string] == Ty.union [.string, .number, .string]) = true := by
    decide +kernel
  have hparts : List.Forall₂ (fun a b => (a == b) = true) [numbers, .null] [texts, .null] :=
    .cons ((equality_congruent.2.1 _ _).2 hinside) (.cons (equality_congruent.1.refl _) .nil)
  have hmembers : ∀ t, t ∈ [Ty.null, texts, .null] ↔ t ∈ [texts, .null] := by
    intro t
    simp only [List.mem_cons, List.not_mem_nil, or_false]
    exact ⟨fun h => h.elim .inr id, .inr⟩
  exact ⟨hparts, hmembers, equality_congruent.2.2.2.2.2.1 _ _ _ hparts hmembers⟩

end ScriptTypes
