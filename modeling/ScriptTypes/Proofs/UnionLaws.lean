import Mathlib.Data.List.Infix
import ScriptTypes.Proofs.Equality

/-!
# Laws of unions

What the union of two estimates is: the same for both orders of the sides, the distinct members of
both sides where they first occur, and held no more firmly than either side. A value that may be
undefined is the union with `undefined`.

* `Ty.firsts`: the types of a list that equal none before them.
* `Ty.distinct_eq_firsts`: these are the distinct types of the list.
* `Ty.classes_distinct_perm`: two lists put together in either order have the same distinct types.
* `Estimate.unionOf_comm`: the order of the sides of a union does not count.
* `Estimate.union_laws`: all laws together.
-/

namespace ScriptTypes

/-! ## Distinct members -/

namespace Ty

/-- The types of a list that equal none before them. -/
def firsts (ts : List Ty) : List Ty :=
  ((ts.inits.zip ts).filter fun p => !p.1.any (· == p.2)).map Prod.snd

/-- What is added to the types already seen, if these have the classes of all that came before. -/
theorem distinctOnto_eq {seen before : List Ty}
    (hseen : ∀ c, c ∈ seen.map classOf ↔ c ∈ before.map classOf) (ts : List Ty) :
    distinctOnto seen ts =
      seen ++ ((ts.inits.zip ts).filter fun p => !(before ++ p.1).any (· == p.2)).map Prod.snd := by
  induction ts generalizing seen before with
  | nil => simp [distinctOnto]
  | cons t ts ih =>
    have hfirst : (before ++ []).any (· == t) = seen.any (· == t) := by
      rw [List.append_nil, Bool.eq_iff_iff, ← classOf_mem_iff, ← classOf_mem_iff, hseen]
    rw [distinctOnto, List.inits_cons, List.zip_cons_cons, List.zip_map_left, List.filter_cons,
      hfirst, List.filter_map]
    by_cases h : seen.any (· == t) = true
    · have hnext : ∀ c, c ∈ seen.map classOf ↔ c ∈ (before ++ [t]).map classOf := by
        intro c
        rw [List.map_append, List.mem_append, ← hseen, List.map_singleton, List.mem_singleton]
        refine ⟨.inl, ?_⟩
        rintro (hc | rfl)
        · exact hc
        · exact classOf_mem_iff.2 h
      rw [if_pos h, ih hnext]
      simp [h, Function.comp_def]
    · have hnext : ∀ c, c ∈ (seen ++ [t]).map classOf ↔ c ∈ (before ++ [t]).map classOf := by
        intro c
        rw [List.map_append, List.map_append, List.mem_append, List.mem_append, hseen]
      rw [if_neg h, ih hnext]
      simp [h, Function.comp_def]

theorem distinct_eq_firsts (ts : List Ty) : distinct ts = firsts ts :=
  @distinctOnto_eq [] [] (fun _ => Iff.rfl) ts

/-- Two lists put together in either order have the same distinct types. -/
theorem classes_distinct_perm (as bs : List Ty) :
    ((distinct (as ++ bs)).map classOf).Perm ((distinct (bs ++ as)).map classOf) := by
  refine (List.perm_ext_iff_of_nodup (nodup_classes_distinct _) (nodup_classes_distinct _)).2 ?_
  intro c
  rw [mem_classes_distinct, mem_classes_distinct, List.map_append, List.map_append,
    List.mem_append, List.mem_append, or_comm]

/-- If only one type of a list is distinct, all types of the list equal it. -/
theorem classOf_eq_of_distinct {ts : List Ty} {only t : Ty} (h : distinct ts = [only])
    (ht : t ∈ ts) : classOf t = classOf only := by
  have hmem := mem_classes_distinct.2 (List.mem_map_of_mem ht)
  rw [h] at hmem
  exact List.mem_singleton.1 hmem

theorem length_distinct_comm (as bs : List Ty) :
    (distinct (as ++ bs)).length = (distinct (bs ++ as)).length := by
  simpa using (classes_distinct_perm as bs).length_eq

end Ty

/-! ## Unions of estimates -/

namespace Estimate

variable {l r : Estimate}

theorem same_of_iff {s t : Ty} {c : Confidence} :
    (of s c == of t c) = true ↔ (s == t) = true := by
  show same (of s c) (of t c) = true ↔ _
  simp [same, sameShape]

theorem unionOf_weak (h : l.confidence < .unionMin ∨ r.confidence < .unionMin) :
    l.unionOf r = collapsed := by
  rw [unionOf, if_pos h]

section

variable (hl : .unionMin ≤ l.confidence) (hr : .unionMin ≤ r.confidence)

include hl hr

theorem not_weak : ¬(l.confidence < .unionMin ∨ r.confidence < .unionMin) :=
  not_or.2 ⟨not_lt_of_ge hl, not_lt_of_ge hr⟩

theorem unionOf_same (h : (l.type == r.type) = true) :
    l.unionOf r = ⟨l.type, min l.confidence r.confidence * .sameUnionDecay,
      if sameShape l.shape r.shape then l.shape else none⟩ := by
  rw [unionOf, if_neg (not_weak hl hr), if_pos h]

variable (hne : (l.type == r.type) = false)

include hne

theorem unionOf_many
    (h : Ty.maxMembers < (Ty.distinct (l.type.members ++ r.type.members)).length) :
    l.unionOf r = collapsed := by
  simp only [unionOf, if_neg (not_weak hl hr), hne, Bool.false_eq_true, if_false, if_pos h]

theorem unionOf_only {only : Ty} (h : Ty.distinct (l.type.members ++ r.type.members) = [only]) :
    l.unionOf r = of only (min l.confidence r.confidence * .sameUnionDecay) := by
  have hmax : ¬Ty.maxMembers < [only].length := show ¬4 < 1 by decide
  simp only [unionOf, if_neg (not_weak hl hr), hne, Bool.false_eq_true, if_false, h, if_neg hmax]

theorem unionOf_several
    (hmax : (Ty.distinct (l.type.members ++ r.type.members)).length ≤ Ty.maxMembers)
    (hone : (Ty.distinct (l.type.members ++ r.type.members)).length ≠ 1) :
    l.unionOf r = of (.union (Ty.distinct (l.type.members ++ r.type.members)))
      (max .unionMin (min l.confidence r.confidence * .unionDecay)) := by
  simp only [unionOf, if_neg (not_weak hl hr), hne, Bool.false_eq_true, if_false,
    if_neg (Nat.not_lt_of_le hmax)]
  split
  · rename_i only heq
    simp [heq] at hone
  · rfl

end

theorem firm_of_not_weak (h : ¬(l.confidence < .unionMin ∨ r.confidence < .unionMin)) :
    .unionMin ≤ l.confidence ∧ .unionMin ≤ r.confidence :=
  ⟨not_lt.1 fun hl => h (.inl hl), not_lt.1 fun hr => h (.inr hr)⟩

/-- The order of the sides does not count. -/
theorem unionOf_comm (l r : Estimate) : (l.unionOf r == r.unionOf l) = true := by
  by_cases hweak : l.confidence < .unionMin ∨ r.confidence < .unionMin
  · rw [unionOf_weak hweak, unionOf_weak hweak.symm]
    exact same_of_iff.2 BEq.rfl
  obtain ⟨hl, hr⟩ := firm_of_not_weak hweak
  have hmin := min_comm r.confidence l.confidence
  cases htypes : l.type == r.type with
  | true =>
    rw [unionOf_same hl hr htypes, unionOf_same hr hl (BEq.symm htypes), hmin,
      sameShape_comm r.shape]
    show same _ _ = true
    rw [same, htypes]
    by_cases hshapes : sameShape l.shape r.shape = true
    · simp [hshapes]
    · simp [hshapes, sameShape]
  | false =>
    have htypes' : (r.type == l.type) = false := by rw [BEq.comm, htypes]
    have hperm := Ty.classes_distinct_perm l.type.members r.type.members
    have hlength := Ty.length_distinct_comm l.type.members r.type.members
    by_cases hmany : Ty.maxMembers < (Ty.distinct (l.type.members ++ r.type.members)).length
    · rw [unionOf_many hl hr htypes hmany, unionOf_many hr hl htypes' (hlength ▸ hmany)]
      exact same_of_iff.2 BEq.rfl
    by_cases hone : (Ty.distinct (l.type.members ++ r.type.members)).length = 1
    · obtain ⟨only, honly⟩ := List.length_eq_one_iff.1 hone
      obtain ⟨other, hother⟩ := List.length_eq_one_iff.1 (hlength ▸ hone)
      rw [unionOf_only hl hr htypes honly, unionOf_only hr hl htypes' hother, hmin]
      rw [honly, hother] at hperm
      exact same_of_iff.2 (Ty.classOf_eq_iff.1 (by simpa using hperm))
    · rw [unionOf_several hl hr htypes (Nat.le_of_not_lt hmany) hone,
        unionOf_several hr hl htypes' (hlength ▸ Nat.le_of_not_lt hmany) (hlength ▸ hone), hmin]
      exact same_of_iff.2 (Ty.same_union_iff.2 fun c => hperm.mem_iff)

/-- A union of firm sides is held no more firmly than either of them. -/
theorem confidence_unionOf_le (hl : .unionMin ≤ l.confidence) (hr : .unionMin ≤ r.confidence) :
    (l.unionOf r).confidence ≤ min l.confidence r.confidence := by
  have hfirm : .unionMin ≤ min l.confidence r.confidence := le_min hl hr
  have hcollapsed : collapsed.confidence ≤ min l.confidence r.confidence :=
    le_trans (show Confidence.percent 30 ≤ .percent 70 by decide +kernel) hfirm
  cases htypes : l.type == r.type with
  | true =>
    rw [unionOf_same hl hr htypes]
    exact Confidence.mul_le_left _ _
  | false =>
    by_cases hmany : Ty.maxMembers < (Ty.distinct (l.type.members ++ r.type.members)).length
    · rw [unionOf_many hl hr htypes hmany]
      exact hcollapsed
    by_cases hone : (Ty.distinct (l.type.members ++ r.type.members)).length = 1
    · obtain ⟨only, honly⟩ := List.length_eq_one_iff.1 hone
      rw [unionOf_only hl hr htypes honly]
      exact Confidence.mul_le_left _ _
    · rw [unionOf_several hl hr htypes (Nat.le_of_not_lt hmany) hone]
      exact max_le hfirm (Confidence.mul_le_left _ _)

/-! ## Values that may be undefined -/

theorem type_withUndefined (e : Estimate) : e.withUndefined.type = e.type.orUndefined := by
  have hsome : (Ty.distinct (e.type.members ++ [.undefined])).length ≠ 0 :=
    Ty.distinct_ne_nil (by simp)
  have hmax : Ty.maxMembers = 4 := rfl
  unfold withUndefined Ty.orUndefined
  dsimp only
  split
  · rw [if_neg (by omega), if_neg (by omega)]
  · split
    · rfl
    · rw [if_pos (by omega)]

/-- A type that equals `undefined` has no other members. -/
theorem ne_undefined_of_mem {t m : Ty} (hm : m ∈ t.members) (hne : (m == .undefined) = false) :
    (t == .undefined) = false := by
  cases t with
  | union ms =>
    show Ty.same (.union ms) .undefined = false
    simp [Ty.same]
  | _ =>
    obtain rfl := List.mem_singleton.1 hm
    exact hne

/-- A firm estimate joined with `undefined`, if it is not `undefined` already. -/
theorem type_unionOf_undefined (hl : .unionMin ≤ l.confidence) {m : Ty} (hm : m ∈ l.type.members)
    (hne : (m == .undefined) = false) :
    (l.unionOf (of .undefined .one)).type = l.type.orUndefined := by
  have hr : .unionMin ≤ (of .undefined .one).confidence := Confidence.unionMin.le_one
  have htypes := ne_undefined_of_mem hm hne
  have hmax : Ty.maxMembers = 4 := rfl
  have hsome : (Ty.distinct (l.type.members ++ [.undefined])).length ≠ 0 :=
    Ty.distinct_ne_nil (by simp)
  have hone : (Ty.distinct (l.type.members ++ [.undefined])).length ≠ 1 := by
    intro hone
    obtain ⟨only, honly⟩ := List.length_eq_one_iff.1 hone
    have hclass : Ty.classOf m = Ty.classOf .undefined :=
      (Ty.classOf_eq_of_distinct honly (List.mem_append_left _ hm)).trans
        (Ty.classOf_eq_of_distinct honly (List.mem_append_right _ List.mem_cons_self)).symm
    rw [Ty.classOf_eq_iff, hne] at hclass
    cases hclass
  unfold Ty.orUndefined
  dsimp only
  split
  · rw [unionOf_many hl hr htypes ‹_›]
    rfl
  · rw [if_pos (by omega), unionOf_several hl hr htypes (Nat.le_of_not_lt ‹_›) hone]
    rfl

/-! ## All laws -/

/-- A union is the same for both orders of its sides. If both sides are firm and their types differ,
it is of their distinct members, each where it first occurs: given up if there are more than four,
the member itself if there is only one. It is then held no more firmly than either side. A value
that may be undefined is the union with `undefined`. -/
theorem union_laws (l r : Estimate) :
    (l.unionOf r == r.unionOf l) = true ∧
    (.percent 70 ≤ l.confidence → .percent 70 ≤ r.confidence → (l.type == r.type) = false →
      let members := Ty.firsts (l.type.members ++ r.type.members)
      members.Pairwise (fun s t => (s == t) = false) ∧
      (4 < members.length → l.unionOf r = .of .any (.percent 30)) ∧
      (∀ only, members = [only] →
        l.unionOf r = .of only (min l.confidence r.confidence * .percent 95)) ∧
      (members.length ≤ 4 → members.length ≠ 1 → l.unionOf r =
        .of (.union members) (max (.percent 70) (min l.confidence r.confidence * .percent 90)))) ∧
    (.percent 70 ≤ l.confidence → .percent 70 ≤ r.confidence →
      (l.unionOf r).confidence ≤ min l.confidence r.confidence) ∧
    l.withUndefined.type = l.type.orUndefined ∧
    (.percent 70 ≤ l.confidence → ∀ m ∈ l.type.members, (m == .undefined) = false →
      (l.unionOf (.of .undefined .one)).type = l.withUndefined.type) := by
  refine ⟨unionOf_comm l r, fun hl hr hne => ?_, confidence_unionOf_le, type_withUndefined l,
    fun hl m hm hne => ?_⟩
  · rw [← Ty.distinct_eq_firsts]
    exact ⟨(Ty.pairwise_distinct _).imp And.left, unionOf_many hl hr hne,
      fun _ => unionOf_only hl hr hne, unionOf_several hl hr hne⟩
  · rw [type_withUndefined]
    exact type_unionOf_undefined hl hm hne

/-- Two unions that share a member, and a union whose only member is the other side. -/
theorem union_laws_overlapping :
    let left : Estimate := .of (.union [.number, .string]) (.percent 90)
    let right : Estimate := .of (.union [.string, .null]) (.percent 80)
    let alone : Estimate := .of (.union [.number]) (.percent 90)
    let number : Estimate := .of .number (.percent 80)
    left.unionOf right = .of (.union [.number, .string, .null])
      (max (.percent 70) (min (.percent 90) (.percent 80) * .percent 90)) ∧
    (left.unionOf right).confidence ≤ min (.percent 90) (.percent 80) ∧
    alone.unionOf number = .of .number (min (.percent 90) (.percent 80) * .percent 95) ∧
    (left.unionOf (.of .undefined .one)).type = left.withUndefined.type := by
  intro left right alone number
  have hfirm : Confidence.percent 70 ≤ .percent 90 := by decide +kernel
  have hfirm' : Confidence.percent 70 ≤ .percent 80 := by decide +kernel
  have hsame : ∀ s t : Ty, (s == t) = s.same t := fun _ _ => rfl
  have hne : (left.type == right.type) = false := by
    simp [left, right, hsame, Ty.same_union, Ty.same]
  have hne' : (alone.type == number.type) = false := by simp [alone, number, hsame, Ty.same]
  have hmembers : Ty.firsts (left.type.members ++ right.type.members) =
      [.number, .string, .null] := by
    simp [left, right, Ty.members, Ty.firsts, hsame, Ty.same]
  have hmembers' : Ty.firsts (alone.type.members ++ number.type.members) = [.number] := by
    simp [alone, number, Ty.members, Ty.firsts, hsame, Ty.same]
  obtain ⟨-, hunion, hbound, -, hundefined⟩ := union_laws left right
  obtain ⟨-, -, -, hseveral⟩ := hunion hfirm hfirm' hne
  obtain ⟨-, -, honly, -⟩ := (union_laws alone number).2.1 hfirm hfirm' hne'
  refine ⟨?_, hbound hfirm hfirm', honly _ hmembers', ?_⟩
  · rw [hmembers] at hseveral
    exact hseveral (by decide) (by decide)
  · exact hundefined hfirm .number List.mem_cons_self (by simp [hsame, Ty.same])

end Estimate

end ScriptTypes
