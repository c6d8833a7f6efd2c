import Mathlib.Data.List.Induction
import ScriptTypes.Proofs.Equality
import ScriptTypes.Proofs.Rounding
import ScriptTypes.Proofs.Serialization

/-!
# Sequences of offers

A map that is offered estimates one after the other holds the maximum for each name: of what was
there and what was offered for the name, the first that is held with the greatest confidence. Only
an offer that replaces equals can take the place of one that is held as surely, and of several the
last does. What is offered for other names in between makes no difference.

* `Offer.prevailing?`: the candidate that a name is left with.
* `Offer.prevailing?_concat`: one more candidate is merged with the one that prevails.
* `TypeMap.get?_assignAll`: what is held for a name after a sequence of offers.
* `TypeMap.assignChanges_eq`: what an offer reports.
* `TypeMap.offers_keep_maximum`: both for whole sequences, however the names are interleaved.
-/

namespace ScriptTypes

/-- An estimate that is offered for a name. It may replace one that is held as surely, or only one
that is held less surely. -/
structure Offer where
  name : String
  estimate : Estimate
  replaceEqual : Bool

/-! ## The candidate that prevails -/

namespace Offer

/-- The greatest confidence among some candidates. -/
def greatest (candidates : List Offer) : Option Confidence :=
  (candidates.map (·.estimate.confidence)).max?

/-- The candidates that reach the greatest confidence, in order. -/
def surest (candidates : List Offer) : List Offer :=
  candidates.filter fun c => some c.estimate.confidence = greatest candidates

/-- The first candidate that reaches the greatest confidence, unless later ones of the same
confidence replace equals: then the last of those. -/
def prevailing? (candidates : List Offer) : Option Offer :=
  match surest candidates with
  | [] => none
  | first :: later => some ((later.filter (·.replaceEqual)).getLast?.getD first)

variable {candidates : List Offer} {c : Offer} {top : Confidence}

theorem greatest_eq_some_iff : greatest candidates = some top ↔
    (∃ c ∈ candidates, c.estimate.confidence = top) ∧
      ∀ c ∈ candidates, c.estimate.confidence ≤ top := by
  rw [greatest, List.max?_eq_some_iff, List.mem_map, List.forall_mem_map]

theorem greatest_eq_none_iff : greatest candidates = none ↔ candidates = [] := by
  rw [greatest, List.max?_eq_none_iff, List.map_eq_nil_iff]

/-- Some candidate reaches the greatest confidence. -/
theorem surest_ne_nil (h : greatest candidates = some top) : surest candidates ≠ [] := by
  obtain ⟨c, hc, hconfidence⟩ := (greatest_eq_some_iff.1 h).1
  exact List.ne_nil_of_mem (List.mem_filter.2 ⟨hc, by simp [h, hconfidence]⟩)

theorem prevailing?_mem (h : prevailing? candidates = some c) : c ∈ surest candidates := by
  unfold prevailing? at h
  split at h
  · cases h
  · rename_i first later hsurest
    rw [hsurest, ← Option.some.inj h]
    cases hlast : (later.filter (·.replaceEqual)).getLast? with
    | none => exact List.mem_cons_self
    | some last =>
      exact List.mem_cons_of_mem _ (List.mem_of_mem_filter (List.mem_of_getLast? hlast))

/-- The candidate that prevails is held with the greatest confidence. -/
theorem confidence_prevailing? (candidates : List Offer) :
    (prevailing? candidates).map (·.estimate.confidence) = greatest candidates := by
  cases hprevailing : prevailing? candidates with
  | some c =>
    have hreaches := (List.mem_filter.1 (prevailing?_mem hprevailing)).2
    exact of_decide_eq_true hreaches
  | none =>
    cases hgreatest : greatest candidates with
    | none => rfl
    | some top =>
      obtain ⟨first, later, hsurest⟩ := List.exists_cons_of_ne_nil (surest_ne_nil hgreatest)
      rw [prevailing?, hsurest] at hprevailing
      cases hprevailing

/-! ## One more candidate -/

/-- A candidate that is surer than all before it is alone at the top. -/
theorem surest_concat_of_surer
    (h : ∀ d ∈ candidates, d.estimate.confidence < c.estimate.confidence) :
    surest (candidates ++ [c]) = [c] := by
  have hgreatest : greatest (candidates ++ [c]) = some c.estimate.confidence := by
    rw [greatest_eq_some_iff]
    refine ⟨⟨c, by simp, rfl⟩, List.forall_mem_append.2 ⟨fun d hd => ?_, by simp⟩⟩
    exact le_of_lt (h d hd)
  rw [surest, hgreatest, List.filter_append, List.filter_eq_nil_iff.2, List.nil_append]
  · simp
  · intro d hd heq
    have hsame : d.estimate.confidence = c.estimate.confidence := by simpa using heq
    exact absurd (h d hd) (hsame ▸ lt_irrefl _)

/-- A candidate that is no surer comes last among the surest, or is not one of them. -/
theorem surest_concat_of_le (hgreatest : greatest candidates = some top)
    (hle : c.estimate.confidence ≤ top) :
    surest (candidates ++ [c]) =
      surest candidates ++ if top = c.estimate.confidence then [c] else [] := by
  obtain ⟨⟨d, hd, hreaches⟩, hbound⟩ := greatest_eq_some_iff.1 hgreatest
  have hsame : greatest (candidates ++ [c]) = some top := by
    rw [greatest_eq_some_iff]
    exact ⟨⟨d, List.mem_append_left _ hd, hreaches⟩,
      List.forall_mem_append.2 ⟨hbound, by simpa using hle⟩⟩
  rw [surest, surest, hsame, hgreatest, List.filter_append]
  by_cases htop : top = c.estimate.confidence
  · simp [htop]
  · simp [htop, Ne.symm htop]

theorem prevailing?_concat_of_surer
    (h : ∀ d ∈ candidates, d.estimate.confidence < c.estimate.confidence) :
    prevailing? (candidates ++ [c]) = some c := by
  rw [prevailing?, surest_concat_of_surer h]
  rfl

theorem prevailing?_concat_of_le (hgreatest : greatest candidates = some top)
    (hle : c.estimate.confidence ≤ top) :
    prevailing? (candidates ++ [c]) =
      if c.replaceEqual = true ∧ top = c.estimate.confidence then some c
      else prevailing? candidates := by
  obtain ⟨first, later, hsurest⟩ := List.exists_cons_of_ne_nil (surest_ne_nil hgreatest)
  rw [prevailing?, prevailing?, surest_concat_of_le hgreatest hle, hsurest]
  by_cases htop : top = c.estimate.confidence
  · cases hreplace : c.replaceEqual <;> simp [htop, hreplace]
  · simp [htop]

/-- One more candidate is merged with the one that prevails. -/
theorem prevailing?_concat (candidates : List Offer) (c : Offer) :
    (prevailing? (candidates ++ [c])).map (·.estimate) =
      some (Estimate.merge ((prevailing? candidates).map (·.estimate)) c.estimate
        c.replaceEqual) := by
  -- Merging looks at the confidence of the one that prevails, which is the greatest.
  have hconfidence := confidence_prevailing? candidates
  cases hold : prevailing? candidates with
  | none =>
    rw [hold] at hconfidence
    obtain rfl := greatest_eq_none_iff.1 hconfidence.symm
    rw [prevailing?_concat_of_surer (by simp)]
    rfl
  | some old =>
    rw [hold] at hconfidence
    have hgreatest : greatest candidates = some old.estimate.confidence := hconfidence.symm
    by_cases hlt : old.estimate.confidence < c.estimate.confidence
    · have hsurer : ∀ d ∈ candidates, d.estimate.confidence < c.estimate.confidence :=
        fun d hd => lt_of_le_of_lt ((greatest_eq_some_iff.1 hgreatest).2 d hd) hlt
      rw [prevailing?_concat_of_surer hsurer]
      simp [Estimate.merge, Estimate.supersedes, hlt]
    · rw [prevailing?_concat_of_le hgreatest (not_lt.1 hlt), hold]
      by_cases hequal : c.replaceEqual = true ∧ old.estimate.confidence = c.estimate.confidence
      · rw [if_pos hequal]
        simp [Estimate.merge, Estimate.supersedes, hequal]
      · rw [if_neg hequal]
        simp [Estimate.merge, Estimate.supersedes, hlt, hequal]

end Offer

/-! ## Sequences -/

namespace TypeMap

open Offer

/-- Offers estimates one after the other. -/
def assignAll (types : TypeMap) (offers : List Offer) : TypeMap :=
  offers.foldl (fun types o => types.assign o.name o.estimate o.replaceEqual) types

/-- What the offers of a sequence report one by one: whether they change what is held. -/
def reports : TypeMap → List Offer → List Bool
  | _, [] => []
  | types, o :: offers =>
    types.assignChanges o.name o.estimate o.replaceEqual ::
      reports (types.assign o.name o.estimate o.replaceEqual) offers

/-- The candidates for a name: what is held at first, and then what is offered for it, in order. -/
def candidates (types : TypeMap) (offers : List Offer) (name : String) : List Offer :=
  ((types.get? name).map fun e => ⟨name, e, false⟩).toList ++ offers.filter (·.name = name)

theorem assignAll_concat (types : TypeMap) (offers : List Offer) (o : Offer) :
    types.assignAll (offers ++ [o]) =
      (types.assignAll offers).assign o.name o.estimate o.replaceEqual := by
  rw [assignAll, List.foldl_append]
  rfl

theorem candidates_concat (types : TypeMap) (offers : List Offer) (o : Offer) (name : String) :
    types.candidates (offers ++ [o]) name =
      types.candidates offers name ++ if o.name = name then [o] else [] := by
  rw [candidates, List.filter_append, ← List.append_assoc]
  by_cases h : o.name = name <;> simp [candidates, h]

/-- What is held for a name after a sequence of offers is the candidate that prevails. By induction
on the offers, the last one taken off. -/
theorem get?_assignAll (types : TypeMap) (offers : List Offer) (name : String) :
    (types.assignAll offers).get? name =
      (prevailing? (types.candidates offers name)).map (·.estimate) := by
  induction offers using List.reverseRecOn with
  | nil =>
    cases hold : types.get? name with
    | none => simp [assignAll, candidates, hold, prevailing?, surest]
    | some e =>
      have hsingle := prevailing?_concat [] ⟨name, e, false⟩
      simp only [candidates, hold]
      exact hold.trans hsingle.symm
  | append_singleton offers o ih =>
    rw [assignAll_concat, get?_assign, candidates_concat]
    split
    · rename_i hname
      rw [prevailing?_concat, ← ih, hname]
    · rw [List.append_nil, ih]

/-- An offer reports whether the entry of its name is different afterwards. -/
theorem assignChanges_eq (types : TypeMap) (name : String) (new : Estimate) (replaceEqual : Bool) :
    types.assignChanges name new replaceEqual =
      (types.get? name != (types.assign name new replaceEqual).get? name) := by
  have hrefl : ∀ e : Estimate, (e == e) = true := Estimate.same_refl
  rw [get?_assign, if_pos rfl, assignChanges, Estimate.merge]
  cases hold : types.get? name with
  | none => rfl
  | some old =>
    cases hsupersedes : new.supersedes (some old) replaceEqual with
    | true => simp [bne]
    | false => simp [bne, hrefl]

theorem length_reports (types : TypeMap) (offers : List Offer) :
    (types.reports offers).length = offers.length := by
  induction offers generalizing types with
  | nil => rfl
  | cons o offers ih => rw [reports, List.length_cons, List.length_cons, ih]

theorem getElem?_reports {types : TypeMap} {offers : List Offer} {i : Nat} {o : Offer}
    (h : offers[i]? = some o) :
    (types.reports offers)[i]? =
      some ((types.assignAll (offers.take i)).get? o.name !=
        (types.assignAll (offers.take (i + 1))).get? o.name) := by
  induction offers generalizing types i with
  | nil => simp at h
  | cons first offers ih =>
    cases i with
    | zero =>
      obtain rfl : first = o := by simpa using h
      rw [reports, List.getElem?_cons_zero, assignChanges_eq]
      rfl
    | succ i =>
      rw [reports, List.getElem?_cons_succ, ih (by simpa using h)]
      rfl

/-- A sequence of offers leaves each name with the greatest confidence among its candidates, and
with the candidate that prevails. Sequences that offer the same for each name lead to the same map,
however the names are interleaved, and each offer reports whether the entry of its name is different
afterwards. -/
theorem offers_keep_maximum (types : TypeMap) (offers : List Offer) :
    (∀ name, ((types.assignAll offers).get? name).map (·.confidence) =
      greatest (types.candidates offers name)) ∧
    (∀ name, (types.assignAll offers).get? name =
      (prevailing? (types.candidates offers name)).map (·.estimate)) ∧
    (∀ others : List Offer,
      (∀ name, offers.filter (·.name = name) = others.filter (·.name = name)) →
        (∀ name, (types.assignAll offers).get? name = (types.assignAll others).get? name) ∧
          (types.assignAll offers).sorted = (types.assignAll others).sorted) ∧
    (types.reports offers).length = offers.length ∧
    ∀ i o, offers[i]? = some o → (types.reports offers)[i]? =
      some ((types.assignAll (offers.take i)).get? o.name !=
        (types.assignAll (offers.take (i + 1))).get? o.name) := by
  refine ⟨fun name => ?_, get?_assignAll types offers, fun others hsame => ?_,
    length_reports types offers, fun i o => getElem?_reports⟩
  · rw [get?_assignAll, Option.map_map]
    exact confidence_prevailing? _
  · have hget : ∀ name,
        (types.assignAll offers).get? name = (types.assignAll others).get? name := by
      intro name
      rw [get?_assignAll, get?_assignAll, candidates, candidates, hsame name]
    exact ⟨hget, Table.sorted_congr hget⟩

/-- A union that is offered again in another order takes its place without a change, and a third
type that is held as surely does not. Another name may come before or after. -/
theorem offers_keep_maximum_interleaved :
    let types : TypeMap := Table.empty.set "x" (.of .any .zero)
    let first : Offer := ⟨"x", .of (.union [.number, .string]) .one, false⟩
    let again : Offer := ⟨"x", .of (.union [.string, .number]) .one, true⟩
    let third : Offer := ⟨"x", .of .boolean .one, false⟩
    let other : Offer := ⟨"y", .of .null .one, false⟩
    (∀ name, [other, first, again, third].filter (·.name = name) =
      [first, again, other, third].filter (·.name = name)) ∧
    (types.assignAll [other, first, again, third]).sorted =
      (types.assignAll [first, again, other, third]).sorted ∧
    (types.assignAll [other, first, again, third]).get? "x" = some again.estimate ∧
    (types.reports [other, first, again, third])[2]? = some false := by
  intro types first again third other
  obtain ⟨-, hget, hsorted, -, hreports⟩ :=
    offers_keep_maximum types [other, first, again, third]
  have hsame : ∀ name, [other, first, again, third].filter (·.name = name) =
      [first, again, other, third].filter (·.name = name) := by
    intro name
    by_cases hx : "x" = name
    · subst hx
      rfl
    · simp [first, again, third, other, hx, List.filter_cons]
  have hequal : (first.estimate == again.estimate) = true :=
    Estimate.same_iff.2 ⟨by decide +kernel, rfl, .none⟩
  have hbefore : (types.assignAll [other, first]).get? "x" = some first.estimate := rfl
  have hafter : (types.assignAll [other, first, again]).get? "x" = some again.estimate := rfl
  refine ⟨hsame, (hsorted _ hsame).2, (hget "x").trans rfl, (hreports 2 again rfl).trans ?_⟩
  show some ((types.assignAll [other, first]).get? "x" !=
    (types.assignAll [other, first, again]).get? "x") = some false
  rw [hbefore, hafter]
  simp [bne, hequal]

end TypeMap

end ScriptTypes
