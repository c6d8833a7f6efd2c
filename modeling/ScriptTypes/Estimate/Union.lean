import ScriptTypes.Estimate.Basic

/-!
# Joining estimates

What is known of a value that may come from either of two places. Both sides must be held
firmly enough, and a union that would grow too large is given up.
-/

namespace ScriptTypes.Estimate

/-- A union that is given up. -/
def collapsed : Estimate := of .any .collapsedUnion

/-- The union of two estimates. Equal types keep the first side's form, and the shape if both
sides know the same one; different ones become the union of their distinct members. -/
def unionOf (l r : Estimate) : Estimate :=
  if l.confidence < .unionMin ∨ r.confidence < .unionMin then collapsed
  else
    let lowest := min l.confidence r.confidence
    if l.type == r.type then
      ⟨l.type, lowest * .sameUnionDecay, if sameShape l.shape r.shape then l.shape else none⟩
    else
      let members := Ty.distinct (l.type.members ++ r.type.members)
      if Ty.maxMembers < members.length then collapsed
      else
        match members with
        | [only] => of only (lowest * .sameUnionDecay)
        | members => of (.union members) (max .unionMin (lowest * .unionDecay))

/-- The estimate of a value that may also be undefined. -/
def withUndefined (e : Estimate) : Estimate :=
  let members := Ty.distinct (e.type.members ++ [.undefined])
  if members.length = 1 then e
  else if Ty.maxMembers < members.length then collapsed
  else of (.union members) (max .unionMin (e.confidence * .unionDecay))

end ScriptTypes.Estimate
