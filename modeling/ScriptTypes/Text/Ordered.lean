/-!
# Texts in order

A list of texts in the order of code points, each text once.
-/

namespace ScriptTypes.Text

/-- Puts a text in its place, unless it is there. -/
def insertOrdered (text : String) : List String → List String
  | [] => [text]
  | first :: rest =>
    if text = first then first :: rest
    else if text < first then text :: first :: rest
    else first :: insertOrdered text rest

/-- The texts in order, each once. -/
def ordered : List String → List String
  | [] => []
  | text :: rest => insertOrdered text (ordered rest)

theorem mem_insertOrdered {text other : String} {texts : List String} :
    other ∈ insertOrdered text texts ↔ other = text ∨ other ∈ texts := by
  induction texts with
  | nil => simp [insertOrdered]
  | cons first rest ih =>
    unfold insertOrdered
    split
    · rename_i h
      simp [h]
    · split
      · simp
      · simp only [List.mem_cons, ih]
        exact or_left_comm

/-- Putting texts in order keeps exactly the texts that are there. -/
theorem mem_ordered {text : String} {texts : List String} :
    text ∈ ordered texts ↔ text ∈ texts := by
  induction texts with
  | nil => simp [ordered]
  | cons first rest ih => simp [ordered, mem_insertOrdered, ih]

end ScriptTypes.Text
