import ScriptTypes.Text.Join
import Mathlib.Data.List.Basic

/-!
# Texts that can be read back

A text can be read back when it says where it ends: whatever follows it, as long as that starts with
one of certain marks, no other text of its kind starts the same whole. Lists of such texts can be
read back if the separator starts with a mark.

* `Text.StopsAt`: what may follow a text.
* `Text.Unmarked`, `Text.word_append_inj`: words without marks end at the first mark.
* `Text.Spelling.Reads`: a value is read back from a text that starts with its own.
* `Text.Spelling.Separates`: separators at which a list is taken apart.
* `Text.Spelling.reads_join`: lists of values are read back from their texts put together.
-/

namespace ScriptTypes.Text

/-! ## Ends of texts -/

/-- The text is empty or starts with one of the marks. -/
def StopsAt (marks : List Char) (text : List Char) : Prop := ∀ c ∈ text.head?, c ∈ marks

variable {marks stops : List Char} {u v : List Char}

@[simp] theorem stopsAt_nil : StopsAt marks [] := by simp [StopsAt]

@[simp] theorem stopsAt_cons {c : Char} : StopsAt marks (c :: u) ↔ c ∈ marks := by simp [StopsAt]

theorem StopsAt.mono (hsub : stops ⊆ marks) (h : StopsAt stops u) : StopsAt marks u :=
  fun c hc => hsub (h c hc)

/-- There are no marks in the text. -/
def Unmarked (marks : List Char) (text : List Char) : Prop := ∀ c ∈ text, c ∉ marks

instance : Decidable (Unmarked marks u) := List.decidableBAll (· ∉ marks) u

/-- Words without marks end at the first mark. -/
theorem word_append_inj {word other : List Char} (hword : Unmarked marks word)
    (hother : Unmarked marks other) (hu : StopsAt marks u) (hv : StopsAt marks v)
    (h : word ++ u = other ++ v) : word = other ∧ u = v := by
  induction word generalizing other with
  | nil =>
    cases other with
    | nil => exact ⟨rfl, h⟩
    | cons d other =>
      obtain rfl : u = d :: (other ++ v) := h
      exact absurd (stopsAt_cons.1 hu) (hother d (by simp))
  | cons c word ih =>
    cases other with
    | nil =>
      obtain rfl : c :: (word ++ u) = v := h
      exact absurd (stopsAt_cons.1 hv) (hword c (by simp))
    | cons d other =>
      obtain ⟨rfl, hrest⟩ := List.cons.inj h
      obtain ⟨rfl, huv⟩ := ih (fun e he => hword e (by simp [he]))
        (fun e he => hother e (by simp [he])) hrest
      exact ⟨rfl, huv⟩

/-! ## Reading back -/

/-- How values are written: their texts, which values are meant to be read back, and the marks that
may follow a text. -/
structure Spelling (α : Type) where
  text : α → String
  valid : α → Prop
  marks : List Char

namespace Spelling

variable {α : Type} {spelling : Spelling α}

/-- Whatever starts with the text of the value, and goes on with a mark, starts with that of no
other value, and goes on alike. -/
def Reads (spelling : Spelling α) (a : α) : Prop :=
  ∀ b, spelling.valid b → ∀ u v, StopsAt spelling.marks u → StopsAt spelling.marks v →
    (spelling.text a).toList ++ u = (spelling.text b).toList ++ v → a = b ∧ u = v

/-- The texts of a list of values put together. -/
def joined (spelling : Spelling α) (separator : String) (values : List α) : List Char :=
  (join separator (values.map spelling.text)).toList

@[simp] theorem joined_singleton {separator : String} {a : α} :
    spelling.joined separator [a] = (spelling.text a).toList := rfl

@[simp] theorem joined_cons_cons {separator : String} {a b : α} {values : List α} :
    spelling.joined separator (a :: b :: values) =
      (spelling.text a).toList ++
        (separator.toList ++ spelling.joined separator (b :: values)) := by
  simp [joined, join]

theorem exists_joined_cons (spelling : Spelling α) (separator : String) (a : α) (values : List α) :
    ∃ text, spelling.joined separator (a :: values) = (spelling.text a).toList ++ text := by
  cases values with
  | nil => exact ⟨[], by simp⟩
  | cons b values => exact ⟨_, joined_cons_cons⟩

/-- The separator starts with a mark, and what stands behind a list with another one. -/
structure Separates (spelling : Spelling α) (separator : String) (stops : List Char) : Prop where
  starts : ∃ mark rest, separator.toList = mark :: rest ∧ mark ∈ spelling.marks ∧ mark ∉ stops
  stops : stops ⊆ spelling.marks

/-- Lists of values are read back from their texts put together. -/
theorem reads_join {separator : String} (hseparates : spelling.Separates separator stops)
    (hu : StopsAt stops u) (hv : StopsAt stops v) {a b : α} {as bs : List α}
    (has : ∀ x ∈ a :: as, spelling.Reads x) (hbs : ∀ x ∈ b :: bs, spelling.valid x)
    (h : spelling.joined separator (a :: as) ++ u = spelling.joined separator (b :: bs) ++ v) :
    a :: as = b :: bs ∧ u = v := by
  obtain ⟨⟨mark, rest, hseparator, hmark, hends⟩, hstops⟩ := hseparates
  have hsep : ∀ text, StopsAt spelling.marks (separator.toList ++ text) := by
    intro text
    rw [hseparator]
    exact stopsAt_cons.2 hmark
  have hne : ∀ text, ¬StopsAt stops (separator.toList ++ text) := by
    intro text
    rw [hseparator]
    exact fun hstop => hends (stopsAt_cons.1 hstop)
  induction as generalizing a b bs with
  | nil =>
    cases bs with
    | nil =>
      obtain ⟨rfl, huv⟩ := has a (by simp) b (hbs b (by simp)) u v (hu.mono hstops) (hv.mono hstops)
        (by simpa using h)
      exact ⟨rfl, huv⟩
    | cons b' bs =>
      obtain ⟨-, huv⟩ := has a (by simp) b (hbs b (by simp)) u _ (hu.mono hstops) (hsep _)
        (by simpa using h)
      exact absurd (huv ▸ hu) (hne _)
  | cons a' as ih =>
    cases bs with
    | nil =>
      obtain ⟨-, huv⟩ := has a (by simp) b (hbs b (by simp)) _ v (hsep _) (hv.mono hstops)
        (by simpa using h)
      exact absurd (huv ▸ hv) (hne _)
    | cons b' bs =>
      obtain ⟨rfl, hrest⟩ := has a (by simp) b (hbs b (by simp)) _ _ (hsep _) (hsep _)
        (by simpa using h)
      obtain ⟨htail, huv⟩ := ih (fun x hx => has x (List.mem_cons_of_mem a hx))
        (fun x hx => hbs x (List.mem_cons_of_mem a hx)) (by simpa using hrest)
      exact ⟨by rw [htail], huv⟩

end Spelling

end ScriptTypes.Text
