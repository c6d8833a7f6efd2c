import ScriptTypes.Proofs.Legibility.Printable
import ScriptTypes.Ty.Printer

/-!
# Elements of arrays can be read back

In an array a type stands in parentheses or starts with a name. What is in parentheses ends where
they are closed, and a name at the first mark; brackets follow, one pair for each array.

* `Ty.spelling`, `Ty.elementSpelling`: how types are written, by themselves and in arrays.
* `Ty.word?`: the types that start with a name.
* `Ty.base`, `Ty.rank`: what is left of a type without the arrays around it, and their number.
* `Ty.reads_element`: elements of arrays are read back if the types inside them are.
-/

namespace ScriptTypes

open Text

namespace Ty

/-! ## Texts of types -/

/-- The marks that follow the text of a type. -/
def closers : List Char := [')', '>', ',', ':', ';']

/-- Types as they stand by themselves, as arguments and as results. -/
def spelling : Spelling Ty := ⟨render, Printable, closers⟩

/-- Types as they stand in arrays and unions. -/
def elementSpelling : Spelling Ty :=
  ⟨fun t => parenthesized t.isCompound t.render, Printable, ' ' :: closers⟩

theorem renderAll_eq (ts : List Ty) : renderAll ts = ts.map render := by
  induction ts with
  | nil => rfl
  | cons t ts ih => simp [renderAll, ih]

/-! ## Names with arguments -/

/-- The name that the text of a type starts with, and the arguments that stand behind it. -/
def word? : Ty → Option (String × List Ty)
  | .any => some ("any", [])
  | .prim p => some (p.name, [])
  | .generic name args => some (name, args)
  | _ => none

/-- The text of the arguments behind a name. -/
def argumentsText (args : List Ty) : List Char :=
  if args = [] then [] else '<' :: (spelling.joined ", " args ++ ['>'])

variable {s t : Ty} {name : String} {args : List Ty} {u v : List Char}

/-- The printable type that is written as a name with arguments. -/
def ofWord (name : String) (args : List Ty) : Ty :=
  if name = "any" then .any else (Primitive.ofName? name).elim (.generic name args) .prim

theorem eq_ofWord (ht : t.Printable) (hword : t.word? = some (name, args)) :
    t = ofWord name args := by
  cases t with
  | any =>
    obtain ⟨rfl, -⟩ : "any" = name ∧ _ := by simpa [word?] using hword
    rfl
  | prim p =>
    obtain ⟨rfl, -⟩ : p.name = name ∧ _ := by simpa [word?] using hword
    have hany : p.name ≠ "any" := by cases p <;> decide
    simp [ofWord, hany, Primitive.ofName?_name]
  | generic own args =>
    obtain ⟨rfl, rfl⟩ : own = name ∧ _ = _ := by simpa [word?] using hword
    have hname := ht.name
    have hnone : Primitive.ofName? own = none := by
      simpa [Primitive.ofName?] using fun p _ => (hname.ne_primitive p).symm
    simp [ofWord, hname.ne_any, hnone]
  | _ => simp [word?] at hword

theorem unmarked_of_word? (ht : t.Printable) (hword : t.word? = some (name, args)) :
    name ≠ "" ∧ Unmarked marks name.toList := by
  cases t with
  | any =>
    obtain ⟨rfl, -⟩ : "any" = name ∧ _ := by simpa [word?] using hword
    decide
  | prim p =>
    obtain ⟨rfl, -⟩ : p.name = name ∧ _ := by simpa [word?] using hword
    cases p <;> decide
  | generic own args =>
    obtain ⟨rfl, -⟩ : own = name ∧ _ := by simpa [word?] using hword
    have hname := ht.name
    exact ⟨hname.ne_empty, hname.unmarked⟩
  | _ => simp [word?] at hword

theorem mem_components_of_word? (hword : t.word? = some (name, args)) {a : Ty} (ha : a ∈ args) :
    a ∈ t.components := by
  cases t <;> simp_all [word?, components]

theorem element_of_word? (hword : t.word? = some (name, args)) :
    (elementSpelling.text t).toList = name.toList ++ argumentsText args := by
  cases t with
  | any =>
    obtain ⟨rfl, rfl⟩ : "any" = name ∧ [] = args := by simpa [word?] using hword
    rfl
  | prim p =>
    obtain ⟨rfl, rfl⟩ : p.name = name ∧ [] = args := by simpa [word?] using hword
    simp [elementSpelling, parenthesized, isCompound, render, argumentsText]
  | generic own args =>
    obtain ⟨rfl, rfl⟩ : own = name ∧ _ = _ := by simpa [word?] using hword
    cases args with
    | nil => simp [elementSpelling, parenthesized, isCompound, render, argumentsText]
    | cons arg args =>
      simp [elementSpelling, parenthesized, isCompound, render, argumentsText, renderAll_eq,
        Spelling.joined, spelling]
  | _ => simp [word?] at hword

theorem element_of_compound (h : t.isCompound = true) :
    (elementSpelling.text t).toList = '(' :: (t.render.toList ++ [')']) := by
  simp [elementSpelling, parenthesized, h]

/-! ## Elements of arrays -/

/-- What is left of a type without the arrays around it. -/
def base : Ty → Ty
  | .array element => element.base
  | t => t

/-- How many arrays are around the base of a type. -/
def rank : Ty → Nat
  | .array element => element.rank + 1
  | _ => 0

/-- A type with arrays around it. -/
def arrays (t : Ty) : Nat → Ty
  | 0 => t
  | n + 1 => .array (t.arrays n)

theorem arrays_base (t : Ty) : t.base.arrays t.rank = t := by
  induction t using induction_components with
  | h t ih =>
    cases t with
    | array element => simp [base, rank, arrays, ih element (by simp [components])]
    | _ => simp [base, rank, arrays]

/-- The base is the type itself or a part of what it is built from. -/
theorem base_eq_or (t : Ty) : t.base = t ∨ ∃ c ∈ t.components, t.base ∈ c.parts := by
  induction t using induction_components with
  | h t ih =>
    cases t with
    | array element =>
      have hbase : element.base ∈ element.parts :=
        mem_parts_iff.2 (ih element (by simp [components]))
      exact .inr ⟨element, by simp [components], hbase⟩
    | _ => simp [base]

theorem base_mem_parts (t : Ty) : t.base ∈ t.parts := mem_parts_iff.2 (base_eq_or t)

/-- A base stands in parentheses, or starts with a name. -/
theorem isCompound_base_or (t : Ty) :
    t.base.isCompound = true ∨ ∃ name args, t.base.word? = some (name, args) := by
  induction t using induction_components with
  | h t ih =>
    cases t with
    | array element => exact ih element (by simp [components])
    | _ => simp [base, isCompound, word?]

/-- The text of arrays behind their base. -/
def brackets (n : Nat) : List Char := (List.replicate n ['[', ']']).flatten

@[simp] theorem brackets_zero : brackets 0 = [] := rfl

theorem brackets_succ (n : Nat) : brackets (n + 1) = '[' :: ']' :: brackets n := by
  simp [brackets, List.replicate_succ]

theorem element_eq (t : Ty) :
    (elementSpelling.text t).toList = (elementSpelling.text t.base).toList ++ brackets t.rank := by
  induction t using induction_components with
  | h t ih =>
    cases t with
    | array element =>
      have htext : (elementSpelling.text (.array element)).toList =
          (elementSpelling.text element).toList ++ ['[', ']'] := by
        simp [elementSpelling, parenthesized, isCompound, render]
      have hbrackets : brackets (element.rank + 1) = brackets element.rank ++ ['[', ']'] := by
        simp [brackets, List.replicate_succ']
      rw [htext, ih element (by simp [components]), base, rank, hbrackets, List.append_assoc]
    | _ => simp [base, rank]

theorem stopsAt_brackets {n : Nat} (hu : StopsAt (' ' :: closers) u) :
    StopsAt ('[' :: ' ' :: closers) (brackets n ++ u) := by
  cases n with
  | zero => exact hu.mono (List.subset_cons_self _ _)
  | succ n => simp [brackets_succ]

theorem brackets_append_inj {m n : Nat} (hu : StopsAt (' ' :: closers) u)
    (hv : StopsAt (' ' :: closers) v) (h : brackets m ++ u = brackets n ++ v) : m = n ∧ u = v := by
  induction m generalizing n with
  | zero =>
    cases n with
    | zero => exact ⟨rfl, h⟩
    | succ n =>
      obtain rfl : u = _ := h
      simp [brackets_succ, closers] at hu
  | succ m ih =>
    cases n with
    | zero =>
      obtain rfl : _ = v := h
      simp [brackets_succ, closers] at hv
    | succ n =>
      obtain ⟨rfl, huv⟩ := ih (by simpa [brackets_succ] using h)
      exact ⟨rfl, huv⟩

/-- The text of a type that is read back from it stands in parentheses. -/
theorem group_append_inj (hs : spelling.Reads s) (ht : t.Printable)
    (h : s.render.toList ++ ')' :: u = t.render.toList ++ ')' :: v) : s = t ∧ u = v := by
  obtain ⟨heq, htail⟩ := hs t ht (')' :: u) (')' :: v) (stopsAt_cons.2 (by decide))
    (stopsAt_cons.2 (by decide)) h
  exact ⟨heq, (List.cons.inj htail).2⟩

theorem word_head (ht : t.Printable) (hword : t.word? = some (name, args)) :
    ∃ c text, (elementSpelling.text t).toList = c :: text ∧ c ∉ marks := by
  obtain ⟨hne, hunmarked⟩ := unmarked_of_word? ht hword
  rw [element_of_word? hword]
  cases hchars : name.toList with
  | nil => exact absurd (by simpa using hchars) hne
  | cons c chars => exact ⟨c, chars ++ argumentsText args, rfl, hunmarked c (by simp [hchars])⟩

/-- What starts with a name starts with no parenthesis. -/
theorem word_ne_group (ht : t.Printable) (hword : t.word? = some (name, args)) :
    (elementSpelling.text t).toList ++ u ≠ '(' :: v := by
  obtain ⟨c, text, htext, hc⟩ := word_head ht hword
  rw [htext]
  rintro ⟨⟩
  exact hc (by decide)

theorem arguments_append_inj {args others : List Ty} (hargs : ∀ a ∈ args, spelling.Reads a)
    (hothers : ∀ a ∈ others, a.Printable) (hu : StopsAt ('[' :: ' ' :: closers) u)
    (hv : StopsAt ('[' :: ' ' :: closers) v)
    (h : argumentsText args ++ u = argumentsText others ++ v) : args = others ∧ u = v := by
  cases args with
  | nil =>
    cases others with
    | nil => exact ⟨rfl, h⟩
    | cons b others =>
      obtain rfl : u = _ := h
      simp [argumentsText, closers] at hu
  | cons a args =>
    cases others with
    | nil =>
      obtain rfl : _ = v := h
      simp [argumentsText, closers] at hv
    | cons b others =>
      have hseparates : spelling.Separates ", " ['>'] :=
        ⟨⟨',', [' '], by decide, by decide, by decide⟩, by decide⟩
      have hstop : ∀ text, StopsAt ['>'] ('>' :: text) := by simp
      obtain ⟨heq, htail⟩ := Spelling.reads_join hseparates (hstop u) (hstop v) hargs hothers
        (by simpa [argumentsText] using h)
      exact ⟨heq, (List.cons.inj htail).2⟩

/-- The base of an array is read back, since behind it only brackets are left. -/
theorem base_append_inj {b c : Ty} (hb : b.Printable) (hc : c.Printable)
    (hbase : b.isCompound = true ∨ ∃ name args, b.word? = some (name, args))
    (hbase' : c.isCompound = true ∨ ∃ name args, c.word? = some (name, args))
    (hself : b.isCompound = true → spelling.Reads b)
    (hargs : ∀ a ∈ b.components, spelling.Reads a)
    (hu : StopsAt ('[' :: ' ' :: closers) u) (hv : StopsAt ('[' :: ' ' :: closers) v)
    (h : (elementSpelling.text b).toList ++ u = (elementSpelling.text c).toList ++ v) :
    b = c ∧ u = v := by
  rcases hbase with hcompound | ⟨name, args, hword⟩
  · rw [element_of_compound hcompound] at h
    rcases hbase' with hcompound' | ⟨name', args', hword'⟩
    · rw [element_of_compound hcompound'] at h
      exact group_append_inj (hself hcompound) hc (by simpa using h)
    · exact absurd h.symm (word_ne_group hc hword')
  · rcases hbase' with hcompound' | ⟨name', args', hword'⟩
    · rw [element_of_compound hcompound'] at h
      exact absurd h (word_ne_group hb hword)
    · rw [element_of_word? hword, element_of_word? hword', List.append_assoc,
        List.append_assoc] at h
      have hstop : ∀ {args u}, StopsAt ('[' :: ' ' :: closers) u →
          StopsAt marks (argumentsText args ++ u) := by
        intro args u hu
        cases args with
        | nil => exact hu.mono (by decide)
        | cons a args => simp [argumentsText, marks]
      obtain ⟨hname, htail⟩ := word_append_inj (unmarked_of_word? hb hword).2
        (unmarked_of_word? hc hword').2 (hstop hu) (hstop hv) h
      obtain rfl : name = name' := String.toList_inj.1 hname
      obtain ⟨rfl, huv⟩ := arguments_append_inj
        (fun a ha => hargs a (mem_components_of_word? hword ha))
        (fun a ha => hc.component (mem_components_of_word? hword' ha)) hu hv htail
      exact ⟨(eq_ofWord hb hword).trans (eq_ofWord hc hword').symm, huv⟩

theorem element_head (ht : t.Printable) :
    ∃ c text, (elementSpelling.text t).toList = c :: text ∧ (c = '(' ∨ c ∉ marks) := by
  rw [element_eq t]
  rcases isCompound_base_or t with hcompound | ⟨name, args, hword⟩
  · exact ⟨'(', _, by rw [element_of_compound hcompound]; rfl, .inl rfl⟩
  · obtain ⟨c, text, htext, hc⟩ := word_head (ht.of_mem (base_mem_parts t)) hword
    exact ⟨c, text ++ brackets t.rank, by rw [htext]; rfl, .inr hc⟩

/-- Elements of arrays are read back if the types inside them are, and those in parentheses as
well. -/
theorem reads_element (hs : s.Printable)
    (hinside : ∀ c ∈ s.components, ∀ part ∈ c.parts, spelling.Reads part)
    (hself : s.isCompound = true → spelling.Reads s) : elementSpelling.Reads s := by
  intro t ht u v hu hv h
  have hbase : s.base.isCompound = true → spelling.Reads s.base := by
    intro hcompound
    rcases base_eq_or s with heq | ⟨c, hc, hpart⟩
    · rw [heq] at hcompound ⊢
      exact hself hcompound
    · exact hinside c hc _ hpart
  have hargs : ∀ a ∈ s.base.components, spelling.Reads a := by
    intro a ha
    rcases base_eq_or s with heq | ⟨c, hc, hpart⟩
    · rw [heq] at ha
      exact hinside a ha a (mem_parts_self a)
    · exact hinside c hc a (mem_parts_trans (mem_parts_of_components ha) hpart)
  rw [element_eq s, element_eq t, List.append_assoc, List.append_assoc] at h
  obtain ⟨heq, htail⟩ := base_append_inj (hs.of_mem (base_mem_parts s))
    (ht.of_mem (base_mem_parts t)) (isCompound_base_or s) (isCompound_base_or t) hbase hargs
    (stopsAt_brackets hu) (stopsAt_brackets hv) h
  obtain ⟨hrank, huv⟩ := brackets_append_inj hu hv htail
  exact ⟨by rw [← arrays_base s, ← arrays_base t, heq, hrank], huv⟩

end Ty

end ScriptTypes
