import ScriptTypes.Proofs.Legibility.Elements

/-!
# Types can be read back from their texts

The text of a type is taken apart from the left. A text that starts with a parenthesis may be a
function or an element of an array; which of the two shows behind the parenthesis that closes it. A
function without parentheses reaches as far as the text of the type does, and so stands neither in
an array nor in a union.

* `Ty.alternatives`: types other than functions, taken as unions.
* `Ty.slots_append_inj`: the parameters of a function are read back.
* `Ty.fn_ne`: no other type starts like a function.
* `Ty.reads`: printable types are read back.
-/

namespace ScriptTypes

open Text

namespace Ty

variable {s t : Ty} {u v : List Char}

/-! ## Members of unions -/

/-- The members of a union; any other type is taken as a union of itself. -/
def alternatives : Ty → List Ty
  | .union members => members
  | t => [t]

theorem Printable.alternatives (ht : t.Printable) : ∀ m ∈ t.alternatives, m.Printable := by
  cases t with
  | union members => exact fun m hm => ht.component hm
  | _ => simpa [Ty.alternatives] using ht

theorem Printable.exists_alternatives (ht : t.Printable) :
    ∃ m ms, t.alternatives = m :: ms := by
  cases t with
  | union members =>
    have hlength := ht.union.1
    exact List.exists_cons_of_length_pos (Nat.lt_of_lt_of_le Nat.two_pos hlength)
  | _ => exact ⟨_, [], rfl⟩

theorem alternatives_inj (hs : s.Printable) (ht : t.Printable)
    (h : s.alternatives = t.alternatives) : s = t := by
  have hunion : ∀ {members : List Ty} {t : Ty}, (Ty.union members).Printable → members ≠ [t] := by
    rintro members t hprintable rfl
    simpa using hprintable.union.1
  cases s with
  | union members =>
    cases t with
    | union others => exact congrArg Ty.union h
    | _ => exact absurd h (hunion hs)
  | _ =>
    cases t with
    | union others => exact absurd h.symm (hunion ht)
    | _ => exact (List.cons.inj h).1

theorem renderMembers_eq {members : List Ty} (h : ∀ m ∈ members, m.isUnion = false) :
    renderMembers members = members.map elementSpelling.text := by
  induction members with
  | nil => rfl
  | cons m members ih =>
    have hm : m.isSignature = m.isCompound := by
      have := h m (by simp)
      cases m <;> simp_all [isUnion, isSignature, isCompound]
    simp [renderMembers, elementSpelling, hm, ih fun m hm => h m (by simp [hm])]

/-- Types without parentheses, functions apart, are written as unions. -/
theorem render_eq_joined (ht : t.Printable) (hfn : t.isSignature = false) :
    t.render.toList = elementSpelling.joined " | " t.alternatives := by
  cases t with
  | union members =>
    have hmembers := ht.union.2
    simp [render, Spelling.joined, alternatives, renderMembers_eq hmembers]
  | fn => simp [isSignature] at hfn
  | _ => rfl

/-- Types that are no functions are read back alternative by alternative. -/
theorem alternatives_append_inj (hs : s.Printable) (ht : t.Printable) (hfn : s.isSignature = false)
    (hfn' : t.isSignature = false)
    (hinside : ∀ c ∈ s.components, ∀ part ∈ c.parts, spelling.Reads part)
    (hu : StopsAt closers u) (hv : StopsAt closers v)
    (h : s.render.toList ++ u = t.render.toList ++ v) : s = t ∧ u = v := by
  have hreads : ∀ m ∈ s.alternatives, elementSpelling.Reads m := by
    intro m hm
    have hprintable := hs.alternatives m hm
    cases s with
    | union members =>
      refine reads_element hprintable (fun c hc part hpart => ?_)
        fun _ => hinside m hm m (mem_parts_self m)
      exact hinside m hm part (mem_parts_trans hpart (mem_parts_of_components hc))
    | fn => simp [isSignature] at hfn
    | _ =>
      obtain rfl := List.mem_singleton.1 hm
      exact reads_element hprintable hinside (by simp [isCompound])
  have hseparates : elementSpelling.Separates " | " closers :=
    ⟨⟨' ', ['|', ' '], by decide, by decide, by decide⟩, by decide⟩
  rw [render_eq_joined hs hfn, render_eq_joined ht hfn'] at h
  obtain ⟨m, ms, hms⟩ := hs.exists_alternatives
  obtain ⟨m', ms', hms'⟩ := ht.exists_alternatives
  rw [hms, hms'] at h
  obtain ⟨heq, huv⟩ := Spelling.reads_join hseparates hu hv (hms ▸ hreads)
    (hms' ▸ ht.alternatives) h
  exact ⟨alternatives_inj hs ht (by rw [hms, hms', heq]), huv⟩

/-! ## Functions -/

/-- A parameter in the text of a function. -/
inductive Slot where
  | positional (t : Ty)
  | rest (t : Ty)

/-- The type of a parameter. -/
def Slot.type : Slot → Ty
  | .positional t => t
  | .rest t => t

/-- The text of a parameter. -/
def Slot.text : Slot → String
  | .positional t => t.render
  | .rest t => "..." ++ t.render

/-- Parameters as they stand in functions. -/
def slotSpelling : Spelling Slot := ⟨Slot.text, fun slot => slot.type.Printable, closers⟩

/-- The parameters of a function. -/
def slots (params : List Ty) (rest : Option Ty) : List Slot :=
  params.map .positional ++ (rest.map .rest).toList

theorem slots_inj {ps qs : List Ty} {x y : Option Ty} (h : slots ps x = slots qs y) :
    ps = qs ∧ x = y := by
  induction ps generalizing qs with
  | nil =>
    cases qs <;> cases x <;> cases y <;> simp_all [slots]
  | cons p ps ih =>
    cases qs with
    | nil => cases y <;> simp [slots] at h
    | cons q qs =>
      simp only [slots, List.map_cons, List.cons_append, List.cons.injEq,
        Slot.positional.injEq] at h
      obtain ⟨rfl, htail⟩ := h
      obtain ⟨rfl, rfl⟩ := ih htail
      exact ⟨rfl, rfl⟩

theorem map_text_slots (ps : List Ty) (x : Option Ty) :
    (slots ps x).map Slot.text = renderAll ps ++ renderRest x := by
  cases x <;> simp [slots, renderAll_eq, renderRest, Slot.text, Function.comp_def]

theorem render_fn (ps : List Ty) (r : Ty) (x : Option Ty) :
    (render (.fn ps r x)).toList =
      '(' :: (slotSpelling.joined ", " (slots ps x) ++ ')' :: ' ' :: '=' :: '>' :: ' ' ::
        r.render.toList) := by
  simp [render, Spelling.joined, slotSpelling, map_text_slots]

/-- What the text of a printable type starts with. -/
theorem render_head (ht : t.Printable) :
    ∃ c text, t.render.toList = c :: text ∧ (c = '(' ∨ c ∉ marks) := by
  by_cases hfn : t.isSignature = true
  · cases t with
    | fn params returns rest => exact ⟨'(', _, render_fn params returns rest, .inl rfl⟩
    | _ => simp [isSignature] at hfn
  · obtain ⟨m, ms, hms⟩ := ht.exists_alternatives
    obtain ⟨c, text, htext, hc⟩ := element_head (ht.alternatives m (by simp [hms]))
    obtain ⟨tail, htail⟩ := elementSpelling.exists_joined_cons " | " m ms
    rw [render_eq_joined ht (by simpa using hfn), hms, htail, htext]
    exact ⟨c, text ++ tail, rfl, hc⟩

theorem reads_slot {slot : Slot} (hslot : slot.type.Printable) (h : spelling.Reads slot.type) :
    slotSpelling.Reads slot := by
  have hne : ∀ {t : Ty} {u v : List Char}, t.Printable → t.render.toList ++ u ≠ '.' :: v := by
    intro t u v ht
    obtain ⟨c, text, htext, hc⟩ := render_head ht
    rw [htext]
    rintro ⟨⟩
    simp [marks] at hc
  intro other hother u v hu hv heq
  cases slot with
  | positional t =>
    cases other with
    | positional t' =>
      obtain ⟨rfl, huv⟩ := h t' hother u v hu hv heq
      exact ⟨rfl, huv⟩
    | rest t' => exact absurd heq (by simpa [slotSpelling, Slot.text, Slot.type] using hne hslot)
  | rest t =>
    cases other with
    | positional t' =>
      exact absurd heq.symm (by simpa [slotSpelling, Slot.text, Slot.type] using hne hother)
    | rest t' =>
      obtain ⟨rfl, huv⟩ := h t' hother u v hu hv
        (by simpa [slotSpelling, Slot.text, Slot.type, spelling] using heq)
      exact ⟨rfl, huv⟩

theorem slot_ne_closed {slot : Slot} (hslot : slot.type.Printable) {others : List Slot} :
    slotSpelling.joined ", " (slot :: others) ++ u ≠ ')' :: v := by
  obtain ⟨tail, htail⟩ := slotSpelling.exists_joined_cons ", " slot others
  rw [htail]
  cases slot with
  | positional t =>
    obtain ⟨c, text, htext, hc⟩ := render_head (t := t) hslot
    show t.render.toList ++ tail ++ u ≠ ')' :: v
    rw [htext]
    rintro ⟨⟩
    simp [marks] at hc
  | rest t => simp [slotSpelling, Slot.text]

/-- The parameters of a function are read back up to the parenthesis that closes them. -/
theorem slots_append_inj {as bs : List Slot} (has : ∀ a ∈ as, a.type.Printable)
    (hreads : ∀ a ∈ as, spelling.Reads a.type) (hbs : ∀ b ∈ bs, b.type.Printable)
    (h : slotSpelling.joined ", " as ++ ')' :: u = slotSpelling.joined ", " bs ++ ')' :: v) :
    as = bs ∧ u = v := by
  cases as with
  | nil =>
    cases bs with
    | nil => exact ⟨rfl, (List.cons.inj h).2⟩
    | cons b bs => exact absurd h.symm (slot_ne_closed (hbs b (by simp)))
  | cons a as =>
    cases bs with
    | nil => exact absurd h (slot_ne_closed (has a (by simp)))
    | cons b bs =>
      have hseparates : slotSpelling.Separates ", " [')'] :=
        ⟨⟨',', [' '], by decide, by decide, by decide⟩, by decide⟩
      have hstop : ∀ text, StopsAt [')'] (')' :: text) := by simp
      obtain ⟨heq, htail⟩ := Spelling.reads_join hseparates (hstop u) (hstop v)
        (fun x hx => reads_slot (has x hx) (hreads x hx)) hbs h
      exact ⟨heq, (List.cons.inj htail).2⟩

/-- What is in parentheses in a type that is no function is inside the type. -/
theorem base_mem_inside (hfn : t.isSignature = false) {m : Ty} (hm : m ∈ t.alternatives)
    (hcompound : m.base.isCompound = true) : ∃ c ∈ t.components, m.base ∈ c.parts := by
  cases t with
  | union members => exact ⟨m, hm, base_mem_parts m⟩
  | fn => simp [isSignature] at hfn
  | _ =>
    obtain rfl := List.mem_singleton.1 hm
    refine (base_eq_or _).resolve_left fun heq => ?_
    rw [heq] at hcompound
    simp [isCompound] at hcompound

/-- Behind the parenthesis that closes the parameters of a function stands what stands behind no
other parenthesis. -/
theorem fn_ne (ht : t.Printable) (hfn : t.isSignature = false) (hv : StopsAt closers v)
    {params : List Slot}
    (hread : ∀ c ∈ t.components, ∀ part ∈ c.parts, ∀ u v,
      slotSpelling.joined ", " params ++ ')' :: u = part.render.toList ++ ')' :: v → u = v) :
    '(' :: (slotSpelling.joined ", " params ++ ')' :: ' ' :: '=' :: u) ≠ t.render.toList ++ v := by
  intro h
  obtain ⟨m, ms, hms⟩ := ht.exists_alternatives
  have hm : m ∈ t.alternatives := by simp [hms]
  -- What follows the first alternative: the end of the type, or the next alternative.
  obtain ⟨w, hw, hrender⟩ : ∃ w, (w = v ∨ ∃ tail, w = ' ' :: '|' :: tail) ∧
      t.render.toList ++ v = (elementSpelling.text m).toList ++ w := by
    rw [render_eq_joined ht hfn, hms]
    cases ms with
    | nil => exact ⟨v, .inl rfl, rfl⟩
    | cons m' ms =>
      exact ⟨' ' :: '|' :: ' ' :: (elementSpelling.joined " | " (m' :: ms) ++ v), .inr ⟨_, rfl⟩,
        by simp⟩
  rw [hrender, element_eq m, List.append_assoc] at h
  rcases isCompound_base_or m with hcompound | ⟨name, args, hword⟩
  · obtain ⟨c, hc, hpart⟩ := base_mem_inside hfn hm hcompound
    rw [element_of_compound hcompound] at h
    have htail := hread c hc _ hpart (' ' :: '=' :: u) (brackets m.rank ++ w) (by simpa using h)
    cases hrank : m.rank with
    | zero =>
      rw [hrank] at htail
      rcases hw with rfl | ⟨tail, rfl⟩
      · obtain rfl : _ = w := htail
        simp [closers] at hv
      · simp at htail
    | succ n => simp [hrank, brackets_succ] at htail
  · exact word_ne_group ((ht.alternatives m hm).of_mem (base_mem_parts m)) hword h.symm

theorem type_mem_components {ps : List Ty} {r : Ty} {x : Option Ty} {slot : Slot}
    (h : slot ∈ slots ps x) : slot.type ∈ (Ty.fn ps r x).components := by
  rcases List.mem_append.1 h with h | h
  · obtain ⟨p, hp, rfl⟩ := List.mem_map.1 h
    simp [components, Slot.type, hp]
  · obtain ⟨y, hy, rfl⟩ := by simpa using h
    simp [components, Slot.type, hy]

/-- Functions are read back: first the parameters, then the result. -/
theorem fn_append_inj {ps qs : List Ty} {r r' : Ty} {x y : Option Ty}
    (hs : (Ty.fn ps r x).Printable) (ht : (Ty.fn qs r' y).Printable)
    (hreads : ∀ c ∈ (Ty.fn ps r x).components, spelling.Reads c)
    (hu : StopsAt closers u) (hv : StopsAt closers v)
    (h : (render (.fn ps r x)).toList ++ u = (render (.fn qs r' y)).toList ++ v) :
    Ty.fn ps r x = .fn qs r' y ∧ u = v := by
  have hr : r ∈ (Ty.fn ps r x).components := by simp [components]
  have hr' : r' ∈ (Ty.fn qs r' y).components := by simp [components]
  obtain ⟨heq, htail⟩ := slots_append_inj
    (fun slot hslot => hs.component (type_mem_components hslot))
    (fun slot hslot => hreads _ (type_mem_components hslot))
    (fun slot hslot => ht.component (type_mem_components hslot))
    (by simpa [render_fn] using h)
  obtain ⟨rfl, rfl⟩ := slots_inj heq
  obtain ⟨rfl, huv⟩ := hreads r hr r' (ht.component hr') u v hu hv
    (by simpa [spelling] using htail)
  exact ⟨rfl, huv⟩

theorem exists_fn (h : t.isSignature = true) : ∃ ps r x, t = .fn ps r x := by
  cases t with
  | fn ps r x => exact ⟨ps, r, x, rfl⟩
  | _ => simp [isSignature] at h

/-- Printable types are read back from their texts. -/
theorem reads (hs : s.Printable) : spelling.Reads s := by
  induction s using induction_parts with
  | h s ih =>
    have hinside : ∀ c ∈ s.components, ∀ part ∈ c.parts, spelling.Reads part :=
      fun c hc part hpart => ih c hc part hpart ((hs.component hc).of_mem hpart)
    have hreads : ∀ c ∈ s.components, spelling.Reads c := fun c hc =>
      hinside c hc c (mem_parts_self c)
    intro t ht u v hu hv h
    by_cases hfn : s.isSignature = true
    · obtain ⟨ps, r, x, rfl⟩ := exists_fn hfn
      by_cases hfn' : t.isSignature = true
      · obtain ⟨qs, r', y, rfl⟩ := exists_fn hfn'
        exact fn_append_inj hs ht hreads hu hv h
      · -- A type in parentheses is read as a list of one parameter.
        refine absurd (by simpa [spelling, render_fn] using h)
          (fn_ne ht (by simpa using hfn') hv fun c hc part hpart u v heq => ?_)
        have hprintable : ∀ slot ∈ [Slot.positional part], slot.type.Printable := by
          simpa [Slot.type] using (ht.component hc).of_mem hpart
        exact (slots_append_inj (fun slot hslot => hs.component (type_mem_components hslot))
          (fun slot hslot => hreads _ (type_mem_components hslot)) hprintable heq).2
    · by_cases hfn' : t.isSignature = true
      · obtain ⟨qs, r', y, rfl⟩ := exists_fn hfn'
        refine absurd (by simpa [spelling, render_fn] using h.symm)
          (fn_ne hs (by simpa using hfn) hu fun c hc part hpart u v heq => ?_)
        have hprintable : ∀ slot ∈ [Slot.positional part], slot.type.Printable := by
          simpa [Slot.type] using (hs.component hc).of_mem hpart
        have hpart : ∀ slot ∈ [Slot.positional part], spelling.Reads slot.type := by
          simpa [Slot.type] using hinside c hc part hpart
        exact (slots_append_inj hprintable hpart
          (fun slot hslot => ht.component (type_mem_components hslot)) heq.symm).2.symm
      · exact alternatives_append_inj hs ht (by simpa using hfn) (by simpa using hfn') hinside hu
          hv h

end Ty

end ScriptTypes
