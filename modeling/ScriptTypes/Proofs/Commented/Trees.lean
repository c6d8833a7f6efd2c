import Mathlib.Data.List.Forall2
import ScriptTypes.Proofs.Navigation

/-!
# Trees with comments put in

A tree and the same tree with comments put in anywhere below its nodes. Whatever the nodes are asked
for (a child in a field, the operands, the arguments of a call, the parameters and the results of a
function) is the same on both sides, up to the comments further down. The labels of the nodes may
differ, as a relation between them says.

* `Interspersed`: a list with related entries, and others put in between.
* `Node.Commented`: a tree with comments put in.
* `Node.Commented.child?`, `Node.Commented.operands`, `Node.Commented.unwrapParens`, …: navigation.
* `Node.Commented.preorder`: the nodes of the two trees, one by one.
-/

namespace ScriptTypes

variable {α β γ δ : Type}

/-! ## Options and lists -/

theorem rel_cases {r : α → β → Prop} {a : Option α} {b : Option β} (h : Option.Rel r a b) :
    a = none ∧ b = none ∨ ∃ x y, a = some x ∧ b = some y ∧ r x y := by
  cases h with
  | none => exact .inl ⟨rfl, rfl⟩
  | some h => exact .inr ⟨_, _, rfl, rfl, h⟩

theorem rel_some {r : α → β → Prop} {a : Option α} {b : Option β} {x : α} (h : Option.Rel r a b)
    (ha : a = some x) : ∃ y, b = some y ∧ r x y := by
  subst ha
  cases h with
  | some h => exact ⟨_, rfl, h⟩

theorem rel_none {r : α → β → Prop} {a : Option α} {b : Option β} (h : Option.Rel r a b)
    (ha : a = none) : b = none := by
  subst ha
  cases h
  rfl

theorem rel_refl {r : α → α → Prop} (h : ∀ x, r x x) : ∀ a : Option α, Option.Rel r a a
  | none => .none
  | some x => .some (h x)

theorem bind_eq_of_rel {r : α → β → Prop} {a : Option α} {b : Option β} {f : α → Option γ}
    {g : β → Option γ} (h : Option.Rel r a b) (hfg : ∀ x y, r x y → g y = f x) :
    b.bind g = a.bind f := by
  rcases rel_cases h with ⟨rfl, rfl⟩ | ⟨x, y, rfl, rfl, hxy⟩
  · rfl
  · exact hfg x y hxy

theorem rel_head? {r : α → β → Prop} {as : List α} {bs : List β} (h : List.Forall₂ r as bs) :
    Option.Rel r as.head? bs.head? := by
  cases h with
  | nil => exact .none
  | cons h _ => exact .some h

theorem rel_getLast? {r : α → β → Prop} {as : List α} {bs : List β} (h : List.Forall₂ r as bs) :
    Option.Rel r as.getLast? bs.getLast? := by
  rw [List.getLast?_eq_head?_reverse, List.getLast?_eq_head?_reverse]
  exact rel_head? (List.rel_reverse h)

theorem map_eq_of_forall₂ {r : α → β → Prop} {as : List α} {bs : List β} {f : α → γ} {g : β → γ}
    (h : List.Forall₂ r as bs) (hfg : ∀ a b, r a b → g b = f a) : bs.map g = as.map f := by
  induction h with
  | nil => rfl
  | cons hab _ ih => rw [List.map_cons, List.map_cons, hfg _ _ hab, ih]

/-- The second list holds entries related to those of the first, in their order, and others put in
anywhere between them. -/
inductive Interspersed (extra : β → Prop) (r : α → β → Prop) : List α → List β → Prop
  | nil : Interspersed extra r [] []
  | keep {a : α} {b : β} {as : List α} {bs : List β} (h : r a b)
    (rest : Interspersed extra r as bs) : Interspersed extra r (a :: as) (b :: bs)
  | insert {b : β} {as : List α} {bs : List β} (h : extra b) (rest : Interspersed extra r as bs) :
    Interspersed extra r as (b :: bs)

namespace Interspersed

variable {extra : β → Prop} {r : α → β → Prop} {as : List α} {bs : List β}

theorem mono {extra' : β → Prop} {r' : α → β → Prop} (h : Interspersed extra r as bs)
    (he : ∀ b, extra b → extra' b) (hr : ∀ a ∈ as, ∀ b, r a b → r' a b) :
    Interspersed extra' r' as bs := by
  induction h with
  | nil => exact .nil
  | keep hab _ ih =>
    exact .keep (hr _ List.mem_cons_self _ hab) (ih fun a ha => hr a (List.mem_cons_of_mem _ ha))
  | insert hb _ ih => exact .insert (he _ hb) (ih hr)

theorem refl {extra : α → Prop} {r : α → α → Prop} {as : List α} (h : ∀ a ∈ as, r a a) :
    Interspersed extra r as as := by
  induction as with
  | nil => exact .nil
  | cons a as ih =>
    exact .keep (h a List.mem_cons_self) (ih fun b hb => h b (List.mem_cons_of_mem _ hb))

theorem append {cs : List α} {ds : List β} (h : Interspersed extra r as bs)
    (h' : Interspersed extra r cs ds) : Interspersed extra r (as ++ cs) (bs ++ ds) := by
  induction h with
  | nil => exact h'
  | keep hab _ ih => exact .keep hab ih
  | insert hb _ ih => exact .insert hb ih

theorem of_mem {b : β} (h : Interspersed extra r as bs) (hb : b ∈ bs) :
    extra b ∨ ∃ a ∈ as, r a b := by
  induction h with
  | nil => cases hb
  | keep hab _ ih =>
    rcases List.mem_cons.1 hb with rfl | hb
    · exact .inr ⟨_, List.mem_cons_self, hab⟩
    · exact (ih hb).imp_right fun ⟨a, ha, hab⟩ => ⟨a, List.mem_cons_of_mem _ ha, hab⟩
  | insert hextra _ ih =>
    rcases List.mem_cons.1 hb with rfl | hb
    · exact .inl hextra
    · exact ih hb

/-- The entries that a function picks, if it picks nothing of what was put in. -/
theorem filterMap {r' : γ → δ → Prop} {f : α → Option γ} {g : β → Option δ}
    (h : Interspersed extra r as bs) (he : ∀ b, extra b → g b = none)
    (hr : ∀ a ∈ as, ∀ b, r a b → Option.Rel r' (f a) (g b)) :
    List.Forall₂ r' (as.filterMap f) (bs.filterMap g) := by
  induction h with
  | nil => exact .nil
  | keep hab _ ih =>
    have hrest := ih fun a ha => hr a (List.mem_cons_of_mem _ ha)
    rw [List.filterMap_cons, List.filterMap_cons]
    rcases rel_cases (hr _ List.mem_cons_self _ hab) with ⟨ha, hb⟩ | ⟨x, y, ha, hb, hxy⟩
    · rw [ha, hb]
      exact hrest
    · rw [ha, hb]
      exact .cons hxy hrest
  | insert hb _ ih =>
    rw [List.filterMap_cons, he _ hb]
    exact ih hr

theorem filter {p : α → Bool} {q : β → Bool} (h : Interspersed extra r as bs)
    (he : ∀ b, extra b → q b = false) (hr : ∀ a b, r a b → q b = p a) :
    List.Forall₂ r (as.filter p) (bs.filter q) := by
  induction h with
  | nil => exact .nil
  | keep hab _ ih =>
    rw [List.filter_cons, List.filter_cons, hr _ _ hab]
    split
    · exact .cons hab ih
    · exact ih
  | insert hb _ ih =>
    rw [List.filter_cons, he _ hb]
    exact ih

theorem find? {p : α → Bool} {q : β → Bool} (h : Interspersed extra r as bs)
    (he : ∀ b, extra b → q b = false) (hr : ∀ a b, r a b → q b = p a) :
    Option.Rel r (as.find? p) (bs.find? q) := by
  rw [← List.head?_filter, ← List.head?_filter]
  exact rel_head? (h.filter he hr)

theorem any_eq {p : α → Bool} {q : β → Bool} (h : Interspersed extra r as bs)
    (he : ∀ b, extra b → q b = false) (hr : ∀ a b, r a b → q b = p a) :
    bs.any q = as.any p := by
  induction h with
  | nil => rfl
  | keep hab _ ih => rw [List.any_cons, List.any_cons, hr _ _ hab, ih]
  | insert hb _ ih => rw [List.any_cons, he _ hb, ih, Bool.false_or]

/-- Lists that each entry stands for, put together. -/
theorem flatMap {extra' : δ → Prop} {r' : γ → δ → Prop} {f : α → List γ} {g : β → List δ}
    (h : Interspersed extra r as bs) (he : ∀ b, extra b → ∀ d ∈ g b, extra' d)
    (hr : ∀ a ∈ as, ∀ b, r a b → Interspersed extra' r' (f a) (g b)) :
    Interspersed extra' r' (as.flatMap f) (bs.flatMap g) := by
  induction h with
  | nil => exact .nil
  | keep hab _ ih =>
    exact (hr _ List.mem_cons_self _ hab).append (ih fun a ha => hr a (List.mem_cons_of_mem _ ha))
  | @insert b as bs hb _ ih =>
    rw [List.flatMap_cons]
    have hinserted : ∀ {ds : List δ}, (∀ d ∈ ds, extra' d) →
        Interspersed extra' r' (as.flatMap f) (ds ++ bs.flatMap g) := by
      intro ds hds
      induction ds with
      | nil => exact ih hr
      | cons d ds ihd =>
        exact .insert (hds d List.mem_cons_self) (ihd fun x hx => hds x (List.mem_cons_of_mem _ hx))
    exact hinserted (he b hb)

/-- Nothing is put in where nothing may be. -/
theorem forall₂ (h : Interspersed (fun _ => False) r as bs) : List.Forall₂ r as bs := by
  induction h with
  | nil => exact .nil
  | keep hab _ ih => exact .cons hab ih
  | insert hb => exact hb.elim

theorem of_forall₂ (h : List.Forall₂ r as bs) : Interspersed (fun _ => False) r as bs := by
  induction h with
  | nil => exact .nil
  | cons hab _ ih => exact .keep hab ih

theorem flatMap_eq {f : α → List γ} {g : β → List γ} (h : Interspersed extra r as bs)
    (he : ∀ b, extra b → g b = []) (hr : ∀ a ∈ as, ∀ b, r a b → g b = f a) :
    bs.flatMap g = as.flatMap f := by
  induction h with
  | nil => rfl
  | keep hab _ ih =>
    rw [List.flatMap_cons, List.flatMap_cons, hr _ List.mem_cons_self _ hab,
      ih fun a ha => hr a (List.mem_cons_of_mem _ ha)]
  | insert hb _ ih => rw [List.flatMap_cons, he _ hb, ih hr, List.nil_append]

theorem foldl_eq {step : γ → α → γ} {step' : γ → β → γ} (h : Interspersed extra r as bs)
    (he : ∀ b, extra b → ∀ c, step' c b = c) (hr : ∀ a b, r a b → ∀ c, step' c b = step c a)
    (start : γ) : bs.foldl step' start = as.foldl step start := by
  induction h generalizing start with
  | nil => rfl
  | keep hab _ ih => rw [List.foldl_cons, List.foldl_cons, hr _ _ hab, ih]
  | insert hb _ ih => rw [List.foldl_cons, he _ hb, ih]

end Interspersed

/-! ## Trees -/

namespace Node

/-- What holds of a node if it holds of its children holds of every node. -/
theorem induction {P : Node → Prop} (step : ∀ n, (∀ c ∈ n.children, P c) → P n) (n : Node) : P n :=
  step n fun c _ => induction step c
termination_by sizeOf n
decreasing_by
  have hlt := List.sizeOf_lt_of_mem ‹c ∈ n.children›
  cases n
  simp only [Node.mk.sizeOf_spec] at hlt ⊢
  omega

end Node

namespace Walk

/-- A relation between nodes that a walk treats alike. Their children are related, with others put
in between that the walk does not handle, unless the walk does not enter the nodes. -/
structure Respects (walk : Walk) (extra : Node → Prop) (r : Node → Node → Prop) : Prop where
  kind {n n' : Node} : r n n' → n'.kind = n.kind
  skips {n n' : Node} : r n n' → walk.skips n' = walk.skips n
  children {n n' : Node} : r n n' → walk.isBoundary n.kind = false →
    Interspersed extra r n.children n'.children
  unhandled {n : Node} : extra n → walk.handledBelow n = []

namespace Respects

variable {walk : Walk} {extra : Node → Prop} {r : Node → Node → Prop} {n n' : Node}
variable (h : walk.Respects extra r)

include h

theorem noting (hn : r n n') {others others' : List Node}
    (hothers : Interspersed (fun _ => False) r others others') :
    Interspersed (fun _ => False) r (walk.noting n others) (walk.noting n' others') := by
  rw [Walk.noting, Walk.noting, h.kind hn]
  split
  · exact .keep hn hothers
  · exact hothers

theorem handledBelow (n : Node) : ∀ {n' : Node}, r n n' →
    Interspersed (fun _ => False) r (walk.handledBelow n) (walk.handledBelow n') := by
  induction n using Node.induction with
  | step n ih =>
    intro n' hn
    rw [handledBelow_eq, handledBelow_eq, h.kind hn, h.skips hn]
    split
    · exact .nil
    · rename_i hboundary
      refine h.noting hn ?_
      split
      · exact .nil
      · refine (h.children hn (by simpa using hboundary)).flatMap (fun c hc d hd => ?_)
          fun c hc c' hcc => ih c hc hcc
        rw [h.unhandled hc] at hd
        cases hd

/-- The nodes that a walk handles are related one by one. -/
theorem handled (hn : r n n') (hchildren : Interspersed extra r n.children n'.children) :
    List.Forall₂ r (walk.handled n) (walk.handled n') := by
  rw [Walk.handled, Walk.handled, handledAll_eq_flatMap, handledAll_eq_flatMap, h.skips hn]
  refine (h.noting hn ?_).forall₂
  split
  · exact .nil
  · refine hchildren.flatMap (fun c hc d hd => ?_) fun c _ c' hcc => h.handledBelow c hcc
    rw [h.unhandled hc] at hd
    cases hd

end Respects

end Walk

namespace Node

/-- A comment without a field and with nothing below it. -/
structure IsRemark (n : Node) : Prop where
  kind : n.kind = .comment
  field : n.field = none
  children : n.children = []

/-- The second tree is the first with comments put in below its nodes. The labels of the nodes are
linked; all else that a node holds is the same. -/
inductive Commented (links : Nat → Nat → Prop) : Node → Node → Prop
  | mk {label label' : Nat} {kind : Kind} {field : Option Field} {named : Bool}
    {text : Option String} {children children' : List Node} (hlabel : links label label')
    (hchildren : Interspersed IsRemark (Commented links) children children') :
    Commented links ⟨label, kind, field, named, text, children⟩
      ⟨label', kind, field, named, text, children'⟩

namespace IsRemark

variable {n : Node} (h : n.IsRemark)

include h

theorem isOperand : n.isOperand = false := by simp [Node.isOperand, h.kind]

theorem preorder : n.preorder = [n] := by rw [preorder_eq, h.children, List.flatMap_nil]

end IsRemark

namespace Commented

variable {links : Nat → Nat → Prop} {n n' : Node}

theorem refl (hlinks : ∀ label, links label label) : ∀ n : Node, n.Commented links n := by
  refine induction fun n ih => ?_
  obtain ⟨label, kind, field, named, text, children⟩ := n
  exact .mk (hlinks label) (.refl ih)

theorem mono {links' : Nat → Nat → Prop} (hlinks : ∀ a b, links a b → links' a b) :
    ∀ {n n' : Node}, n.Commented links n' → n.Commented links' n' := by
  intro n
  induction n using induction with
  | step n ih =>
    rintro n' ⟨hlabel, hchildren⟩
    exact .mk (hlinks _ _ hlabel) (hchildren.mono (fun _ hc => hc) fun c hc c' hcc => ih c hc hcc)

variable (h : n.Commented links n')

include h

/-! ### What a node holds -/

theorem label : links n.label n'.label := by
  cases h
  assumption

theorem kind : n'.kind = n.kind := by
  cases h
  rfl

theorem field : n'.field = n.field := by
  cases h
  rfl

theorem text : n'.text = n.text := by
  cases h
  rfl

theorem isOperand : n'.isOperand = n.isOperand := by
  cases h
  rfl

theorem children : Interspersed IsRemark (Commented links) n.children n'.children := by
  cases h
  assumption

/-! ### Children -/

theorem child? (field : Field) : Option.Rel (Commented links) (n.child? field) (n'.child? field) :=
  h.children.find? (fun _ hc => by simp [hc.field]) fun _ _ hc => by rw [hc.field]

theorem operands : List.Forall₂ (Commented links) n.operands n'.operands :=
  h.children.filter (fun _ hc => hc.isOperand) fun _ _ hc => hc.isOperand

theorem operand? : Option.Rel (Commented links) n.operand? n'.operand? :=
  h.children.find? (fun _ hc => hc.isOperand) fun _ _ hc => hc.isOperand

theorem hasChild {kind : Kind} (hk : kind ≠ .comment) : n'.hasChild kind = n.hasChild kind :=
  h.children.any_eq (fun _ hc => by simp [hc.kind, Ne.symm hk]) fun _ _ hc => by rw [hc.kind]

theorem isOptional : n'.isOptional = n.isOptional := h.hasChild (by decide)

theorem isAsync : n'.isAsync = n.isAsync := h.hasChild (by decide)

/-! ### Names -/

theorem identifierName? : n'.identifierName? = n.identifierName? := by
  rw [Node.identifierName?, Node.identifierName?, h.kind, h.text]

theorem stringValue? : n'.stringValue? = n.stringValue? := by
  rw [Node.stringValue?, Node.stringValue?, h.text]

theorem propertyKey? : n'.propertyKey? = n.propertyKey? := by
  rw [Node.propertyKey?, Node.propertyKey?, h.kind, h.text, h.stringValue?]

theorem calleeName? : n'.calleeName? = n.calleeName? :=
  bind_eq_of_rel (h.child? .callee) fun _ _ hc => hc.identifierName?

theorem memberName? : n'.memberName? = n.memberName? :=
  bind_eq_of_rel (h.child? .property) fun _ _ hc => hc.text

theorem namespace? : n'.namespace? = n.namespace? :=
  bind_eq_of_rel (h.child? .object) fun _ _ hc => hc.identifierName?

theorem text_child? (field : Field) :
    (n'.child? field).bind (·.text) = (n.child? field).bind (·.text) :=
  bind_eq_of_rel (h.child? field) fun _ _ hc => hc.text

theorem propertyKey?_child? (field : Field) :
    (n'.child? field).bind Node.propertyKey? = (n.child? field).bind Node.propertyKey? :=
  bind_eq_of_rel (h.child? field) fun _ _ hc => hc.propertyKey?

theorem callArguments : List.Forall₂ (Commented links) n.callArguments n'.callArguments := by
  unfold Node.callArguments
  rcases rel_cases (h.child? .arguments) with ⟨hl, hr⟩ | ⟨c, c', hl, hr, hc⟩
  · simp only [hl, hr]
    exact .nil
  · simp only [hl, hr, hc.kind]
    split
    · exact hc.operands
    · exact .nil

omit h in
theorem unwrapParens : ∀ {n n' : Node}, n.Commented links n' →
    n.unwrapParens.Commented links n'.unwrapParens := by
  intro n
  induction n using Node.induction with
  | step n ih =>
    intro n' h
    rw [unwrapParens_eq, unwrapParens_eq n', h.kind]
    split
    · rcases rel_cases h.operand? with ⟨hl, hr⟩ | ⟨c, c', hl, hr, hc⟩
      · rw [hl, hr]
        exact h
      · rw [hl, hr]
        exact ih c (List.mem_of_find?_eq_some hl) hc
    · exact h

/-! ### Nodes below -/

omit h in
/-- The nodes of the two trees are related one by one, the comments left out. -/
theorem preorder : ∀ {n n' : Node}, n.Commented links n' →
    Interspersed IsRemark (Commented links) n.preorder n'.preorder := by
  intro n
  induction n using Node.induction with
  | step n ih =>
    intro n' h
    rw [preorder_eq, preorder_eq n']
    refine .keep h (h.children.flatMap (fun c hc d hd => ?_) fun c hc c' hcc => ih c hc hcc)
    rw [hc.preorder, List.mem_singleton] at hd
    exact hd ▸ hc

theorem resolvedValues (name : String) :
    List.Forall₂ (Commented links) (Typing.resolvedValues n name)
      (Typing.resolvedValues n' name) := by
  refine h.preorder.filterMap (fun c hc => by simp [hc.kind]) fun c _ c' hc => ?_
  rw [hc.kind, hc.calleeName?]
  split
  · exact rel_head? hc.callArguments
  · exact .none

/-- The nodes that a walk handles, if it does not handle comments and skips the same nodes. -/
theorem handled {walk : Walk} (hw : walk.handler .comment = none)
    (hskips : ∀ {n n' : Node}, n.Commented links n' → walk.skips n' = walk.skips n) :
    List.Forall₂ (Commented links) (walk.handled n) (walk.handled n') := by
  have hrespects : walk.Respects IsRemark (Commented links) :=
    { kind := Commented.kind
      skips := hskips
      children := fun hn _ => hn.children
      unhandled := fun {c} hc => by
        simp [Walk.handledBelow_eq, Walk.noting, hc.kind, hc.children, hw] }
  exact hrespects.handled h h.children

/-! ### Functions -/

theorem returnExpressions :
    List.Forall₂ (Commented links) n.returnExpressions n'.returnExpressions := by
  unfold Node.returnExpressions Node.body?
  rcases rel_cases (h.child? .body) with ⟨hl, hr⟩ | ⟨c, c', hl, hr, hc⟩
  · simp only [hl, hr]
    exact .nil
  · simp only [hl, hr, hc.kind]
    split
    · have hstatements : List.Forall₂ (Commented links) c.returnStatements c'.returnStatements :=
        hc.handled rfl fun hs => by rw [skips_returnWalk, skips_returnWalk, hs.kind]
      exact List.rel_filterMap (fun _ _ hs => hs.operand?) hstatements
    · exact .cons hc .nil

theorem parameters : List.Forall₂ (Commented links) n.parameters n'.parameters := by
  unfold Node.parameters
  rcases rel_cases (h.child? .parameter) with ⟨hl, hr⟩ | ⟨c, c', hl, hr, hc⟩
  · simp only [hl, hr]
    rcases rel_cases (h.child? .parameters) with ⟨hl, hr⟩ | ⟨c, c', hl, hr, hc⟩
    · simp only [hl, hr]
      exact .nil
    · simp only [hl, hr]
      exact hc.operands
  · simp only [hl, hr]
    exact .cons hc .nil

end Commented

end Node

/-- A parameter of a function in which comments were put in. -/
structure Param.Commented (links : Nat → Nat → Prop) (p p' : Param) : Prop where
  name : p'.name = p.name
  isRest : p'.isRest = p.isRest
  default : Option.Rel (Node.Commented links) p.default p'.default
  pattern : Option.Rel (Node.Commented links) p.pattern p'.pattern

theorem Param.Commented.refl {links : Nat → Nat → Prop} (hlinks : ∀ label, links label label)
    (p : Param) : p.Commented links p :=
  ⟨rfl, rfl, rel_refl (.refl hlinks) _, rel_refl (.refl hlinks) _⟩

namespace Node.Commented

variable {links : Nat → Nat → Prop} {n n' : Node} (h : n.Commented links n')

include h

theorem param : (Param.ofNode n).Commented links (Param.ofNode n') := by
  have hname : ∀ {target target' : Option Node}, Option.Rel (Commented links) target target' →
      (target'.bind Node.identifierName?).filter (· ≠ "") =
        (target.bind Node.identifierName?).filter (· ≠ "") := fun ht => by
    rw [bind_eq_of_rel ht fun _ _ hc => hc.identifierName?]
  unfold Param.ofNode
  dsimp only
  rw [h.kind, h.text, hname (h.child? .left), hname h.operand?]
  split
  · exact ⟨rfl, rfl, .none, .none⟩
  · split
    · exact ⟨rfl, rfl, h.child? .right, .none⟩
    · exact ⟨rfl, rfl, h.child? .right, h.child? .left⟩
  · split
    · exact ⟨rfl, rfl, .none, .none⟩
    · exact ⟨rfl, rfl, .none, h.operand?⟩
  · exact ⟨rfl, rfl, .none, .some h⟩

theorem params : List.Forall₂ (Param.Commented links) n.params n'.params := by
  rw [Node.params, Node.params, List.forall₂_map_left_iff, List.forall₂_map_right_iff]
  exact h.parameters.imp fun _ _ hc => hc.param

end Node.Commented

end ScriptTypes
