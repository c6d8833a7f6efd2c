import ScriptTypes.Proofs.Stabilization

/-!
# Programs that only call their functions

If the functions of a program are called and never used as values, a round does not look at the
types of their names. Two rounds that start alike then write the same signatures, whatever the
names of the functions were held for.

* `FirstOrder`: no function of the program is used as a value.
* `Region.applied`: the region of such a program, in which no name of a function is read.
* `agrees_round`: rounds that start alike end with the same types.
-/

namespace ScriptTypes

/-- Whether a child stands for the name of what its parent calls or declares. -/
def Node.namesChild (parent child : Node) : Bool :=
  (parent.kind = .callExpression && child.field = some .callee) ||
    ((parent.kind = .variableDeclarator || parent.kind.isFunction) && child.field = some .name)

theorem CallGraph.declares_eq_false {graph : CallGraph} {name : String}
    (h : graph.function? name = none) : graph.declares name = false := by
  rw [declares, List.any_eq_false]
  exact List.find?_eq_none.1 h

namespace Typing

/-- No function of a program is used as a value. Its name is no parameter and stands only where it
is called or declared, and a function without a name of its own is in the graph only where it is
the value of the variable that names it. -/
structure FirstOrder (program : Place) : Prop where
  param : ∀ n ∈ program.node.preorder, n.kind.isFunction = true → ∀ p ∈ n.params,
    ∀ name ∈ p.name, (CallGraph.ofProgram program).declares name = false
  name : ∀ n ∈ program.node.preorder, ∀ c ∈ n.children, n.namesChild c = false →
    c.kind = .identifier ∨ c.kind = .shorthandProperty →
    ∀ name ∈ c.text, (CallGraph.ofProgram program).declares name = false
  literal : ∀ n ∈ program.node.preorder, ∀ c ∈ n.children, c.kind.isFunctionLiteral = true →
    ∀ f ∈ (CallGraph.ofProgram program).functionAt? c,
      n.kind = .variableDeclarator ∧ (n.child? .name).bind Node.identifierName? = some f.name

/-- A node that is not the name of a function and not a function of the graph. -/
structure IsValue (graph : CallGraph) (n : Node) : Prop where
  name : n.kind = .identifier ∨ n.kind = .shorthandProperty → ∀ name ∈ n.text,
    graph.declares name = false
  literal : n.kind.isFunctionLiteral = true → graph.functionAt? n = none

/-- A node that is neither an identifier nor a function literal is a value. -/
theorem IsValue.of_kind {graph : CallGraph} {n : Node} {kind : Kind} (hk : n.kind = kind)
    (hidentifier : kind ≠ .identifier) (hshorthand : kind ≠ .shorthandProperty)
    (hliteral : kind.isFunctionLiteral = false) : IsValue graph n where
  name := by
    rw [hk]
    rintro (heq | heq)
    · exact absurd heq hidentifier
    · exact absurd heq hshorthand
  literal hn := by
    rw [hk, hliteral] at hn
    cases hn

namespace FirstOrder

variable {program : Place} {n c : Node}

theorem isValue_child (h : FirstOrder program) (hn : n ∈ program.node.preorder)
    (hc : c ∈ n.children) (hname : n.namesChild c = false) (hk : n.kind ≠ .variableDeclarator) :
    IsValue (CallGraph.ofProgram program) c where
  name := h.name n hn c hc hname
  literal hliteral := by
    refine Option.eq_none_iff_forall_ne_some.2 fun f hf => hk ?_
    exact (h.literal n hn c hc hliteral f hf).1

/-- Below most nodes there are values only. -/
theorem isValue_of_namesFunctions (h : FirstOrder program) (hn : n ∈ program.node.preorder)
    (hc : c ∈ n.children) (hk : n.kind.namesFunctions = false) :
    IsValue (CallGraph.ofProgram program) c := by
  simp only [Kind.namesFunctions, Bool.or_eq_false_iff, decide_eq_false_iff_not] at hk
  obtain ⟨⟨⟨hdeclarator, hcall⟩, -⟩, hfunction⟩ := hk
  exact h.isValue_child hn hc (by simp [Node.namesChild, hdeclarator, hcall, hfunction]) hdeclarator

theorem isValue_argument (h : FirstOrder program) (hn : n ∈ program.node.preorder)
    (hc : c ∈ n.callArguments) : IsValue (CallGraph.ofProgram program) c := by
  obtain ⟨list, hlist, hk, hchild⟩ := Node.mem_callArguments hc
  exact h.isValue_of_namesFunctions (Node.mem_preorder_trans hn hlist) hchild (by rw [hk]; rfl)

theorem isValue_unwrapParens (h : FirstOrder program) (hn : n ∈ program.node.preorder)
    (hv : n.unwrapParens = n → IsValue (CallGraph.ofProgram program) n) :
    IsValue (CallGraph.ofProgram program) n.unwrapParens := by
  rcases Node.unwrapParens_eq_or n with heq | ⟨parens, hparens, hk, hchild⟩
  · rw [heq]
    exact hv heq
  · exact h.isValue_of_namesFunctions (Node.mem_preorder_trans hn hparens) hchild (by rw [hk]; rfl)

theorem isValue_return (h : FirstOrder program) (hn : n ∈ program.node.preorder)
    (hf : n.kind.isFunction = true) (hc : c ∈ n.returnExpressions) :
    IsValue (CallGraph.ofProgram program) c := by
  rcases Node.mem_returnExpressions hc with hbody | ⟨statement, hs, hk, hchild⟩
  · have hfield : c.field = some .body := by simpa using List.find?_some hbody
    have hcall : n.kind ≠ .callExpression := fun heq => by rw [heq] at hf; cases hf
    have hdeclarator : n.kind ≠ .variableDeclarator := fun heq => by rw [heq] at hf; cases hf
    refine h.isValue_child hn (List.mem_of_find?_eq_some hbody) ?_ hdeclarator
    simp [Node.namesChild, hfield, hcall]
  · exact h.isValue_of_namesFunctions (Node.mem_preorder_trans hn hs) hchild (by rw [hk]; rfl)

end FirstOrder

/-- The region of a program whose functions are not used as values. No name of a function is
read. -/
def Region.applied {program : Place} (h : FirstOrder program) :
    Region (CallGraph.ofProgram program) where
  typed n := n ∈ program.node.preorder ∧ IsValue (CallGraph.ofProgram program) n
  evaluated n := n ∈ program.node.preorder ∧ n.kind.isFunction = true
  bound n := n ∈ program.node.preorder
  read name := (CallGraph.ofProgram program).declares name = false
  offered _ := True
  typed_unwrapParens := by
    rintro n ⟨hn, hv⟩
    exact ⟨Node.mem_preorder_trans hn (Node.unwrapParens_mem_preorder n),
      h.isValue_unwrapParens hn fun _ => hv⟩
  typed_operand hn hk hc := ⟨(Region.declared program).typed_operand hn.1 hk hc,
    h.isValue_of_namesFunctions hn.1 (List.mem_filter.1 hc).1 hk⟩
  typed_child hn hk hc := ⟨(Region.declared program).typed_child hn.1 hk hc,
    h.isValue_of_namesFunctions hn.1 (List.mem_of_find?_eq_some hc) hk⟩
  typed_argument hn hc :=
    ⟨(Region.declared program).typed_argument hn.1 hc, h.isValue_argument hn.1 hc⟩
  typed_callee hn hc hk := ⟨(Region.declared program).typed_callee hn.1 hc hk,
    .of_kind hk nofun nofun rfl⟩
  typed_return hn hc :=
    ⟨(Region.declared program).typed_return hn hc, h.isValue_return hn.1 hn.2 hc⟩
  typed_resolved hn hc := by
    refine ⟨(Region.declared program).typed_resolved hn hc, ?_⟩
    obtain ⟨call, hcall, hvalue⟩ := Node.mem_resolvedValues hc
    exact h.isValue_argument (Node.mem_preorder_trans hn.1 hcall) hvalue
  evaluated_literal hn hk := (Region.declared program).evaluated_literal hn.1 hk
  evaluated_callee hn hc hk := (Region.declared program).evaluated_callee hn.1 hc hk
  evaluated_function := @CallGraph.node_mem_preorder_of_mem_functions program
  params_function := @CallGraph.params_eq_of_mem_functions program
  read_identifier hn hk htext := hn.2.name (.inl hk) _ htext
  read_shorthand hn hk htext := hn.2.name (.inr hk) _ htext
  read_literal hn hk hf := by
    rw [hn.2.literal hk] at hf
    cases hf
  read_callee _ _ _ _ hf := CallGraph.declares_eq_false hf
  read_param hn hp hname := h.param _ hn.1 hn.2 _ hp _ hname
  offered_param _ _ _ := trivial
  offered_bound _ _ _ := trivial
  typed_default := by
    rintro n c hn hk hc
    refine ⟨Node.mem_preorder_trans hn (Node.mem_preorder_of_child? hc), ?_⟩
    refine h.isValue_of_namesFunctions hn (List.mem_of_find?_eq_some hc) ?_
    rcases hk with hk | hk <;> rw [hk] <;> rfl
  bound_left hn _ hc := Node.mem_preorder_trans hn (Node.mem_preorder_of_child? hc)
  bound_value hn _ hc := Node.mem_preorder_trans hn (Node.mem_preorder_of_child? hc)
  bound_operand hn _ hc := Node.mem_preorder_trans hn (Node.mem_preorder_of_mem_operands hc)

theorem Region.covers_applied {program : Place} (h : FirstOrder program) :
    (Region.applied h).Covers program.node where
  call hn hk := ⟨hn, .of_kind hk nofun nofun rfl⟩
  argument hsite hc := ⟨(Region.covers_declared program).argument hsite hc,
    h.isValue_argument (CallGraph.node_mem_preorder_of_mem_sites hsite) hc⟩
  value := by
    intro n target v hn hk htarget hv hnot
    have hinside := Node.mem_preorder_trans hn (Node.mem_preorder_of_child? hv)
    have hchild := List.mem_of_find?_eq_some hv
    refine ⟨Node.mem_preorder_trans hinside (Node.unwrapParens_mem_preorder v),
      h.isValue_unwrapParens hinside fun heq => ⟨?_, fun hliteral => ?_⟩⟩
    · have hfield : v.field = some .value := by simpa using List.find?_some hv
      exact h.name n hn v hchild (by simp [Node.namesChild, hk, hfield])
    · -- A function of the graph is not typed where its variable is declared.
      refine Option.eq_none_iff_forall_ne_some.2 fun f hf => ?_
      obtain ⟨-, hname⟩ := h.literal n hn v hchild hliteral f hf
      rw [htarget, Option.bind_some, Node.identifierName?] at hname
      split at hname
      · rename_i hidentifier
        have hskip := hnot (by rw [hidentifier]; rfl) f.name hname
        have hdeclares := CallGraph.declares_of_mem (List.mem_of_find?_eq_some hf)
        rw [heq, hliteral, hdeclares] at hskip
        cases hskip
      · cases hname
  declared _ _ _ _ _ := trivial
  pattern hn _ ht _ := Node.mem_preorder_trans hn (Node.mem_preorder_of_child? ht)

/-! ## Signatures -/

/-- Where the writer may replace equals, an estimate is taken unless it is less confident. -/
theorem merge_of_le {old new : Estimate} (h : old.confidence ≤ new.confidence) :
    Estimate.merge (some old) new true = new := by
  have hsup : new.supersedes (some old) true = true := by
    simp only [Estimate.supersedes, Bool.true_and, Bool.or_eq_true, decide_eq_true_eq]
    exact lt_or_eq_of_le h
  rw [Estimate.merge, if_pos hsup]

/-- The signature of a function whose name is held for a function is at least as confident, up to
what a signature is worth. -/
theorem le_signatureOf_confidence {types : TypeMap} {f : DeclaredFunction} {current : Estimate}
    (hcurrent : types.get? f.name = some current) (hfunction : current.type.isFunctionLike = true)
    (hmax : current.confidence ≤ .signatureMax) (returned : Estimate) :
    current.confidence ≤ (signatureOf types f returned).confidence := by
  refine le_min hmax ?_
  simp only [hcurrent, hfunction, if_true]
  exact le_max_right _ _

/-- Maps that agree on the parameters of a function hold the same of its name once its signature is
written: names that are held for different functions are held no firmer than the signature. -/
theorem get?_sign_eq {read : String → Prop} {types others : TypeMap}
    (h : types.Agrees read others) {f : DeclaredFunction}
    (hp : ∀ p ∈ f.params, ∀ name, p.name = some name → read name) (returned : Estimate) :
    (types.assign f.name (signatureOf types f returned) true).get? f.name =
      (others.assign f.name (signatureOf others f returned) true).get? f.name := by
  have hsignature := h.signatureOf_eq hp returned
  rw [TypeMap.get?_assign, TypeMap.get?_assign, if_pos rfl, if_pos rfl]
  rcases (h.similar f.name).eq_or_functions with heq | ⟨a, b, ha, hb, hc, hm, hfa, hfb⟩
  · rw [heq, hsignature]
  · have hbelow := le_signatureOf_confidence ha hfa hm returned
    have hbelow' : b.confidence ≤ (signatureOf types f returned).confidence := by
      rw [← hc]
      exact hbelow
    rw [ha, hb, ← hsignature, merge_of_le hbelow, merge_of_le hbelow']

/-! ## Rounds -/

section

variable {scope : Scope} {region : Region scope.graph} {read : String → Prop} {s t : Session}
variable {f : DeclaredFunction}

/-- After a function was asked for from the empty stack, its result is noted. -/
theorem exists_returns_functionReturn (hample : scope.limits.Ample)
    (h : Concordant scope.graph read 0 [] s t) :
    ∃ e, (outcome (functionReturn scope (infer scope) f) s).2.returns.get? f.name = some e := by
  rw [outcome_functionReturn, h.active.1, if_neg List.not_mem_nil]
  cases hanswered : s.answered.get? f.name with
  | some e => exact ⟨e, (h.noted f.name e hanswered).1⟩
  | none =>
    cases hfinal : finalReturn? s.toKnowledge f with
    | some e => exact ⟨e, (Option.filter_eq_some_iff.1 hfinal).1⟩
    | none =>
      dsimp only
      rw [hample.refused h.active.1]
      exact ⟨_, returns_evaluate _ _ _⟩

/-- Writing a signature from results that agree makes the maps agree on the name of the function. -/
theorem Concordant.sign (hread : ∀ name, region.read name → read name)
    (hf : f ∈ scope.graph.functions) (h : Concordant scope.graph read 0 [] s t) {e : Estimate}
    (hs : s.returns.get? f.name = some e) (ht : t.returns.get? f.name = some e) :
    Concordant scope.graph (fun name => read name ∨ f.name = name) 0 []
      (outcome (writeSignature f) s).2 (outcome (writeSignature f) t).2 := by
  have hparams : ∀ p ∈ f.params, ∀ name, p.name = some name → read name :=
    fun p hp name hname => hread name (region.read_params hf hp hname)
  have hsigned := h.assign f.name (signatureOf s.types f e) true
  rw [outcome_writeSignature, outcome_writeSignature, hs, ht]
  dsimp only
  rw [← h.types.signatureOf_eq hparams]
  refine hsigned.on fun name hname => ?_
  rcases hname with hname | rfl
  · exact hsigned.types.equal name hname
  · have hequal := get?_sign_eq h.types hparams e
    rw [← h.types.signatureOf_eq hparams] at hequal
    exact hequal

/-- At the end of a round each function is signed, and the maps agree on its name. -/
theorem Concordant.refineFunction (hread : ∀ name, region.read name → read name)
    (hample : scope.limits.Ample) (hf : f ∈ scope.graph.functions)
    (h : Concordant scope.graph read 0 [] s t) :
    Concordant scope.graph (fun name => read name ∨ f.name = name) 0 []
      (outcome (Typing.refineFunction scope f) s).2
      (outcome (Typing.refineFunction scope f) t).2 := by
  have sim : Simulation scope region (Concordant scope.graph read) :=
    simulation_concordant hread hample
  rw [outcome_refineFunction, outcome_refineFunction, ← h.final f hf]
  cases hfinal : finalReturn? s.toKnowledge f with
  | some e =>
    have hs := (Option.filter_eq_some_iff.1 hfinal).1
    exact h.sign hread hf hs ((sim.returns_of_final hf h hfinal).symm.trans hs)
  | none =>
    obtain ⟨e, hs⟩ := exists_returns_functionReturn hample h
    have hasked := (sim.functionReturn hf s t h).2
    exact hasked.sign hread hf hs ((sim.returns_functionReturn hf h).symm.trans hs)

theorem Concordant.refineFunctions (hread : ∀ name, region.read name → read name)
    (hample : scope.limits.Ample) {functions : List DeclaredFunction}
    (hfunctions : ∀ f ∈ functions, f ∈ scope.graph.functions)
    (h : Concordant scope.graph read 0 [] s t) :
    Concordant scope.graph (fun name => read name ∨ ∃ f ∈ functions, f.name = name) 0 []
      (outcome (functions.forM (Typing.refineFunction scope)) s).2
      (outcome (functions.forM (Typing.refineFunction scope)) t).2 := by
  induction functions generalizing read s t with
  | nil => exact h.on fun name hname => h.types.equal name (hname.resolve_right nofun)
  | cons f functions ih =>
    have hfirst := h.refineFunction hread hample (hfunctions f (by simp))
    have hrest := ih (fun name hname => .inl (hread name hname))
      (fun g hg => hfunctions g (by simp [hg])) hfirst
    refine hrest.on fun name hname => hrest.types.equal name ?_
    rcases hname with hname | ⟨g, hg, hname⟩
    · exact .inl (.inl hname)
    · rcases List.mem_cons.1 hg with rfl | hg
      · exact .inl (.inr hname)
      · exact .inr ⟨g, hg, hname⟩

end

/-- Rounds of a program that only calls its functions, from knowledge that agrees but for what the
names of functions are held for, end with the same types. -/
theorem agrees_round {program : Place} {limits : Limits} (hprogram : FirstOrder program)
    (hample : limits.Ample) {known other : Knowledge}
    (h : Alike (CallGraph.ofProgram program)
      (fun name => (CallGraph.ofProgram program).declares name = false) known other) :
    (Inference.round ⟨CallGraph.ofProgram program, limits⟩ program known).types.Agrees
      (fun _ => True)
      (Inference.round ⟨CallGraph.ofProgram program, limits⟩ program other).types := by
  let scope : Scope := ⟨CallGraph.ofProgram program, limits⟩
  let region : Region scope.graph := Region.applied hprogram
  have cover : region.Covers program.node := Region.covers_applied hprogram
  have sim : Simulation scope region (Concordant scope.graph _) :=
    simulation_concordant (fun _ hname => hname) hample
  have hpassed := (sim.propagate cover _ _ h.start).2
  have hsites := (InStep.forM (fun site hsite => sim.refineSite cover hsite) _ _ hpassed).2
  have hsigned := hsites.refineFunctions (fun _ hname => hname) hample fun f hf => hf
  have husage : Usage.ofProgram program known.types = Usage.ofProgram program other.types :=
    Usage.ofProgram_congr program h.types.mem_names_iff
  -- A name that is not read is the name of a function, and that was signed.
  have hall : (roundSession scope program.node known).types.Agrees (fun _ => True)
      (roundSession scope program.node other).types := by
    refine ⟨fun name _ => hsigned.types.equal name ?_, hsigned.types.similar⟩
    cases hd : scope.graph.declares name with
    | false => exact .inl hd
    | true =>
      obtain ⟨f, hf, hname⟩ := List.any_eq_true.1 hd
      exact .inr ⟨f, hf, of_decide_eq_true hname⟩
  unfold Inference.round
  rw [husage]
  exact hall.fold _

end Typing

end ScriptTypes
