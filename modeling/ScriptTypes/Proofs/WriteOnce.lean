import ScriptTypes.Proofs.Requests
import ScriptTypes.Proofs.Settling

/-!
# Results are written once

Within a session the result of a function is written when its evaluation ends, and a function that
has an answer is not evaluated again. So an answer that was given once is given ever after, and in
the log of a session no function stands twice.

* `Answers`: what a session answers where no function is under evaluation.
* `answers_step`, `answers_steps`: no step changes an answer.
* `Logged`: a log in which each function of a program stands at most once.
* `exists_writes`: all that is written between two moments of a session is in its log.
* `results_written_once`: any number of requests, and rounds.
-/

namespace ScriptTypes

/-- The table after some writes, one after the other. -/
def Table.setAll {α : Type} (table : Table α) (writes : List (String × α)) : Table α :=
  writes.foldl (fun table write => table.set write.1 write.2) table

namespace Table

variable {α : Type} {table : Table α} {name : String}

theorem setAll_concat (table : Table α) (writes : List (String × α)) (write : String × α) :
    table.setAll (writes ++ [write]) = (table.setAll writes).set write.1 write.2 := by
  rw [setAll, setAll, List.foldl_append, List.foldl_cons, List.foldl_nil]

/-- Writes do not take a value away. -/
theorem exists_get?_setAll (writes : List (String × α)) {value : α}
    (h : table.get? name = some value) :
    ∃ value', (table.setAll writes).get? name = some value' := by
  induction writes generalizing table value with
  | nil => exact ⟨value, h⟩
  | cons write writes ih =>
    have hset : ∃ value', (table.set write.1 write.2).get? name = some value' := by
      rw [get?_set]
      split
      · exact ⟨_, rfl⟩
      · exact ⟨value, h⟩
    obtain ⟨value', hvalue'⟩ := hset
    exact ih hvalue'

end Table

namespace Typing

open Relation (ReflTransGen)

variable {graph : CallGraph} {offered : String → Prop} {scope : Scope} {s t : Session}
variable {infer : Node → SessionM Estimate} {f : DeclaredFunction} {e : Estimate}

/-! ## Answers -/

/-- What a session answers where no function is under evaluation: what it answered before, or a
result that is final. -/
def Answers (s : Session) (f : DeclaredFunction) (e : Estimate) : Prop :=
  s.answered.get? f.name = some e ∨
    s.answered.get? f.name = none ∧ finalReturn? s.toKnowledge f = some e

theorem outcome_functionReturn_of_answers (hs : s.active = []) (h : Answers s f e) :
    outcome (functionReturn scope infer f) s = (some e, s) := by
  rw [outcome_functionReturn, hs, if_neg List.not_mem_nil]
  rcases h with h | ⟨h, hfinal⟩
  · rw [h]
  · rw [h, hfinal]

theorem answers_functionReturn (h : (outcome (functionReturn scope infer f) s).1 = some e) :
    Answers (outcome (functionReturn scope infer f) s).2 f e := by
  rw [outcome_functionReturn] at h ⊢
  split at h
  · cases h
  · rename_i hactive
    rw [if_neg hactive]
    cases ha : s.answered.get? f.name with
    | some returned =>
      rw [ha] at h
      exact .inl (ha.trans h)
    | none =>
      rw [ha] at h
      cases hfinal : finalReturn? s.toKnowledge f with
      | some returned =>
        rw [hfinal] at h
        exact .inr ⟨ha, hfinal.trans h⟩
      | none =>
        rw [hfinal] at h
        dsimp only at h ⊢
        split at h
        · cases h
        · rename_i hrefuse
          rw [if_neg hrefuse]
          exact .inl ((answered_evaluate infer f _).trans h)

/-- A step does not change an answer: only functions without one are evaluated. -/
theorem answers_step (h : Step graph offered s t) (he : Answers s f e) : Answers t f e := by
  cases h with
  | offer | sign | bookkeep => exact he
  | @record g value _ hopen =>
    have hne : g.name ≠ f.name := by
      intro heq
      rw [heq] at hopen
      rcases he with he | ⟨-, he⟩
      · rw [hopen.answered] at he
        cases he
      · exact absurd (hopen.final.symm.trans he) nofun
    have hanswered : Entries.get? ((g.name, value) :: s.answered) f.name =
        s.answered.get? f.name := if_neg hne
    refine he.imp hanswered.trans fun ⟨hnone, hfinal⟩ => ⟨hanswered.trans hnone, ?_⟩
    exact (congrArg (Option.filter _) (s.returns.get?_set_of_ne hne value)).trans hfinal

theorem answers_steps (h : ReflTransGen (Step graph offered) s t) (he : Answers s f e) :
    Answers t f e := by
  induction h with
  | refl => exact he
  | tail _ hstep ih => exact answers_step hstep ih

/-! ## Writes -/

/-- The log of a session: no function stands in it twice, and all are functions of the program. -/
structure Logged (graph : CallGraph) (s : Session) : Prop where
  once : (Entries.names s.answered).Nodup
  declared : ∀ name ∈ Entries.names s.answered, graph.declares name = true

/-- A result is noted of a function that has none in the log. -/
theorem logged_step (h : Step graph offered s t) (hs : Logged graph s) : Logged graph t := by
  cases h with
  | offer | sign | bookkeep => exact ⟨hs.once, hs.declared⟩
  | @record f e hf hopen =>
    have hnew : f.name ∉ Entries.names s.answered := by
      intro hmem
      obtain ⟨value, hvalue⟩ := Entries.mem_names_iff.1 hmem
      exact absurd (hopen.answered.symm.trans hvalue) nofun
    refine ⟨List.nodup_cons.2 ⟨hnew, hs.once⟩, ?_⟩
    exact List.forall_mem_cons.2 ⟨CallGraph.declares_of_mem hf, hs.declared⟩

theorem logged_steps (h : ReflTransGen (Step graph offered) s t) (hs : Logged graph s) :
    Logged graph t := by
  induction h with
  | refl => exact hs
  | tail _ hstep ih => exact logged_step hstep ih

/-- However a session is reached from another by steps, all that was written is in its log, the
latest first. -/
theorem exists_writes (h : ReflTransGen (Step graph offered) s t) :
    ∃ writes, t.answered = writes ++ s.answered ∧
      t.returns = s.returns.setAll writes.reverse := by
  induction h with
  | refl => exact ⟨[], rfl, rfl⟩
  | tail _ hstep ih =>
    obtain ⟨writes, hanswered, hreturns⟩ := ih
    cases hstep with
    | offer | sign | bookkeep => exact ⟨writes, hanswered, hreturns⟩
    | @record f e =>
      refine ⟨(f.name, e) :: writes, congrArg ((f.name, e) :: ·) hanswered, ?_⟩
      rw [List.reverse_cons, Table.setAll_concat, ← hreturns]

/-! ## While a request is answered -/

/-- Whether some function is under evaluation twice, or although it was answered. -/
def Session.disorderly (s : Session) : Bool :=
  !decide (s.active.filterMap id).Nodup ||
    (s.active.filterMap id).any fun name => (s.answered.get? name).isSome

theorem Reached.disorderly_eq {nesting : Nat} {stack : List (Option String)}
    (h : Reached graph offered s nesting stack t) : t.disorderly = false := by
  have hnone : ∀ name ∈ stack.filterMap id, (t.answered.get? name).isSome = false := by
    intro name hname
    rw [(h.unsettled name (by simpa using hname)).answered]
    rfl
  rw [Session.disorderly, h.active, decide_eq_true h.distinct, Bool.not_true, Bool.false_or,
    List.any_eq_false]
  intro name hname
  rw [hnone name hname]
  exact Bool.false_ne_true

end Typing

namespace Inference

open Typing

/-- Of the requests that a session is asked, none leaves a function under evaluation or an
expression that is being typed, and none evaluates a function inside itself or after it was
answered. Once a function was answered, to a request or while another was answered, it is answered
alike after any further requests, and the session stays as it is. All results that are written are
in the log of the session, to which further requests add, and no function stands in it twice. A
round takes no result away and leaves one that is held at 0.9 or above as it is. -/
theorem results_written_once (program : Place) (known : Knowledge) (budget : Budget)
    (earlier later : List (Request (CallGraph.ofProgram program))) :
    let graph := CallGraph.ofProgram program
    let scope : Scope := ⟨graph, budget.limits⟩
    let s := (Session.start known).serve scope earlier
    let t := s.serve scope later
    (s.active = [] ∧ s.nesting = 0) ∧
    (∀ (request : Request graph) (alarm : SessionM Estimate),
      outcome (request.perform scope (watched scope Session.disorderly alarm)) s =
        outcome (request.perform scope (infer scope)) s) ∧
    (∀ f ∈ graph.functions,
      let asked := outcome (functionReturn scope (infer scope) f) s
      let t := asked.2.serve scope later
      ∀ e, asked.1 = some e →
        outcome (functionReturn scope (infer scope) f) t = (some e, t)) ∧
    (∀ f ∈ graph.functions, ∀ e, s.answered.get? f.name = some e →
      outcome (functionReturn scope (infer scope) f) t = (some e, t)) ∧
    ((Entries.names s.answered).Nodup ∧
      (∀ name ∈ Entries.names s.answered, graph.declares name = true) ∧
      s.returns = known.returns.setAll s.answered.reverse) ∧
    (∃ writes, t.answered = writes ++ s.answered ∧
      t.returns = s.returns.setAll writes.reverse) ∧
    ∀ usage : Usage, ∀ f ∈ graph.functions, ∀ e, known.returns.get? f.name = some e →
      ∃ e', (resolve scope program.node usage known).returns.get? f.name = some e' ∧
        (.percent 90 ≤ e.confidence → e' = e) := by
  intro graph scope s t
  obtain ⟨hs, hnesting, hearlier⟩ :=
    steps_serve (s := Session.start known) budget.limits rfl rfl earlier
  obtain ⟨ht, -, hlater⟩ := steps_serve budget.limits hs hnesting later
  refine ⟨⟨hs, hnesting⟩, ?_, ?_, ?_, ?_, exists_writes hlater, ?_⟩
  · intro request alarm
    exact outcome_perform_watched hs (fun _ _ _ h _ => h.disorderly_eq) alarm request
  · intro f hf asked t e he
    have hasked := reached_perform budget.limits hs hnesting (.functionReturn f hf)
    obtain ⟨ht, -, hsteps⟩ := steps_serve budget.limits hasked.active hasked.nesting later
    exact outcome_functionReturn_of_answers ht (answers_steps hsteps (answers_functionReturn he))
  · intro f _ e he
    exact outcome_functionReturn_of_answers ht (answers_steps hlater (.inl he))
  · have hlogged : Logged graph s := logged_steps hearlier ⟨List.nodup_nil, nofun⟩
    obtain ⟨writes, hanswered, hreturns⟩ := exists_writes hearlier
    have hlog : s.answered = writes := hanswered.trans (List.append_nil writes)
    exact ⟨hlogged.once, hlogged.declared, hlog ▸ hreturns⟩
  · intro usage f hf e he
    have hsteps := steps_ofProgram program budget.limits program.node known
    obtain ⟨writes, -, hreturns⟩ := exists_writes hsteps
    obtain ⟨e', he'⟩ := Table.exists_get?_setAll writes.reverse he
    have hresult : (resolve scope program.node usage known).returns.get? f.name = some e' :=
      (congrArg (Table.get? · f.name) hreturns).trans he'
    refine ⟨e', hresult, fun hfirm => ?_⟩
    have hfinal : finalReturn? known f = some e :=
      Option.filter_eq_some_iff.2 ⟨he, decide_eq_true hfirm⟩
    have hkept := (Option.filter_eq_some_iff.1 (finalReturn?_steps hsteps hfinal)).1
    exact Option.some.inj (hresult.symm.trans hkept)

/-- Two functions that call each other: what is answered when one of them is asked for, itself and
the other, is the answer after any further requests, and a round from final results leaves them
alone. -/
theorem results_written_once_shadowed :
    let graph := CallGraph.ofProgram shadowedResult
    let scope : Scope := ⟨graph, patient.limits⟩
    graph.functions.map (·.name) = ["h", "f"] ∧
    (∀ f ∈ graph.functions,
      let asked := outcome (functionReturn scope (infer scope) f)
        (Session.start (initial shadowedResult))
      (∃ e, asked.1 = some e ∧ ∀ later : List (Request graph),
        (outcome (functionReturn scope (infer scope) f) (asked.2.serve scope later)).1 = some e) ∧
      ∀ g ∈ graph.functions, ∃ e, asked.2.answered.get? g.name = some e ∧
        ∀ later : List (Request graph),
          (outcome (functionReturn scope (infer scope) g) (asked.2.serve scope later)).1 = some e) ∧
    ∀ f ∈ graph.functions, ∃ e, shadowedEnd.returns.get? f.name = some e ∧
      ∀ (budget : Budget) (usage : Usage),
        (resolve ⟨graph, budget.limits⟩ shadowedResult.node usage shadowedEnd).returns.get? f.name =
          some e := by
  intro graph scope
  have hanswered : ∀ f ∈ graph.functions,
      let asked := outcome (functionReturn scope (infer scope) f)
        (Session.start (initial shadowedResult))
      asked.1.isSome = true ∧
        ∀ g ∈ graph.functions, (asked.2.answered.get? g.name).isSome = true := by decide +kernel
  have hfirm : ∀ f ∈ graph.functions, (shadowedEnd.returns.get? f.name).any
      (fun e => decide (.percent 90 ≤ e.confidence)) = true := by decide +kernel
  refine ⟨by decide +kernel, fun f hf => ⟨?_, fun g hg => ?_⟩, fun f hf => ?_⟩
  · obtain ⟨e, he⟩ := Option.isSome_iff_exists.1 (hanswered f hf).1
    refine ⟨e, he, fun later => ?_⟩
    have hlater := (results_written_once shadowedResult (initial shadowedResult) patient []
      later).2.2.1 f hf e he
    exact congrArg Prod.fst hlater
  · obtain ⟨e, he⟩ := Option.isSome_iff_exists.1 ((hanswered f hf).2 g hg)
    refine ⟨e, he, fun later => ?_⟩
    have hlater := (results_written_once shadowedResult (initial shadowedResult) patient
      [.functionReturn f hf] later).2.2.2.1 g hg e he
    exact congrArg Prod.fst hlater
  · obtain ⟨e, he, hconfidence⟩ := (Option.any_eq_true _ _).1 (hfirm f hf)
    refine ⟨e, he, fun budget usage => ?_⟩
    obtain ⟨e', he', hsame⟩ :=
      (results_written_once shadowedResult shadowedEnd budget [] []).2.2.2.2.2.2 usage f hf e he
    rw [he', hsame (of_decide_eq_true hconfidence)]

end Inference

end ScriptTypes
