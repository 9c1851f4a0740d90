import SsaReplay.Proofs.Success.Edge
import SsaReplay.Replay.Expr

namespace SsaReplay.Replay

open SsaReplay.Graph (Callee Operation)
open SsaReplay.Yul (Expr Literal Symbol)

namespace State

-- The state after the operation at the position was taken as done.
def consume (s : State) (site : Site) (op : Operation) : State :=
  { s.log site (.consumed s.block s.op op s.bindings) with op := s.op + 1 }

variable (s : State) (site : Site) (op : Operation)

@[simp] theorem consume_scope : (s.consume site op).scope? = s.scope? := rfl

@[simp] theorem consume_block : (s.consume site op).block = s.block := rfl

@[simp] theorem consume_op : (s.consume site op).op = s.op + 1 := rfl

@[simp] theorem consume_bindings : (s.consume site op).bindings = s.bindings := rfl

@[simp] theorem consume_loops : (s.consume site op).loops = s.loops := rfl

@[simp] theorem consume_warnings : (s.consume site op).warnings = s.warnings := rfl

@[simp] theorem consume_history :
    (s.consume site op).history = ⟨site, .consumed s.block s.op op s.bindings⟩ :: s.history := rfl

end State

-- An expression with its candidates turns out to be a value of the graph. A variable
-- is committed to it.
inductive Reconciled (ctx : Context) (s : State) : Expr → ValueSet → ValueId → State → Prop
  | named {name : String} {candidates held : ValueSet} {x : VariableId} {v : ValueId}
      (resolved : ctx.scopes.symbol? s.scope? name = some (.var x))
      (bound : s.bindings.lookup x = some held) (member : v ∈ held) :
      Reconciled ctx s (.ident name) candidates v { s with bindings := s.bindings.narrow x v }
  | result {e : Expr} {candidates : ValueSet} {v : ValueId} (noName : ∀ name, e ≠ .ident name)
      (only : candidates.only? = some v) : Reconciled ctx s e candidates v s

-- Operands are reconciled with the inputs of an operation, from the first to the last.
inductive OperandsReconciled (ctx : Context) :
    State → List (Expr × ValueSet) → List ValueId → State → Prop
  | nil {s : State} : OperandsReconciled ctx s [] [] s
  | cons {s t u : State} {e : Expr} {candidates : ValueSet} {v : ValueId}
      {operands : List (Expr × ValueSet)} {inputs : List ValueId}
      (first : Reconciled ctx s e candidates v t)
      (rest : OperandsReconciled ctx t operands inputs u) :
      OperandsReconciled ctx s ((e, candidates) :: operands) (v :: inputs) u

-- What a name stands for, where it is called, is the callee of an operation with that
-- many outputs. The flag tells whether control comes back.
inductive Callable (ctx : Context) (scope? : Option ScopeId) (name : String) :
    Callee → Nat → Bool → Prop
  | builtin {b : BuiltinId} {builtin : Yul.Builtin} (found : ctx.dialect.find? name = some b)
      (data : ctx.dialect.builtin? b = some builtin) :
      Callable ctx scope? name (.builtin b) builtin.returns builtin.effects.canContinue
  | function {f : FunctionId} {canContinue : Bool} {graph : Graph.Cfg}
      (noBuiltin : ctx.dialect.find? name = none)
      (resolved : ctx.scopes.symbol? scope? name = some (.func f))
      (defined : ctx.flow.graphOf? f = some graph) :
      Callable ctx scope? name (.function f canContinue) graph.returns.length canContinue

variable {ctx : Context} {s t : State}

theorem Reconciled.position {e : Expr} {candidates : ValueSet} {v : ValueId}
    (h : Reconciled ctx s e candidates v t) : t.block = s.block ∧ t.op = s.op := by
  cases h <;> exact ⟨rfl, rfl⟩

-- What holds of a state holds after any number of operands, if each of them keeps it.
theorem OperandsReconciled.invariant {P : State → Prop} {operands : List (Expr × ValueSet)}
    {inputs : List ValueId} (h : OperandsReconciled ctx s operands inputs t)
    (one : ∀ {u e candidates v w}, Reconciled ctx u e candidates v w → P u → P w)
    (hs : P s) : P t := by
  induction h with
  | nil => exact hs
  | cons first _ ih => exact ih (one first hs)

theorem OperandsReconciled.position {operands : List (Expr × ValueSet)} {inputs : List ValueId}
    (h : OperandsReconciled ctx s operands inputs t) : t.block = s.block ∧ t.op = s.op :=
  h.invariant (P := fun u => u.block = s.block ∧ u.op = s.op)
    (fun first here => ⟨first.position.1.trans here.1, first.position.2.trans here.2⟩) ⟨rfl, rfl⟩

-- The operation that the operands are for is still the next one after them.
theorem OperandsReconciled.nextOperation {operands : List (Expr × ValueSet)}
    {inputs : List ValueId} (h : OperandsReconciled ctx s operands inputs t)
    {data : Graph.BasicBlock} {op : Graph.Operation} (block : ctx.graph.block? s.block = some data)
    (atOp : data.operations[s.op]? = some op) :
    ctx.graph.block? t.block = some data ∧ data.operations[t.op]? = some op := by
  obtain ⟨hb, ho⟩ := h.position
  exact ⟨hb ▸ block, ho ▸ atOp⟩

theorem resolve_eq_ok {name : String} {symbol : Symbol} :
    resolve ctx name s = .ok symbol t ↔
      ctx.scopes.symbol? s.scope? name = some symbol ∧ s = t := by
  simp only [resolve, bind_eq_ok, get_eq_ok, Yul.Scopes.symbol?]
  constructor
  · rintro ⟨_, _, ⟨rfl, rfl⟩, h⟩
    cases hs : s.scope? with
    | none => simp [hs] at h
    | some scope =>
        simp only [hs] at h
        cases hl : ctx.scopes.lookup scope name with
        | none => simp [hl] at h
        | some found => simpa [hl] using h
  · rintro ⟨h, rfl⟩
    refine ⟨s, s, ⟨rfl, rfl⟩, ?_⟩
    obtain ⟨scope, hs, hl⟩ := Option.bind_eq_some_iff.mp h
    simp [hs, hl]

theorem resolveVariable_eq_ok {name : String} {x : VariableId} :
    resolveVariable ctx name s = .ok x t ↔
      ctx.scopes.symbol? s.scope? name = some (.var x) ∧ s = t := by
  simp only [resolveVariable, bind_eq_ok, resolve_eq_ok]
  constructor
  · rintro ⟨symbol, _, ⟨hs, rfl⟩, h⟩
    cases symbol with
    | var y =>
        obtain ⟨rfl, rfl⟩ := pure_eq_ok.mp h
        exact ⟨hs, rfl⟩
    | func f => exact absurd h rejectBlock_ne_ok
  · rintro ⟨hs, rfl⟩
    exact ⟨_, s, ⟨hs, rfl⟩, pure_eq_ok.mpr ⟨rfl, rfl⟩⟩

theorem resolveFunction_eq_ok {name : String} {f : FunctionId} :
    resolveFunction ctx name s = .ok f t ↔
      ctx.scopes.symbol? s.scope? name = some (.func f) ∧ s = t := by
  simp only [resolveFunction, bind_eq_ok, resolve_eq_ok]
  constructor
  · rintro ⟨symbol, _, ⟨hs, rfl⟩, h⟩
    cases symbol with
    | var y => exact absurd h rejectBlock_ne_ok
    | func g =>
        obtain ⟨rfl, rfl⟩ := pure_eq_ok.mp h
        exact ⟨hs, rfl⟩
  · rintro ⟨hs, rfl⟩
    exact ⟨_, s, ⟨hs, rfl⟩, pure_eq_ok.mpr ⟨rfl, rfl⟩⟩

theorem readVariable_eq_ok {name : String} {values : ValueSet} :
    readVariable ctx name s = .ok values t ↔
      (∃ x, ctx.scopes.symbol? s.scope? name = some (.var x) ∧
        s.bindings.lookup x = some values) ∧ s = t := by
  simp only [readVariable, bind_eq_ok, resolveVariable_eq_ok, get_eq_ok, orReject_eq_ok]
  constructor
  · rintro ⟨x, _, ⟨hx, rfl⟩, _, _, ⟨rfl, rfl⟩, hb, rfl⟩
    exact ⟨⟨x, hx, hb⟩, rfl⟩
  · rintro ⟨⟨x, hx, hb⟩, rfl⟩
    exact ⟨x, s, ⟨hx, rfl⟩, s, s, ⟨rfl, rfl⟩, hb, rfl⟩

theorem readLiteral_eq_ok {l : Literal} {v : ValueId} :
    readLiteral ctx l s = .ok v t ↔ ctx.graph.literal? l.value = some v ∧ s = t :=
  orReject_eq_ok

theorem readZero_eq_ok {v : ValueId} :
    readZero ctx s = .ok v t ↔ ctx.graph.zero? = some v ∧ s = t :=
  orReject_eq_ok

theorem reconciled_of_ok {e : Expr} {candidates : ValueSet} {v : ValueId}
    (h : reconcile ctx e candidates v s = .ok true t) : Reconciled ctx s e candidates v t := by
  cases e with
  | ident name =>
      simp only [reconcile, bind_eq_ok, resolveVariable_eq_ok, get_eq_ok, ite_eq_ok,
        setBindings_eq_ok, pure_eq_ok, reduceCtorEq, false_and, and_false, or_false] at h
      obtain ⟨x, _, ⟨hx, rfl⟩, _, _, ⟨rfl, rfl⟩, hh, _, _, rfl, -, rfl⟩ := h
      obtain ⟨held, hl, hv⟩ := (Option.any_eq_true _ _).mp hh
      exact .named hx hl ((ValueSet.contains_iff _ _).mp hv)
  | literal l =>
      obtain ⟨ho, rfl⟩ := pure_eq_ok.mp h
      exact .result (by simp) (of_decide_eq_true ho)
  | call name arguments =>
      obtain ⟨ho, rfl⟩ := pure_eq_ok.mp h
      exact .result (by simp) (of_decide_eq_true ho)

theorem operandsReconciled_of_ok {name : String} {i : Nat} {operands : List (Expr × ValueSet)}
    {inputs : List ValueId} {u : Unit} (hl : inputs.length = operands.length)
    (h : reconcileOperands ctx name i operands inputs s = .ok u t) :
    OperandsReconciled ctx s operands inputs t := by
  induction operands generalizing i inputs s with
  | nil =>
      obtain rfl := List.length_eq_zero_iff.mp hl
      obtain ⟨-, rfl⟩ := pure_eq_ok.mp h
      exact .nil
  | cons operand operands ih =>
      obtain ⟨e, candidates⟩ := operand
      cases inputs with
      | nil => simp at hl
      | cons input inputs =>
          simp only [reconcileOperands, bind_eq_ok, ite_eq_ok, rejectOperation_ne_ok, and_false,
            or_false] at h
          obtain ⟨fits, w, hr, rfl, h⟩ := h
          exact .cons (reconciled_of_ok hr) (ih (by simpa using hl) h)

theorem callable_of_ok {name : String} {callee : Callee} {outputs : Nat} {canContinue : Bool}
    (h : checkCallee ctx name callee outputs s = .ok canContinue t) :
    Callable ctx s.scope? name callee outputs canContinue ∧ s = t := by
  cases callee with
  | builtin b =>
      simp only [checkCallee] at h
      cases hn : ctx.dialect.named? name with
      | none => simp [hn] at h
      | some builtin =>
          simp only [hn, ite_eq_ok, rejectOperation_ne_ok, and_false, false_or, pure_eq_ok,
            not_not] at h
          obtain ⟨hf, rfl, rfl, rfl⟩ := h
          refine ⟨.builtin hf ?_, rfl⟩
          rwa [Yul.Dialect.named?, hf] at hn
  | function f flag =>
      simp only [checkCallee, bind_eq_ok, ite_eq_ok, rejectOperation_ne_ok, and_false, false_or,
        resolveFunction_eq_ok, orReject_eq_ok, pure_eq_ok, not_not] at h
      obtain ⟨hf, g, _, ⟨hr, rfl⟩, rfl, graph, _, ⟨hg, rfl⟩, rfl, rfl, rfl⟩ := h
      exact ⟨.function (by simpa using hf) hr hg, rfl⟩

theorem consume_eq_ok {op : Operation} {u : Unit} :
    Replay.consume ctx op s = .ok u t ↔ s.consume ctx.site op = t := by
  simp [Replay.consume, State.consume, and_assoc]

-- The operation at the position answers a call whose operands were replayed. When
-- control does not come back from it, the block ends there and there are no results.
inductive CallMatched (ctx : Context) (name : String) (operands : List (Expr × ValueSet))
    (s : State) : Option (List ValueSet) → State → Prop
  | returning {data : Graph.BasicBlock} {op : Operation} {u : State}
      (block : ctx.graph.block? s.block = some data) (atOp : data.operations[s.op]? = some op)
      (inputs : OperandsReconciled ctx s operands op.inputs u)
      (callee : Callable ctx u.scope? name op.callee op.outputs.length true) :
      CallMatched ctx name operands s (some (op.outputs.map .single)) (u.consume ctx.site op)
  | final {data : Graph.BasicBlock} {op : Operation} {u : State}
      (block : ctx.graph.block? s.block = some data) (atOp : data.operations[s.op]? = some op)
      (inputs : OperandsReconciled ctx s operands op.inputs u)
      (callee : Callable ctx u.scope? name op.callee op.outputs.length false)
      (ends : AtExit ctx (u.consume ctx.site op) .terminated) :
      CallMatched ctx name operands s none
        ((u.consume ctx.site op).log ctx.site (.left u.block .terminated))

theorem callMatched_of_ok {name : String} {operands : List (Expr × ValueSet)}
    {results? : Option (List ValueSet)} (h : matchCall ctx name operands s = .ok results? t) :
    CallMatched ctx name operands s results? t := by
  simp only [matchCall, bind_eq_ok, get_eq_ok, blockData_eq_ok, orReject_eq_ok, ite_eq_ok,
    rejectOperation_ne_ok, and_false, false_or, not_not, consume_eq_ok, pure_eq_ok,
    leaveByTermination_eq_ok] at h
  obtain ⟨_, _, ⟨rfl, rfl⟩, data, _, ⟨hd, rfl⟩, op, _, ⟨ho, rfl⟩, hl, _, u, hr, canContinue, _, hc,
    _, _, rfl, h⟩ := h
  obtain ⟨hcall, rfl⟩ := callable_of_ok hc
  have hin := operandsReconciled_of_ok hl hr
  rcases h with ⟨rfl, rfl, rfl⟩ | ⟨hf, _, _, ⟨hx, rfl⟩, rfl, rfl⟩
  · exact .returning hd ho hin hcall
  · obtain rfl : canContinue = false := by simpa using hf
    exact .final hd ho hin hcall hx

theorem oneValue_eq_ok {values? : Option (List ValueSet)} {value? : Option ValueSet} :
    oneValue ctx values? s = .ok value? t ↔
      (values? = none ∧ value? = none ∨ ∃ value, values? = some [value] ∧ value? = some value) ∧
        s = t := by
  unfold oneValue
  split
  · simp [eq_comm]
  · simp [eq_comm]
  · next results hne =>
    simp only [rejectOperation_ne_ok, false_iff, not_and, reduceCtorEq, false_and, false_or,
      Option.some.injEq]
    rintro ⟨value, rfl, -⟩
    exact absurd rfl (hne value)

theorem replayExpr_ident_eq_ok {name : String} {values? : Option (List ValueSet)} :
    replayExpr ctx (.ident name) s = .ok values? t ↔
      (∃ x held, ctx.scopes.symbol? s.scope? name = some (.var x) ∧
        s.bindings.lookup x = some held ∧ values? = some [held]) ∧ s = t := by
  simp only [replayExpr, bind_eq_ok, readVariable_eq_ok, pure_eq_ok]
  constructor
  · rintro ⟨held, _, ⟨⟨x, hx, hb⟩, rfl⟩, rfl, rfl⟩
    exact ⟨⟨x, held, hx, hb, rfl⟩, rfl⟩
  · rintro ⟨⟨x, held, hx, hb, rfl⟩, rfl⟩
    exact ⟨held, s, ⟨⟨x, hx, hb⟩, rfl⟩, rfl, rfl⟩

theorem replayExpr_literal_eq_ok {l : Literal} {values? : Option (List ValueSet)} :
    replayExpr ctx (.literal l) s = .ok values? t ↔
      (∃ v, ctx.graph.literal? l.value = some v ∧ values? = some [.single v]) ∧ s = t := by
  simp only [replayExpr, bind_eq_ok, readLiteral_eq_ok, pure_eq_ok]
  constructor
  · rintro ⟨v, _, ⟨hv, rfl⟩, rfl, rfl⟩
    exact ⟨⟨v, hv, rfl⟩, rfl⟩
  · rintro ⟨⟨v, hv, rfl⟩, rfl⟩
    exact ⟨v, s, ⟨hv, rfl⟩, rfl, rfl⟩

-- The arguments of a call that are resolved when the program is compiled.
def skips (ctx : Context) (name : String) (i : Nat) : Bool :=
  (ctx.dialect.named? name).any (·.isLiteralArgument i)

theorem replayExpr_call_of_ok {name : String} {arguments : List Expr}
    {values? : Option (List ValueSet)}
    (h : replayExpr ctx (.call name arguments) s = .ok values? t) :
    values? = none ∧ replayArguments ctx (skips ctx name) 0 arguments s = .ok none t ∨
      ∃ operands u, replayArguments ctx (skips ctx name) 0 arguments s = .ok (some operands) u ∧
        CallMatched ctx name operands u values? t := by
  simp only [replayExpr, bind_eq_ok] at h
  obtain ⟨operands?, u, ha, h⟩ := h
  cases operands? with
  | none =>
      obtain ⟨rfl, rfl⟩ := pure_eq_ok.mp h
      exact .inl ⟨rfl, ha⟩
  | some operands => exact .inr ⟨operands, u, ha, callMatched_of_ok h⟩

theorem replayArguments_nil_eq_ok {skipped : Nat → Bool} {i : Nat}
    {operands? : Option (List (Expr × ValueSet))} :
    replayArguments ctx skipped i [] s = .ok operands? t ↔ operands? = some [] ∧ s = t := by
  simp [replayArguments, eq_comm]

-- Later arguments come first. One that does not return keeps the earlier ones from
-- being replayed.
theorem replayArguments_cons_of_ok {skipped : Nat → Bool} {i : Nat} {e : Expr} {rest : List Expr}
    {operands? : Option (List (Expr × ValueSet))}
    (h : replayArguments ctx skipped i (e :: rest) s = .ok operands? t) :
    operands? = none ∧ replayArguments ctx skipped (i + 1) rest s = .ok none t ∨
      ∃ operands u, replayArguments ctx skipped (i + 1) rest s = .ok (some operands) u ∧
        (skipped i = true ∧ operands? = some operands ∧ u = t ∨
          skipped i = false ∧ replayExpr ctx e u = .ok none t ∧ operands? = none ∨
          skipped i = false ∧ ∃ values, replayExpr ctx e u = .ok (some [values]) t ∧
            operands? = some ((e, values) :: operands)) := by
  simp only [replayArguments, bind_eq_ok] at h
  obtain ⟨later?, u, ha, h⟩ := h
  cases later? with
  | none =>
      obtain ⟨rfl, rfl⟩ := pure_eq_ok.mp h
      exact .inl ⟨rfl, ha⟩
  | some operands =>
      refine .inr ⟨operands, u, ha, ?_⟩
      simp only [ite_eq_ok, pure_eq_ok, bind_eq_ok, oneValue_eq_ok] at h
      obtain ⟨hs, rfl, rfl⟩ | ⟨hs, values?, _, he, value?, _, ⟨hv, rfl⟩, h⟩ := h
      · exact .inl ⟨hs, rfl, rfl⟩
      · have hs : skipped i = false := by simpa using hs
        obtain ⟨rfl, rfl⟩ | ⟨values, rfl, rfl⟩ := hv
        · obtain ⟨rfl, rfl⟩ := pure_eq_ok.mp h
          exact .inr (.inl ⟨hs, he, rfl⟩)
        · obtain ⟨rfl, rfl⟩ := pure_eq_ok.mp h
          exact .inr (.inr ⟨hs, values, he, rfl⟩)

theorem replayOne_eq_ok {e : Expr} {value? : Option ValueSet} :
    replayOne ctx e s = .ok value? t ↔
      ∃ values?, replayExpr ctx e s = .ok values? t ∧
        (values? = none ∧ value? = none ∨
          ∃ value, values? = some [value] ∧ value? = some value) := by
  simp only [replayOne, bind_eq_ok, oneValue_eq_ok]
  constructor
  · rintro ⟨values?, _, h, hv, rfl⟩
    exact ⟨values?, h, hv⟩
  · rintro ⟨values?, h, hv⟩
    exact ⟨values?, t, h, hv, rfl⟩

end SsaReplay.Replay
