import Mathlib.Data.List.Forall2
import SsaReplay.Proofs.Outcome.Expr
import SsaReplay.Proofs.Success.Match

namespace SsaReplay

namespace Yul

-- What a call takes from the graph for one of its arguments.
inductive Operand
  | name (name : String)
  | literal (l : Literal)
  -- What is put out by the operation at the position.
  | result (position : Nat)

-- A call and what it takes, in the order of its arguments.
structure Invocation where
  callee : String
  operands : List Operand

-- The calls of an expression in the order in which they are evaluated, from a position on,
-- and what stands for the expression then. Arguments come before their call, the last of
-- them first; those that are resolved when the program is compiled leave no trace.
mutual
def Expr.lower (skips : String → Nat → Bool) (start : Nat) : Expr → List Invocation × Operand
  | .ident name => ([], .name name)
  | .literal l => ([], .literal l)
  | .call callee arguments =>
      let (calls, operands) := lowerArguments skips (skips callee) start 0 arguments
      (calls ++ [⟨callee, operands⟩], .result (start + calls.length))
def lowerArguments (skips : String → Nat → Bool) (skipped : Nat → Bool) (start : Nat) :
    Nat → List Expr → List Invocation × List Operand
  | _, [] => ([], [])
  | i, e :: rest =>
      let (later, operands) := lowerArguments skips skipped start (i + 1) rest
      if skipped i then
        (later, operands)
      else
        let (calls, operand) := e.lower skips (start + later.length)
        (later ++ calls, operand :: operands)
end

section

variable (skips : String → Nat → Bool) (skipped : Nat → Bool) (start i : Nat) (e : Expr)
  (rest : List Expr)

theorem Expr.lower_call (callee : String) (arguments : List Expr) :
    (Expr.call callee arguments).lower skips start =
      ((lowerArguments skips (skips callee) start 0 arguments).1 ++
          [⟨callee, (lowerArguments skips (skips callee) start 0 arguments).2⟩],
        .result (start + (lowerArguments skips (skips callee) start 0 arguments).1.length)) := rfl

theorem lowerArguments_cons_of_skipped (h : skipped i = true) :
    lowerArguments skips skipped start i (e :: rest) =
      lowerArguments skips skipped start (i + 1) rest := by
  rw [lowerArguments]
  exact if_pos h

theorem lowerArguments_cons_of_passed (h : skipped i = false) :
    lowerArguments skips skipped start i (e :: rest) =
      let later := lowerArguments skips skipped start (i + 1) rest
      let here := e.lower skips (start + later.1.length)
      (later.1 ++ here.1, here.2 :: later.2) := by
  rw [lowerArguments]
  exact if_neg (by simp [h])

end

-- The product is taken before the sum that it is an operand of.
example (one : Literal) :
    (Expr.call "add" [.ident "x", .call "mul" [.ident "y", .literal one]]).lower
        (fun _ _ => false) 0 =
      ([⟨"mul", [.name "y", .literal one]⟩, ⟨"add", [.name "x", .result 0]⟩], .result 1) := rfl

end Yul

namespace Replay

open SsaReplay.Graph (Operation)
open SsaReplay.Yul (Expr Invocation Literal Operand lowerArguments lowerArguments_cons_of_passed
  lowerArguments_cons_of_skipped)

-- The operation at a position of the current block.
def Context.operation? (ctx : Context) (s : State) (i : Nat) : Option Operation :=
  (ctx.graph.block? s.block).bind fun data => data.operations[i]?

-- The variable may hold the value that is chosen for it.
def Available (s : State) (choice : VariableId → ValueId) (x : VariableId) : Prop :=
  ∃ held, s.bindings.lookup x = some held ∧ choice x ∈ held

-- The value that an operand comes to. For a variable it is one of the candidates, the same
-- wherever the variable is an operand.
inductive Supplies (ctx : Context) (s : State) (choice : VariableId → ValueId) :
    Operand → ValueId → Prop
  | name {name : String} {x : VariableId}
      (resolved : ctx.scopes.symbol? s.scope? name = some (.var x))
      (available : Available s choice x) : Supplies ctx s choice (.name name) (choice x)
  | literal {l : Literal} {v : ValueId} (interned : ctx.graph.literal? l.value = some v) :
      Supplies ctx s choice (.literal l) v
  | result {i : Nat} {op : Operation} {v : ValueId} (atOp : ctx.operation? s i = some op)
      (only : op.outputs = [v]) : Supplies ctx s choice (.result i) v

-- The operations from a position on are those calls, one after the other. Control comes
-- back from each of them.
inductive Fulfilled (ctx : Context) (s : State) (choice : VariableId → ValueId) :
    Nat → List Invocation → Prop
  | nil {i : Nat} : Fulfilled ctx s choice i []
  | cons {i : Nat} {call : Invocation} {rest : List Invocation} {op : Operation}
      (atOp : ctx.operation? s i = some op)
      (callee : Callable ctx s.scope? call.callee op.callee op.outputs.length true)
      (inputs : List.Forall₂ (Supplies ctx s choice) call.operands op.inputs)
      (others : Fulfilled ctx s choice (i + 1) rest) : Fulfilled ctx s choice i (call :: rest)

-- The candidates of the values that an expression produces.
inductive Yields (ctx : Context) (s : State) : Operand → List ValueSet → Prop
  | name {name : String} {x : VariableId} {held : ValueSet}
      (resolved : ctx.scopes.symbol? s.scope? name = some (.var x))
      (bound : s.bindings.lookup x = some held) : Yields ctx s (.name name) [held]
  | literal {l : Literal} {v : ValueId} (interned : ctx.graph.literal? l.value = some v) :
      Yields ctx s (.literal l) [.single v]
  | result {i : Nat} {op : Operation} (atOp : ctx.operation? s i = some op) :
      Yields ctx s (.result i) (op.outputs.map .single)

variable {ctx : Context} {s t u : State} {choice : VariableId → ValueId}

theorem fulfilled_append {i : Nat} {first second : List Invocation} :
    Fulfilled ctx s choice i (first ++ second) ↔
      Fulfilled ctx s choice i first ∧ Fulfilled ctx s choice (i + first.length) second := by
  induction first generalizing i with
  | nil => exact ⟨fun h => ⟨.nil, h⟩, fun h => h.2⟩
  | cons call rest ih =>
      have hl : i + (call :: rest).length = i + 1 + rest.length := by
        rw [List.length_cons]
        omega
      rw [List.cons_append, hl]
      constructor
      · intro h
        cases h with
        | cons atOp callee inputs others =>
            obtain ⟨hf, hs⟩ := ih.mp others
            exact ⟨.cons atOp callee inputs hf, hs⟩
      · rintro ⟨h, hs⟩
        cases h with
        | cons atOp callee inputs others =>
            exact .cons atOp callee inputs (ih.mpr ⟨others, hs⟩)

-- Nothing that calls depend on tells the states apart.
structure Agreeing (choice : VariableId → ValueId) (s t : State) : Prop where
  scope : t.scope? = s.scope?
  block : t.block = s.block
  available : ∀ x, Available t choice x ↔ Available s choice x

namespace Agreeing

theorem symm (h : Agreeing choice s t) : Agreeing choice t s :=
  ⟨h.scope.symm, h.block.symm, fun x => (h.available x).symm⟩

theorem operation? (h : Agreeing choice s t) (i : Nat) :
    ctx.operation? t i = ctx.operation? s i := by
  rw [Context.operation?, Context.operation?, h.block]

theorem supplies (h : Agreeing choice s t) {o : Operand} {v : ValueId}
    (hs : Supplies ctx s choice o v) : Supplies ctx t choice o v := by
  cases hs with
  | name resolved available => exact .name (h.scope ▸ resolved) ((h.available _).mpr available)
  | literal interned => exact .literal interned
  | result atOp only => exact .result ((h.operation? _).trans atOp) only

theorem fulfilled (h : Agreeing choice s t) {i : Nat} {calls : List Invocation}
    (ha : Fulfilled ctx s choice i calls) : Fulfilled ctx t choice i calls := by
  induction ha with
  | nil => exact .nil
  | cons atOp callee inputs others ih =>
      exact .cons ((h.operation? _).trans atOp) (h.scope ▸ callee)
        (inputs.imp fun _ _ => h.supplies) ih

end Agreeing

-- Variables were committed to their values on the way, and to nothing else.
structure Committed (choice : VariableId → ValueId) (s t : State) : Prop where
  scope : t.scope? = s.scope?
  block : t.block = s.block
  bindings : ∀ x, t.bindings.lookup x = s.bindings.lookup x ∨
    t.bindings.lookup x = some (.single (choice x)) ∧ Available s choice x

-- The choice has the value of each variable that has no other candidate.
def Chosen (s : State) (choice : VariableId → ValueId) : Prop :=
  ∀ x v, s.bindings.lookup x = some (.single v) → choice x = v

namespace Committed

theorem refl (s : State) : Committed choice s s := ⟨rfl, rfl, fun _ => .inl rfl⟩

theorem agreeing (h : Committed choice s t) : Agreeing choice s t := by
  refine ⟨h.scope, h.block, fun x => ?_⟩
  obtain hb | ⟨hb, hs⟩ := h.bindings x
  · rw [Available, Available, hb]
  · exact ⟨fun _ => hs, fun _ => ⟨_, hb, (ValueSet.mem_single _ _).mpr rfl⟩⟩

theorem trans (h : Committed choice s t) (k : Committed choice t u) : Committed choice s u := by
  refine ⟨k.scope.trans h.scope, k.block.trans h.block, fun x => ?_⟩
  obtain hu | ⟨hu, ht⟩ := k.bindings x
  · rw [hu]
    exact h.bindings x
  · exact .inr ⟨hu, (h.agreeing.available x).mp ht⟩

theorem consume (h : Committed choice s t) (site : Site) (op : Operation) :
    Committed choice s (t.consume site op) :=
  ⟨h.scope, h.block, h.bindings⟩

theorem narrow {x : VariableId} (available : Available s choice x) :
    Committed choice s { s with bindings := s.bindings.narrow x (choice x) } := by
  refine ⟨rfl, rfl, fun y => ?_⟩
  by_cases hy : y = x
  · subst hy
    exact .inr ⟨by rw [Bindings.narrow, Bindings.lookup_assign, if_pos rfl], available⟩
  · exact .inl (by rw [Bindings.narrow, Bindings.lookup_assign, if_neg hy])

theorem chosen (h : Committed choice s t) (ht : Chosen t choice) : Chosen s choice := by
  intro x v hx
  obtain hb | ⟨-, held, hs, hm⟩ := h.bindings x
  · exact ht x v (hb.trans hx)
  · obtain rfl := Option.some.inj (hs.symm.trans hx)
    exact (ValueSet.mem_single _ _).mp hm

end Committed

-- An argument with its candidates, once it was replayed, and what its call takes for it.
-- Only the candidates of a variable can change until the call is matched.
inductive Replayed (ctx : Context) (s : State) : Expr × ValueSet → Operand → Prop
  | name {name : String} {candidates : ValueSet} :
      Replayed ctx s (.ident name, candidates) (.name name)
  | literal {l : Literal} {v : ValueId} (interned : ctx.graph.literal? l.value = some v) :
      Replayed ctx s (.literal l, .single v) (.literal l)
  | result {callee : String} {arguments : List Expr} {i : Nat} {op : Operation} {v : ValueId}
      (atOp : ctx.operation? s i = some op) (only : op.outputs = [v]) :
      Replayed ctx s (.call callee arguments, .single v) (.result i)

theorem Replayed.of_block {operand : Expr × ValueSet} {o : Operand} (h : t.block = s.block)
    (hr : Replayed ctx s operand o) : Replayed ctx t operand o := by
  cases hr with
  | name => exact .name
  | literal interned => exact .literal interned
  | result atOp only => exact .result (by rwa [Context.operation?, h]) only

theorem Yields.replayed {skips : String → Nat → Bool} {start : Nat} {e : Expr}
    {candidates : ValueSet} (h : Yields ctx s (e.lower skips start).2 [candidates]) :
    Replayed ctx s (e, candidates) (e.lower skips start).2 := by
  cases e with
  | ident name => exact .name
  | literal l =>
      cases h with
      | literal interned => exact .literal interned
  | call callee arguments =>
      generalize hy : [candidates] = values at h
      cases h with
      | result atOp =>
          obtain ⟨v, only, rfl⟩ := List.map_eq_singleton_iff.mp hy.symm
          exact .result atOp only

theorem Supplies.yields {o : Operand} {v : ValueId} (h : Supplies ctx s choice o v) :
    ∃ candidates, Yields ctx s o [candidates] := by
  cases h with
  | name resolved available =>
      obtain ⟨held, bound, -⟩ := available
      exact ⟨held, .name resolved bound⟩
  | literal interned => exact ⟨_, .literal interned⟩
  | @result i op v atOp only => exact ⟨.single v, by simpa [only] using Yields.result atOp⟩

theorem Yields.unique {o : Operand} {values others : List ValueSet} (h : Yields ctx s o values)
    (k : Yields ctx s o others) : values = others := by
  cases h with
  | name resolved bound =>
      cases k with
      | name resolved' bound' =>
          obtain rfl := Yul.Symbol.var.inj (Option.some.inj (resolved.symm.trans resolved'))
          rw [Option.some.inj (bound.symm.trans bound')]
  | literal interned =>
      cases k with
      | literal interned' => rw [Option.some.inj (interned.symm.trans interned')]
  | result atOp =>
      cases k with
      | result atOp' => rw [Option.some.inj (atOp.symm.trans atOp')]

-- Operands that are reconciled come to the inputs, and the other way around.
theorem Reconciled.supplies {e : Expr} {candidates : ValueSet} {o : Operand} {v : ValueId}
    (h : Reconciled ctx s e candidates v t) (hr : Replayed ctx s (e, candidates) o)
    (chosen : Chosen t choice) : Committed choice s t ∧ Supplies ctx s choice o v := by
  cases hr with
  | name =>
      cases h with
      | @named name candidates held x v resolved bound member =>
          obtain rfl : choice x = v :=
            chosen x v (by rw [Bindings.narrow, Bindings.lookup_assign, if_pos rfl])
          have available : Available s choice x := ⟨held, bound, member⟩
          exact ⟨.narrow available, .name resolved available⟩
      | result noName only => exact absurd rfl (noName _)
  | literal interned =>
      obtain ⟨only, rfl⟩ := reconciled_literal.mp h
      obtain rfl := Option.some.inj only
      exact ⟨.refl s, .literal interned⟩
  | result atOp one =>
      obtain ⟨only, rfl⟩ := reconciled_call.mp h
      obtain rfl := Option.some.inj only
      exact ⟨.refl s, .result atOp one⟩

theorem Supplies.reconciled {e : Expr} {candidates : ValueSet} {o : Operand} {v : ValueId}
    (h : Supplies ctx s choice o v) (hr : Replayed ctx s (e, candidates) o) :
    ∃ t, Reconciled ctx s e candidates v t ∧ Committed choice s t := by
  cases hr with
  | name =>
      cases h with
      | name resolved available =>
          have committed := Committed.narrow available
          obtain ⟨held, bound, member⟩ := available
          exact ⟨_, .named resolved bound member, committed⟩
  | literal interned =>
      cases h with
      | literal interned' =>
          obtain rfl := Option.some.inj (interned.symm.trans interned')
          exact ⟨s, reconciled_literal.mpr ⟨rfl, rfl⟩, .refl s⟩
  | result atOp only =>
      cases h with
      | result atOp' only' =>
          obtain rfl := Option.some.inj (atOp.symm.trans atOp')
          obtain rfl := List.singleton_inj.mp (only.symm.trans only')
          exact ⟨s, reconciled_call.mpr ⟨rfl, rfl⟩, .refl s⟩

theorem OperandsReconciled.supplies {operands : List (Expr × ValueSet)} {inputs : List ValueId}
    (h : OperandsReconciled ctx s operands inputs t) {taken : List Operand}
    (hr : List.Forall₂ (Replayed ctx s) operands taken) (chosen : Chosen t choice) :
    Committed choice s t ∧ List.Forall₂ (Supplies ctx s choice) taken inputs := by
  induction h generalizing taken with
  | nil =>
      cases hr
      exact ⟨.refl _, .nil⟩
  | cons first rest ih =>
      cases hr with
      | cons here others =>
          obtain ⟨later, inputs⟩ := ih (others.imp fun _ _ => .of_block first.position.1) chosen
          obtain ⟨committed, input⟩ := first.supplies here (later.chosen chosen)
          exact ⟨committed.trans later,
            .cons input (inputs.imp fun _ _ => committed.agreeing.symm.supplies)⟩

theorem operandsReconciled_of_supplies {operands : List (Expr × ValueSet)} {taken : List Operand}
    {inputs : List ValueId} (hr : List.Forall₂ (Replayed ctx s) operands taken)
    (h : List.Forall₂ (Supplies ctx s choice) taken inputs) :
    ∃ t, OperandsReconciled ctx s operands inputs t ∧ Committed choice s t := by
  induction operands generalizing s taken inputs with
  | nil =>
      cases hr
      cases h
      exact ⟨s, .nil, .refl s⟩
  | cons operand operands ih =>
      obtain _ | ⟨here, others⟩ := hr
      obtain _ | ⟨input, inputs⟩ := h
      obtain ⟨u, first, committed⟩ := input.reconciled here
      obtain ⟨t, rest, later⟩ := ih (others.imp fun _ _ => .of_block committed.block)
        (inputs.imp fun _ _ => committed.agreeing.supplies)
      exact ⟨t, .cons first rest, committed.trans later⟩

-- A replay that took the operations at the position as those calls.
structure Lowered (ctx : Context) (s : State) (calls : List Invocation) (t : State) : Prop where
  block : t.block = s.block
  op : t.op = s.op + calls.length
  fulfilled : ∀ choice, Chosen t choice → Committed choice s t ∧ Fulfilled ctx s choice s.op calls

theorem Lowered.nil (ctx : Context) (s : State) : Lowered ctx s [] s :=
  ⟨rfl, rfl, fun _ _ => ⟨.refl s, .nil⟩⟩

theorem Lowered.append {first second : List Invocation} (h : Lowered ctx s first u)
    (k : Lowered ctx u second t) : Lowered ctx s (first ++ second) t := by
  refine ⟨k.block.trans h.block, ?_, fun choice chosen => ?_⟩
  · rw [k.op, h.op, List.length_append, Nat.add_assoc]
  · obtain ⟨later, second⟩ := k.fulfilled choice chosen
    obtain ⟨committed, first⟩ := h.fulfilled choice (later.chosen chosen)
    refine ⟨committed.trans later, fulfilled_append.mpr ⟨first, ?_⟩⟩
    exact h.op ▸ committed.agreeing.symm.fulfilled second

theorem operation?_eq_some {i : Nat} {data : Graph.BasicBlock} {op : Operation}
    (block : ctx.graph.block? s.block = some data) (atOp : data.operations[i]? = some op) :
    ctx.operation? s i = some op := by
  rw [Context.operation?, block, Option.bind_some, atOp]

theorem Lowered.call {name : String} {operands : List (Expr × ValueSet)} {taken : List Operand}
    {calls : List Invocation} {values : List ValueSet} (before : Lowered ctx s calls u)
    (hr : List.Forall₂ (Replayed ctx s) operands taken)
    (h : CallMatched ctx name operands u (some values) t) :
    Lowered ctx s (calls ++ [⟨name, taken⟩]) t ∧
      Yields ctx s (.result (s.op + calls.length)) values := by
  cases h with
  | @returning data op w block atOp inputs callee =>
      have here := operation?_eq_some block atOp
      have hp := inputs.position
      have matched : Lowered ctx u [⟨name, taken⟩] (w.consume ctx.site op) := by
        refine ⟨hp.1, congrArg (· + 1) hp.2, fun choice chosen => ?_⟩
        obtain ⟨committed, supplied⟩ :=
          inputs.supplies (hr.imp fun _ _ => .of_block before.block) chosen
        exact ⟨committed.consume ctx.site op,
          .cons here (committed.scope ▸ callee) supplied .nil⟩
      refine ⟨before.append matched, .result ?_⟩
      rw [← before.op, ← here, Context.operation?, Context.operation?, before.block]

-- A call that is fulfilled is matched.
theorem Fulfilled.matched {name : String} {operands : List (Expr × ValueSet)}
    {taken : List Operand} (h : Fulfilled ctx s choice s.op [⟨name, taken⟩])
    (hr : List.Forall₂ (Replayed ctx s) operands taken) :
    ∃ values t, CallMatched ctx name operands s (some values) t ∧ Committed choice s t := by
  obtain _ | ⟨atOp, callee, inputs, -⟩ := h
  obtain ⟨data, block, here⟩ := Option.bind_eq_some_iff.mp atOp
  obtain ⟨u, reconciled, committed⟩ := operandsReconciled_of_supplies hr inputs
  exact ⟨_, _, .returning block here reconciled (committed.scope.symm ▸ callee),
    committed.consume ctx.site _⟩

-- What is replayed is lowered: calls were taken from the last argument to the first, and
-- each before the call that it is an argument of.
mutual
theorem lowered_of_replayExpr {values : List ValueSet} : (e : Expr) → {s t : State} →
    replayExpr ctx e s = .ok (some values) t →
    Lowered ctx s (e.lower (skips ctx) s.op).1 t ∧ Yields ctx s (e.lower (skips ctx) s.op).2 values
  | .ident name, s, t, h => by
      obtain ⟨⟨x, held, resolved, bound, hv⟩, rfl⟩ := replayExpr_ident_eq_ok.mp h
      obtain rfl := Option.some.inj hv
      exact ⟨.nil ctx s, .name resolved bound⟩
  | .literal l, s, t, h => by
      obtain ⟨⟨v, interned, hv⟩, rfl⟩ := replayExpr_literal_eq_ok.mp h
      obtain rfl := Option.some.inj hv
      exact ⟨.nil ctx s, .literal interned⟩
  | .call callee arguments, s, t, h => by
      obtain ⟨hv, -⟩ | ⟨operands, u, ha, hm⟩ := replayExpr_call_eq_ok.mp h
      · exact nomatch hv
      · obtain ⟨before, replayed⟩ := lowered_of_replayArguments (skips ctx callee) 0 arguments ha
        exact before.call replayed hm
theorem lowered_of_replayArguments {operands : List (Expr × ValueSet)} (skipped : Nat → Bool)
    (i : Nat) : (arguments : List Expr) → {s t : State} →
    replayArguments ctx skipped i arguments s = .ok (some operands) t →
    Lowered ctx s (lowerArguments (skips ctx) skipped s.op i arguments).1 t ∧
      List.Forall₂ (Replayed ctx s) operands
        (lowerArguments (skips ctx) skipped s.op i arguments).2
  | [], s, t, h => by
      obtain ⟨ho, rfl⟩ := replayArguments_nil_eq_ok.mp h
      obtain rfl := Option.some.inj ho
      exact ⟨.nil ctx s, .nil⟩
  | e :: rest, s, t, h => by
      obtain ⟨ho, -⟩ | ⟨later, u, ha, h⟩ := replayArguments_cons_eq_ok.mp h
      · exact nomatch ho
      obtain ⟨before, replayed⟩ := lowered_of_replayArguments skipped (i + 1) rest ha
      obtain ⟨hs, ho, rfl⟩ | ⟨hs, value?, he, ho⟩ := h
      · obtain rfl := Option.some.inj ho
        rw [lowerArguments_cons_of_skipped _ _ _ _ _ _ hs]
        exact ⟨before, replayed⟩
      · obtain ⟨candidates, rfl, rfl⟩ := Option.map_eq_some_iff.mp ho.symm
        obtain ⟨_, he, ⟨-, hn⟩ | ⟨_, rfl, hv⟩⟩ := replayOne_eq_ok.mp he
        · exact nomatch hn
        obtain rfl := Option.some.inj hv
        obtain ⟨here, yields⟩ := lowered_of_replayExpr e he
        rw [lowerArguments_cons_of_passed _ _ _ _ _ _ hs]
        rw [before.op] at here yields
        exact ⟨before.append here, .cons (yields.replayed.of_block before.block.symm) replayed⟩
end

-- What is lowered is replayed.
mutual
theorem replayExpr_of_fulfilled : (e : Expr) → {s : State} → {values : List ValueSet} →
    Fulfilled ctx s choice s.op (e.lower (skips ctx) s.op).1 →
    Yields ctx s (e.lower (skips ctx) s.op).2 values →
    ∃ t, replayExpr ctx e s = .ok (some values) t ∧ Committed choice s t
  | .ident name, s, values, _, hy => by
      cases hy with
      | name resolved bound =>
          exact ⟨s, replayExpr_ident_eq_ok.mpr ⟨⟨_, _, resolved, bound, rfl⟩, rfl⟩, .refl s⟩
  | .literal l, s, values, _, hy => by
      cases hy with
      | literal interned =>
          exact ⟨s, replayExpr_literal_eq_ok.mpr ⟨⟨_, interned, rfl⟩, rfl⟩, .refl s⟩
  | .call callee arguments, s, values, ha, hy => by
      rw [Expr.lower_call] at ha hy
      obtain ⟨earlier, here⟩ := fulfilled_append.mp ha
      have ⟨inputs, supplied⟩ : ∃ inputs, List.Forall₂ (Supplies ctx s choice)
          (lowerArguments (skips ctx) (skips ctx callee) s.op 0 arguments).2 inputs := by
        cases here with
        | cons atOp callee supplied others => exact ⟨_, supplied⟩
      obtain ⟨operands, u, h, committed⟩ :=
        replayArguments_of_fulfilled (skips ctx callee) 0 arguments earlier supplied
      obtain ⟨before, replayed⟩ := lowered_of_replayArguments (skips ctx callee) 0 arguments h
      have here := committed.agreeing.fulfilled here
      rw [← before.op] at here
      obtain ⟨others, t, matched, later⟩ :=
        here.matched (replayed.imp fun _ _ => .of_block before.block)
      obtain rfl := hy.unique (before.call replayed matched).2
      exact ⟨t, replayExpr_call_eq_ok.mpr (.inr ⟨operands, u, h, matched⟩),
        committed.trans later⟩
theorem replayArguments_of_fulfilled (skipped : Nat → Bool) (i : Nat) : (arguments : List Expr) →
    {s : State} → {inputs : List ValueId} →
    Fulfilled ctx s choice s.op (lowerArguments (skips ctx) skipped s.op i arguments).1 →
    List.Forall₂ (Supplies ctx s choice) (lowerArguments (skips ctx) skipped s.op i arguments).2
      inputs →
    ∃ operands t, replayArguments ctx skipped i arguments s = .ok (some operands) t ∧
      Committed choice s t
  | [], s, inputs, _, _ => ⟨[], s, replayArguments_nil_eq_ok.mpr ⟨rfl, rfl⟩, .refl s⟩
  | e :: rest, s, inputs, ha, hi => by
      cases hs : skipped i with
      | true =>
          rw [lowerArguments_cons_of_skipped _ _ _ _ _ _ hs] at ha hi
          obtain ⟨operands, t, h, committed⟩ :=
            replayArguments_of_fulfilled skipped (i + 1) rest ha hi
          exact ⟨operands, t,
            replayArguments_cons_eq_ok.mpr (.inr ⟨operands, t, h, .inl ⟨hs, rfl, rfl⟩⟩), committed⟩
      | false =>
          rw [lowerArguments_cons_of_passed _ _ _ _ _ _ hs] at ha hi
          obtain ⟨earlier, here⟩ := fulfilled_append.mp ha
          obtain _ | ⟨supplied, others⟩ := hi
          obtain ⟨operands, u, h, committed⟩ :=
            replayArguments_of_fulfilled skipped (i + 1) rest earlier others
          have here := committed.agreeing.fulfilled here
          have supplied := committed.agreeing.supplies supplied
          rw [← (lowered_of_replayArguments skipped (i + 1) rest h).1.op] at here supplied
          obtain ⟨candidates, yields⟩ := supplied.yields
          obtain ⟨t, he, later⟩ := replayExpr_of_fulfilled e here yields
          have one := replayOne_eq_ok.mpr ⟨_, he, .inr ⟨candidates, rfl, rfl⟩⟩
          exact ⟨(e, candidates) :: operands, t,
            replayArguments_cons_eq_ok.mpr (.inr ⟨operands, u, h, .inr ⟨hs, _, one, rfl⟩⟩),
            committed.trans later⟩
end

-- The value of each variable that has no other candidate.
def State.settled (s : State) (x : VariableId) : ValueId :=
  ((s.bindings.lookup x).bind ValueSet.only?).getD ⟨0⟩

theorem chosen_settled (s : State) : Chosen s s.settled := by
  intro x v hx
  rw [State.settled, hx]
  rfl

-- An expression produces values if, and only if, the operations from the position on are
-- its calls in the order in which they are evaluated. Each of them calls what the call
-- names, and takes the values that the arguments come to, with one value for all the uses
-- of a variable as an operand.
theorem replayExpr_iff_fulfilled (ctx : Context) (e : Expr) (s : State) (values : List ValueSet) :
    (∃ t, replayExpr ctx e s = .ok (some values) t) ↔
      ∃ choice, Fulfilled ctx s choice s.op (e.lower (skips ctx) s.op).1 ∧
        Yields ctx s (e.lower (skips ctx) s.op).2 values := by
  constructor
  · rintro ⟨t, h⟩
    obtain ⟨lowered, yields⟩ := lowered_of_replayExpr e h
    exact ⟨t.settled, (lowered.fulfilled _ (chosen_settled t)).2, yields⟩
  · rintro ⟨choice, fulfilled, yields⟩
    obtain ⟨t, h, -⟩ := replayExpr_of_fulfilled e fulfilled yields
    exact ⟨t, h⟩

end Replay

end SsaReplay
