import SsaReplay.Replay.Edge

namespace SsaReplay.Replay

open SsaReplay.Graph (Callee Operation)
open SsaReplay.Yul (Expr Literal Symbol)

def resolve (ctx : Context) (name : String) : Walk Symbol := do
  match (← get).scope? with
  | none => rejectBlock ctx .noActiveScope
  | some scope =>
      match ctx.scopes.lookup scope name with
      | some symbol => pure symbol
      | none => rejectBlock ctx (.undeclared name scope)

def resolveVariable (ctx : Context) (name : String) : Walk VariableId := do
  match ← resolve ctx name with
  | .var x => pure x
  | .func _ => rejectBlock ctx (.functionForVariable name)

def resolveFunction (ctx : Context) (name : String) : Walk FunctionId := do
  match ← resolve ctx name with
  | .func f => pure f
  | .var _ => rejectBlock ctx (.variableForFunction name)

def readVariable (ctx : Context) (name : String) : Walk ValueSet := do
  let x ← resolveVariable ctx name
  orReject ctx (.unbound name) ((← get).bindings.lookup x)

def readLiteral (ctx : Context) (l : Literal) : Walk ValueId :=
  orReject ctx (.absentLiteral l) (ctx.graph.literal? l.value)

-- The value of variables that are declared without one, and of return variables.
def readZero (ctx : Context) : Walk ValueId := orReject ctx .absentZero ctx.graph.zero?

-- Whether an expression that was replayed with the candidates can be a value of the
-- graph. A variable may have been narrowed since, and is committed to the value.
def reconcile (ctx : Context) (e : Expr) (candidates : ValueSet) (v : ValueId) : Walk Bool := do
  match e with
  | .ident name =>
      let x ← resolveVariable ctx name
      let bindings := (← get).bindings
      if (bindings.lookup x).any (fun held => held.contains v) then
        setBindings (bindings.narrow x v)
        pure true
      else
        pure false
  | _ => pure (candidates.only? = some v)

def reconcileOperands (ctx : Context) (name : String) :
    Nat → List (Expr × ValueSet) → List ValueId → Walk Unit
  | i, (e, candidates) :: operands, input :: inputs => do
      if ← reconcile ctx e candidates input then
        reconcileOperands ctx name (i + 1) operands inputs
      else
        rejectOperation ctx (.operand i name input candidates)
  | _, _, _ => pure ()

-- Whether control comes back from an operation that calls what the name stands for
-- and has the outputs that the callee returns.
def checkCallee (ctx : Context) (name : String) (callee : Callee) (outputs : Nat) :
    Walk Bool := do
  match callee with
  | .builtin b =>
      match ctx.dialect.named? name with
      | some builtin =>
          if ctx.dialect.find? name ≠ some b then
            rejectOperation ctx (.otherBuiltin b name)
          else if builtin.returns ≠ outputs then
            rejectOperation ctx (.callArity name builtin.returns outputs)
          else
            pure builtin.effects.canContinue
      | none => rejectOperation ctx (.otherBuiltin b name)
  | .function f canContinue =>
      if (ctx.dialect.find? name).isSome then
        rejectOperation ctx (.functionForBuiltin f name)
      else
        let resolved ← resolveFunction ctx name
        if resolved ≠ f then
          rejectOperation ctx (.otherFunction f name resolved)
        else
          let graph ← orReject ctx (.noFunctionGraph name) (ctx.flow.graphOf? f)
          if graph.returns.length ≠ outputs then
            rejectOperation ctx (.callArity name graph.returns.length outputs)
          else
            pure canContinue

-- Takes the operation at the position as done.
def consume (ctx : Context) (op : Operation) : Walk Unit := do
  let s ← get
  record ctx (.consumed s.block s.op op s.bindings)
  modify fun s => { s with op := s.op + 1 }

-- Matches the operation at the position with a call whose operands were replayed.
-- There are no results when control does not come back.
def matchCall (ctx : Context) (name : String) (operands : List (Expr × ValueSet)) :
    Walk (Option (List ValueSet)) := do
  let s ← get
  let data ← blockData ctx s.block
  let op ← orReject ctx (.missingOperation name s.block data.operations.length)
    data.operations[s.op]?
  if op.inputs.length ≠ operands.length then
    rejectOperation ctx (.operandCount name operands.length op.inputs.length)
  else
    reconcileOperands ctx name 0 operands op.inputs
    let canContinue ← checkCallee ctx name op.callee op.outputs.length
    consume ctx op
    if canContinue then
      pure (some (op.outputs.map .single))
    else
      leaveByTermination ctx
      pure none

-- The candidates of an expression that has to produce one value.
def oneValue (ctx : Context) (values? : Option (List ValueSet)) : Walk (Option ValueSet) :=
  match values? with
  | none => pure none
  | some [values] => pure (some values)
  | some results => rejectOperation ctx (.notOneValue results.length)

-- Replays an expression from the position on and gives the candidates of each value
-- that it produces, or nothing when control does not get past it. Arguments are
-- replayed from the last to the first; those that are resolved when the program is
-- compiled are passed over.
mutual
def replayExpr (ctx : Context) : Expr → Walk (Option (List ValueSet))
  | .ident name => do
      let values ← readVariable ctx name
      pure (some [values])
  | .literal l => do
      let v ← readLiteral ctx l
      pure (some [.single v])
  | .call name arguments => do
      let builtin? := ctx.dialect.named? name
      match ← replayArguments ctx (fun i => builtin?.any (·.isLiteralArgument i)) 0 arguments with
      | none => pure none
      | some operands => matchCall ctx name operands
def replayArguments (ctx : Context) (skipped : Nat → Bool) :
    Nat → List Expr → Walk (Option (List (Expr × ValueSet)))
  | _, [] => pure (some [])
  | i, e :: rest => do
      match ← replayArguments ctx skipped (i + 1) rest with
      | none => pure none
      | some operands =>
          if skipped i then
            pure (some operands)
          else
            match ← oneValue ctx (← replayExpr ctx e) with
            | none => pure none
            | some values => pure (some ((e, values) :: operands))
end

def replayOne (ctx : Context) (e : Expr) : Walk (Option ValueSet) := do
  oneValue ctx (← replayExpr ctx e)

end SsaReplay.Replay
