import SsaReplay.Replay.Loop

namespace SsaReplay.Replay

open SsaReplay.Graph (Cfg)
open SsaReplay.Yul (Block Case Definition Expr Stmt)

-- An expression that has to produce as many values as there are variables.
def replayValues (ctx : Context) (count : Nat) (e : Expr) :
    Walk (Option (List ValueSet)) := do
  match ← replayExpr ctx e with
  | none => pure none
  | some values =>
      if values.length ≠ count then
        rejectOperation ctx (.boundCount count values.length)
      else
        pure (some values)

-- An expression that stands alone produces nothing.
def replayBare (ctx : Context) (e : Expr) : Walk Bool := do
  match ← replayExpr ctx e with
  | none => pure false
  | some [] => pure true
  | some values => rejectOperation ctx (.unusedValues values.length)

def assignAll (ctx : Context) : List (String × ValueSet) → Walk Unit
  | [] => pure ()
  | (name, values) :: rest => do
      let x ← resolveVariable ctx name
      setBindings ((← get).bindings.assign x values)
      assignAll ctx rest

def replayAssignment (ctx : Context) (names : List String) (e : Expr) : Walk Bool := do
  match ← replayValues ctx names.length e with
  | none => pure false
  | some values =>
      assignAll ctx (names.zip values)
      pure true

def defineAll (ctx : Context) : List (String × ValueSet) → Walk Unit
  | [] => pure ()
  | (name, values) :: rest => do
      let x ← resolveVariable ctx name
      match (← get).bindings.define? x values with
      | none => rejectOperation ctx (.redeclared name)
      | some bindings =>
          setBindings bindings
          defineAll ctx rest

-- Variables declared without a value are zero.
def initialValues (ctx : Context) (count : Nat) : Option Expr → Walk (Option (List ValueSet))
  | some e => replayValues ctx count e
  | none => do
      let zero ← readZero ctx
      pure (some (List.replicate count (.single zero)))

def replayLet (ctx : Context) (names : List String) (value? : Option Expr) : Walk Bool := do
  match ← initialValues ctx names.length value? with
  | none => pure false
  | some values =>
      defineAll ctx (names.zip values)
      pure true

-- Every return variable has to hold the value that the graph returns for it.
def checkReturned (ctx : Context) : List (VariableId × ValueId) → Walk Unit
  | [] => pure ()
  | (x, v) :: rest => do
      let bindings := (← get).bindings
      let held ← orReject ctx (.unboundReturn x) (bindings.lookup x)
      if held.contains v then
        setBindings (bindings.narrow x v)
        checkReturned ctx rest
      else
        rejectOperation ctx (.returnedValue v x held)

def replayLeave (ctx : Context) : Walk Bool := do
  let values ← leaveByReturn ctx
  let returns := ctx.graph.returns
  if values.length ≠ returns.length then
    rejectOperation ctx (.returnCount (← get).block values.length returns.length)
  else
    checkReturned ctx (returns.zip values)
    pure false

-- Binds the names of a signature to the variables that the graph has for them.
def bindSignature (ctx : Context) : List ((VariableId × ValueSet) × String) → Walk Unit
  | [] => pure ()
  | ((graphVar, values), name) :: rest => do
      let x ← resolveVariable ctx name
      if x ≠ graphVar then
        reject ctx (.signatureVariable x graphVar) (.graph ctx.graphRef)
      else
        match (← get).bindings.define? x values with
        | none => reject ctx (.signatureRedeclared x) (.graph ctx.graphRef)
        | some bindings =>
            setBindings bindings
            bindSignature ctx rest

-- Return variables start out as zero. A graph without any need not know the constant.
def bindReturns (ctx : Context) (returns : List String) : Walk Unit := do
  if ctx.graph.returns.isEmpty then
    pure ()
  else
    let zero ← readZero ctx
    bindSignature ctx ((ctx.graph.returns.map (·, .single zero)).zip returns)

-- A function body against the graph of the function. Where control falls off its end,
-- the function returns. The names of the signature are resolved as the body sees them.
def replayFunction (ctx : Context) (d : Definition) (body : Walk Bool) : Walk Unit := do
  record ctx (.entered (some d))
  modify fun s => { s with scope? := ctx.analysis.scopeOf? d.body.id }
  bindSignature ctx ((ctx.graph.arguments.map (fun a => (a.1, .single a.2))).zip d.parameters)
  bindReturns ctx d.returns
  if ← body then
    let _ ← replayLeave ctx
    pure ()
  else
    pure ()

-- Replays another graph from its start, and comes back to where it was. Only the
-- warnings and the history go on.
def apart (graph : Cfg) (act : Walk Unit) : Walk Unit := fun s =>
  match act { State.start graph with warnings := s.warnings, history := s.history } with
  | .ok () t => .ok () { s with warnings := t.warnings, history := t.history }
  | .error h t => .error h { s with warnings := t.warnings, history := t.history }

-- What the replay of a nested definition goes by.
def Context.within (ctx : Context) (f : FunctionId) (graph : Cfg) : Context :=
  { ctx with site := ⟨some f, graph, ctx.site.depth + 1⟩ }

def replayDefinition (ctx : Context) (d : Definition) (body : Context → Walk Bool) :
    Walk Unit := do
  let f ← resolveFunction ctx d.name
  match ctx.flow.graphOf? f with
  | none => reject ctx (.noFunctionGraph d.name) (.graph (.function f))
  | some graph =>
      if graph.arguments.length ≠ d.parameters.length
          ∨ graph.returns.length ≠ d.returns.length then
        reject ctx
          (.signatureSize d.name d.parameters.length d.returns.length graph.arguments.length
            graph.returns.length)
          (.graph (.function f))
      else
        let inner := ctx.within f graph
        apart graph (replayFunction inner d (body inner))

def inBlock (ctx : Context) (id : NodeId) (body : Walk Bool) : Walk Bool := do
  match ctx.analysis.scopeOf? id with
  | none => rejectBlock ctx (.unscopedBlock id)
  | some scope => inScope scope body

-- Says, if asked to, how many statements follow one that control does not get past.
def warnUnreachable (ctx : Context) (id : NodeId) (rest : List Stmt) : Walk Unit := do
  let count := (rest.filter (fun s => !s.isFunDef)).length
  if 0 < count && ctx.settings.reportsUnreachable then
    warnBlock ctx (.unreachable count id)
  else
    pure ()

def inTurn (definitions : Walk Unit) (others : Walk Bool) : Walk Bool := do
  definitions
  others

-- A statement or block is replayed from the position on; the answer is whether
-- control falls through it. In every block the function definitions come first, then
-- the other statements up to one that control does not get past. The condition, body
-- and post block of a loop all stand in the scope of its pre block.
mutual
def replayStmt : Context → Stmt → Walk Bool
  | ctx, .expr e => replayBare ctx e
  | ctx, .assign names e => replayAssignment ctx names e
  | ctx, .letDecl names value? => replayLet ctx names value?
  | ctx, .funDef name parameters returns body => do
      replayDefinition ctx ⟨name, parameters, returns, body⟩ (fun inner => replayBlock inner body)
      pure true
  | ctx, .cond condition body => replayIf ctx condition (replayBlock ctx body)
  | ctx, .switch e cases => replaySwitch ctx e (replayArms ctx cases)
  | ctx, .forLoop (.mk id pre) condition post body =>
      inBlock ctx id
        (replayFor ctx (inTurn (replayDefinitions ctx pre) (replayOthers ctx id pre)) condition
          (replayBlock ctx body) post.statements.isEmpty (replayBlock ctx post))
  | ctx, .breakLoop => replayLoopJump ctx .exits
  | ctx, .continueLoop => replayLoopJump ctx .continues
  | ctx, .leave => replayLeave ctx
  | ctx, .block body => replayBlock ctx body
def replayBlock : Context → Block → Walk Bool
  | ctx, .mk id statements =>
      inBlock ctx id (inTurn (replayDefinitions ctx statements) (replayOthers ctx id statements))
def replayDefinitions : Context → List Stmt → Walk Unit
  | _, [] => pure ()
  | ctx, s :: rest => do
      if s.isFunDef then
        let _ ← replayStmt ctx s
        replayDefinitions ctx rest
      else
        replayDefinitions ctx rest
def replayOthers : Context → NodeId → List Stmt → Walk Bool
  | _, _, [] => pure true
  | ctx, id, s :: rest => do
      if s.isFunDef then
        replayOthers ctx id rest
      else if ← replayStmt ctx s then
        replayOthers ctx id rest
      else
        warnUnreachable ctx id rest
        pure false
def replayArms : Context → List Case → List Arm
  | _, [] => []
  | ctx, .mk value? body :: rest => (value?, replayBlock ctx body) :: replayArms ctx rest
end

end SsaReplay.Replay
