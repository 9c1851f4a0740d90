import SsaReplay.Graph.Cfg

namespace SsaReplay.Graph

inductive Misuse
  | alreadyTerminated (block : BlockId)
  | notAPhi (value : ValueId)
deriving DecidableEq

namespace Misuse

def message : Misuse → String
  | .alreadyTerminated block => s!"`{block}` already has an exit"
  | .notAPhi value => s!"`{value}` is not the result of a phi function"

end Misuse

-- A graph that is being put together, block by block. Misuse is remembered, the
-- first one only, and does not keep later steps from taking effect.
structure Construction where
  graph : Cfg
  current : BlockId
  -- The blocks whose exit has been set.
  closed : List BlockId
  misuse? : Option Misuse

inductive ConstructionStep
  | literal (w : Word)
  | unreachable
  | argument (x : VariableId)
  | returnVariable (x : VariableId)
  | operation (callee : Callee) (inputs : List ValueId) (outputs : Nat)
  | block
  | moveTo (b : BlockId)
  | entry
  | current
  | phi (b : BlockId)
  | phiArguments (phi : ValueId) (arguments : List ValueId)
  | exit (e : Exit)

-- What a step gives back.
inductive Made
  | nothing
  | value (v : ValueId)
  | values (vs : List ValueId)
  | block (b : BlockId)

namespace Construction

def start (function? : Option FunctionId) : Construction :=
  let graph := Cfg.start function?
  ⟨graph, graph.entry, [], none⟩

def complain (c : Construction) (m : Misuse) : Construction :=
  { c with misuse? := some (c.misuse?.getD m) }

def checkOpen (c : Construction) : Construction :=
  if c.current ∈ c.closed then c.complain (.alreadyTerminated c.current) else c

def makeValue (c : Construction) (origin : Origin) : ValueId × Construction :=
  (⟨c.graph.values.size⟩,
    { c with graph := { c.graph with values := c.graph.values.push origin } })

-- A constant has one value, made when it is first asked for.
def makeLiteral (c : Construction) (w : Word) : ValueId × Construction :=
  match c.graph.literal? w with
  | some v => (v, c)
  | none =>
      let (v, next) := c.makeValue (.literal w)
      (v, { next with graph := { next.graph with literals := (w, v) :: next.graph.literals } })

def makeArgument (c : Construction) (x : VariableId) : ValueId × Construction :=
  let (v, next) := c.makeValue (.argument c.graph.arguments.length)
  (v, { next with graph := { next.graph with arguments := next.graph.arguments ++ [(x, v)] } })

def makeOutputs (c : Construction) : Nat → List ValueId × Construction
  | 0 => ([], c)
  | n + 1 =>
      let (v, next) := c.makeValue (.defined c.current)
      let (vs, last) := next.makeOutputs n
      (v :: vs, last)

def modifyBlock? (c : Construction) (b : BlockId) (f : BasicBlock → BasicBlock) :
    Option Construction :=
  (c.graph.modifyBlock? b f).map fun graph => { c with graph }

def addOperation? (c : Construction) (callee : Callee) (inputs : List ValueId) (outputs : Nat) :
    Option (List ValueId × Construction) :=
  let (made, next) := c.checkOpen.makeOutputs outputs
  let done? := next.modifyBlock? c.current fun b =>
    { b with operations := b.operations ++ [⟨callee, inputs, made⟩] }
  done?.map (made, ·)

def makePhi? (c : Construction) (b : BlockId) : Option (ValueId × Construction) :=
  let (v, next) := c.makeValue (.phi b [])
  let done? := next.modifyBlock? b fun data => { data with phis := data.phis ++ [v] }
  done?.map (v, ·)

def setPhiArguments (c : Construction) (phi : ValueId) (arguments : List ValueId) : Construction :=
  match c.graph.origin? phi with
  | some (.phi b _) =>
      { c with graph := { c.graph with
        values := c.graph.values.modify phi.index (fun _ => .phi b arguments) } }
  | _ => c.complain (.notAPhi phi)

-- An edge is recorded on both of its ends.
def enterFrom? (source : BlockId) (c : Construction) (target : BlockId) : Option Construction :=
  c.modifyBlock? target fun b => { b with entries := b.entries ++ [source] }

def setExit? (c : Construction) (exit : Exit) : Option Construction := do
  let entered ← exit.targets.foldlM (enterFrom? c.current) c.checkOpen
  let done ← entered.modifyBlock? c.current fun b => { b with exit }
  return { done with closed := c.current :: done.closed }

-- A step fails only when it names a block that the graph does not have.
def step? (c : Construction) : ConstructionStep → Option (Made × Construction)
  | .literal w => let (v, next) := c.makeLiteral w; some (.value v, next)
  | .unreachable => let (v, next) := c.makeValue .unreachable; some (.value v, next)
  | .argument x => let (v, next) := c.makeArgument x; some (.value v, next)
  | .returnVariable x =>
      some (.nothing, { c with graph := { c.graph with returns := c.graph.returns ++ [x] } })
  | .operation callee inputs outputs =>
      (c.addOperation? callee inputs outputs).map fun (vs, next) => (.values vs, next)
  | .block =>
      some (.block ⟨c.graph.blocks.size⟩,
        { c with graph := { c.graph with blocks := c.graph.blocks.push .empty } })
  | .moveTo b => some (.nothing, { c with current := b })
  | .entry => some (.block c.graph.entry, c)
  | .current => some (.block c.current, c)
  | .phi b => (c.makePhi? b).map fun (v, next) => (.value v, next)
  | .phiArguments phi arguments => some (.nothing, c.setPhiArguments phi arguments)
  | .exit e => (c.setExit? e).map (.nothing, ·)

-- All steps in order, unless one of them fails.
def run? (c : Construction) : List ConstructionStep → Option Construction
  | [] => some c
  | s :: rest =>
      match c.step? s with
      | none => none
      | some (_, next) => next.run? rest

def finish (c : Construction) : Except Misuse Cfg :=
  match c.misuse? with
  | some m => .error m
  | none => .ok c.graph

end Construction

-- The graph that steps put together, or an empty one in the stead of steps that fail.
def Cfg.ofSteps (function? : Option FunctionId) (steps : List ConstructionStep) : Cfg :=
  ((Construction.start function?).run? steps).elim (Cfg.start none) Construction.graph

end SsaReplay.Graph
