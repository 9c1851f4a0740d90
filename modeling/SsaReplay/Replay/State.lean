import SsaReplay.Replay.Mismatch
import SsaReplay.Settings

namespace SsaReplay.Replay

open SsaReplay.Graph (Cfg ControlFlow Operation Exit)

-- A graph that is replayed, and the function whose definition it is replayed for.
-- No function stands for the main program. The depth counts the definitions whose
-- replay is still under way further out.
structure Site where
  owner? : Option FunctionId
  graph : Cfg
  depth : Nat

structure Finding where
  mismatch : Mismatch
  location : Location
  site : Site

-- What a replay does, step by step.
inductive Event
  -- A graph is entered for a definition, or for the main program.
  | entered (definition? : Option Yul.Definition)
  -- An operation is matched, under the bindings it is matched with.
  | consumed (block : BlockId) (index : Nat) (operation : Operation) (bindings : Bindings)
  -- The exit of a block is of the kind that the source asks for.
  | left (block : BlockId) (exit : Exit)
  -- Bindings are carried over an edge, whether or not it is followed now.
  | carried (source target : BlockId) (before after : Bindings)
  -- The position moves to the start of the target, with the bindings there.
  | advanced (source target : BlockId) (bindings : Bindings)
  | merged (join : BlockId) (bindings : Bindings)
  | loopPass (header : BlockId) (iteration : Nat) (bindings : Bindings)
  | loopEdge (way : LoopWay) (header source target : BlockId)
  | found (mismatch : Mismatch) (location : Location)

structure Entry where
  site : Site
  event : Event

-- The edges from the inside of a loop to one target.
structure LoopEdges where
  -- Source and target of the first edge; later ones have to agree on the target.
  first? : Option (BlockId × BlockId)
  bindings : List Bindings

namespace LoopEdges

def empty : LoopEdges := ⟨none, []⟩

end LoopEdges

-- What is known of a loop that is being replayed.
structure LoopFrame where
  header : BlockId
  exits : LoopEdges
  continues : LoopEdges
  backEdges : List Bindings

namespace LoopFrame

def start (header : BlockId) : LoopFrame := ⟨header, .empty, .empty, []⟩

def edges (f : LoopFrame) : LoopWay → LoopEdges
  | .exits => f.exits
  | .continues => f.continues

def setEdges (f : LoopFrame) (e : LoopEdges) : LoopWay → LoopFrame
  | .exits => { f with exits := e }
  | .continues => { f with continues := e }

end LoopFrame

structure State where
  -- The scope in which names are looked up.
  scope? : Option ScopeId
  block : BlockId
  -- The position of the next operation of the block.
  op : Nat
  bindings : Bindings
  -- The loops around the position, the innermost first.
  loops : List LoopFrame
  -- The oldest first.
  warnings : List Finding
  -- The latest first.
  history : List Entry

namespace State

def start (graph : Cfg) : State := ⟨none, graph.entry, 0, .empty, [], [], []⟩

def log (s : State) (site : Site) (e : Event) : State :=
  { s with history := ⟨site, e⟩ :: s.history }

end State

-- What stays the same while one graph is replayed.
structure Context where
  analysis : Yul.Analysis
  dialect : Yul.Dialect
  flow : ControlFlow
  settings : Settings
  site : Site

namespace Context

def graph (ctx : Context) : Cfg := ctx.site.graph

def scopes (ctx : Context) : Yul.Scopes := ctx.analysis.scopes

def graphRef (ctx : Context) : GraphRef := .ofFunction ctx.graph.function?

def operationAt (ctx : Context) (s : State) : Location := .operation ctx.graphRef s.block s.op

def blockAt (ctx : Context) (b : BlockId) : Location := .block ctx.graphRef b

end Context

-- Why a replay ends before its program does. Asking for the innermost loop while
-- none is open would be a fault of the replay itself.
inductive Halt
  | mismatch (f : Finding)
  | noOpenLoop

abbrev Walk := EStateM Halt State

def record (ctx : Context) (e : Event) : Walk Unit := modify (·.log ctx.site e)

def reject {α : Type} (ctx : Context) (m : Mismatch) (location : Location) : Walk α := do
  record ctx (.found m location)
  throw (.mismatch ⟨m, location, ctx.site⟩)

def rejectOperation {α : Type} (ctx : Context) (m : Mismatch) : Walk α := do
  reject ctx m (ctx.operationAt (← get))

def rejectBlock {α : Type} (ctx : Context) (m : Mismatch) : Walk α := do
  reject ctx m (ctx.blockAt (← get).block)

def warnBlock (ctx : Context) (m : Mismatch) : Walk Unit := do
  let location := ctx.blockAt (← get).block
  record ctx (.found m location)
  modify fun s => { s with warnings := s.warnings ++ [⟨m, location, ctx.site⟩] }

-- A value that should be there, or the mismatch at the current operation.
def orReject {α : Type} (ctx : Context) (m : Mismatch) : Option α → Walk α
  | some a => pure a
  | none => rejectOperation ctx m

def setBindings (b : Bindings) : Walk Unit := modify fun s => { s with bindings := b }

-- Runs a walk and, whatever it comes to, sets the state right behind it.
def closing {α : Type} (close : State → State) (act : Walk α) : Walk α :=
  try act finally modify close

-- Resolves names in another scope for a while.
def inScope {α : Type} (scope : ScopeId) (act : Walk α) : Walk α := do
  let outer? := (← get).scope?
  modify fun s => { s with scope? := some scope }
  closing (fun s => { s with scope? := outer? }) act

end SsaReplay.Replay
