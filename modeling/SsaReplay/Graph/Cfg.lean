import SsaReplay.Ident
import SsaReplay.Word

namespace SsaReplay.Graph

-- How a value comes into existence. A phi takes its arguments in the order of the
-- entries of its block.
inductive Origin
  -- A value on a path that never gets to where it is used.
  | unreachable
  | argument (index : Nat)
  -- An output of an operation in the block.
  | defined (block : BlockId)
  | literal (word : Word)
  | phi (block : BlockId) (arguments : List ValueId)

namespace Origin

def word? : Origin → Option Word
  | .literal w => some w
  | _ => none

end Origin

inductive Callee
  | builtin (id : BuiltinId)
  -- The flag is false when the function never returns to its caller.
  | function (id : FunctionId) (canContinue : Bool)
deriving DecidableEq

-- The inputs are in argument order; literal arguments of builtins are none of them.
structure Operation where
  callee : Callee
  inputs : List ValueId
  outputs : List ValueId
deriving DecidableEq

structure Branch where
  condition : ValueId
  nonZero : BlockId
  zero : BlockId
deriving DecidableEq

inductive Exit
  -- The end of the main graph.
  | mainExit
  | jump (target : BlockId)
  | branch (b : Branch)
  | functionReturn (values : List ValueId)
  -- The block ends in a call that never returns.
  | terminated
deriving DecidableEq

namespace Exit

def targets : Exit → List BlockId
  | .jump target => [target]
  | .branch b => [b.nonZero, b.zero]
  | .mainExit | .functionReturn _ | .terminated => []

def kind : Exit → String
  | .mainExit => "main exit"
  | .jump _ => "jump"
  | .branch _ => "conditional jump"
  | .functionReturn _ => "function return"
  | .terminated => "terminated"

end Exit

-- The entries are the predecessors, in the order in which the phis take arguments.
structure BasicBlock where
  entries : List BlockId
  phis : List ValueId
  operations : List Operation
  exit : Exit

namespace BasicBlock

def empty : BasicBlock := ⟨[], [], [], .mainExit⟩

-- Which argument of a phi flows in from the source.
def entryOffset? (b : BasicBlock) (source : BlockId) : Option Nat := b.entries.idxOf? source

end BasicBlock

-- The graph of the main program or of one function.
structure Cfg where
  entry : BlockId
  -- No function stands for the main program.
  function? : Option FunctionId
  -- The parameters, each with the value bound to it on entry.
  arguments : List (VariableId × ValueId)
  returns : List VariableId
  blocks : Array BasicBlock
  values : Array Origin
  -- The value of each constant that the graph uses.
  literals : List (Word × ValueId)

namespace Cfg

def start (function? : Option FunctionId) : Cfg :=
  ⟨⟨0⟩, function?, [], [], #[.empty], #[], []⟩

def block? (g : Cfg) (b : BlockId) : Option BasicBlock := g.blocks[b.index]?

def origin? (g : Cfg) (v : ValueId) : Option Origin := g.values[v.index]?

def literal? (g : Cfg) (w : Word) : Option ValueId := g.literals.lookup w

def zero? (g : Cfg) : Option ValueId := g.literal? 0

def modifyBlock? (g : Cfg) (b : BlockId) (f : BasicBlock → BasicBlock) : Option Cfg :=
  if b.index < g.blocks.size then some { g with blocks := g.blocks.modify b.index f } else none

end Cfg

-- The graphs of a program. A function has at most one, and they ascend by function.
structure ControlFlow where
  main : Cfg
  functions : List (FunctionId × Cfg)

namespace ControlFlow

def ofMain (main : Cfg) : ControlFlow := ⟨main, []⟩

def place (f : FunctionId) (g : Cfg) : List (FunctionId × Cfg) → List (FunctionId × Cfg)
  | [] => [(f, g)]
  | (h, other) :: rest =>
      if f.index < h.index then (f, g) :: (h, other) :: rest
      else if f = h then (f, g) :: rest
      else (h, other) :: place f g rest

-- A second graph for a function takes the place of the first.
def insert (c : ControlFlow) (f : FunctionId) (g : Cfg) : ControlFlow :=
  { c with functions := place f g c.functions }

def graphOf? (c : ControlFlow) (f : FunctionId) : Option Cfg := c.functions.lookup f

end ControlFlow

end SsaReplay.Graph
