import SsaReplay.Graph.Cfg

namespace SsaReplay.Graph

-- A change to one part of a finished graph. Nothing else follows it: a new exit,
-- for instance, leaves the entries of its targets alone.
inductive Edit
  | entry (b : BlockId)
  | function (f? : Option FunctionId)
  | arguments (arguments : List (VariableId × ValueId))
  | returns (returns : List VariableId)
  | entries (b : BlockId) (entries : List BlockId)
  | phis (b : BlockId) (phis : List ValueId)
  | exit (b : BlockId) (exit : Exit)
  | insertOperation (b : BlockId) (index : Nat) (op : Operation)
  | replaceOperation (b : BlockId) (index : Nat) (op : Operation)
  | removeOperation (b : BlockId) (index : Nat)

namespace Cfg

def modifyOperations? (g : Cfg) (b : BlockId)
    (f : List Operation → Option (List Operation)) : Option Cfg := do
  let data ← g.block? b
  let operations ← f data.operations
  g.modifyBlock? b fun data => { data with operations }

-- An edit fails when the block or the operation it is about does not exist.
def edit? (g : Cfg) : Edit → Option Cfg
  | .entry b => some { g with entry := b }
  | .function f? => some { g with function? := f? }
  | .arguments arguments => some { g with arguments }
  | .returns returns => some { g with returns }
  | .entries b entries => g.modifyBlock? b fun data => { data with entries }
  | .phis b phis => g.modifyBlock? b fun data => { data with phis }
  | .exit b exit => g.modifyBlock? b fun data => { data with exit }
  | .insertOperation b i op =>
      g.modifyOperations? b fun ops => if i ≤ ops.length then some (ops.insertIdx i op) else none
  | .replaceOperation b i op =>
      g.modifyOperations? b fun ops => if i < ops.length then some (ops.set i op) else none
  | .removeOperation b i =>
      g.modifyOperations? b fun ops => if i < ops.length then some (ops.eraseIdx i) else none

end Cfg

end SsaReplay.Graph
