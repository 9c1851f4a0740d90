import SsaReplay.Graph.Cfg
import SsaReplay.Yul.Dialect
import SsaReplay.Yul.Scope

namespace SsaReplay.Graph

-- The text form of a graph. Literals are shown as their value. Builtins and
-- functions are shown by name where a dialect or scopes are given. There is no text
-- for a block that does not exist or a builtin that the dialect does not have.
structure Listing where
  graph : Cfg
  dialect? : Option Yul.Dialect
  scopes? : Option Yul.Scopes

namespace Listing

def value (l : Listing) (v : ValueId) : String :=
  match l.graph.origin? v with
  | some (.literal w) => w.text
  | some .unreachable => "unreachable"
  | _ => toString v

def values (l : Listing) (vs : List ValueId) : String := ", ".intercalate (vs.map l.value)

def functionName (l : Listing) (f : FunctionId) : String :=
  match l.scopes? with
  | some scopes => scopes.functionName f
  | none => toString f

def builtinName? (l : Listing) (b : BuiltinId) : Option String :=
  match l.dialect? with
  | some dialect => (dialect.builtin? b).map Yul.Builtin.name
  | none => some (toString b)

def callee? (l : Listing) : Callee → Option String
  | .builtin b => l.builtinName? b
  | .function f _ => some ("call " ++ l.functionName f)

def operation? (l : Listing) (op : Operation) : Option String := do
  let callee ← l.callee? op.callee
  let outputs := if op.outputs.isEmpty then "" else l.values op.outputs ++ " = "
  return outputs ++ callee ++ "(" ++ l.values op.inputs ++ ")"

def exit (l : Listing) : Exit → String
  | .mainExit => "exit"
  | .jump target => s!"jump {target}"
  | .branch b => "branch " ++ l.value b.condition ++ s!", {b.nonZero}, {b.zero}"
  | .functionReturn [] => "return"
  | .functionReturn vs => "return " ++ l.values vs
  | .terminated => "terminated"

def phi (l : Listing) (v : ValueId) : String :=
  let arguments := match l.graph.origin? v with
    | some (.phi _ arguments) => l.values arguments
    | _ => ""
  toString v ++ " = phi(" ++ arguments ++ ")"

def entries (bs : List BlockId) : String :=
  if bs.isEmpty then "" else " <- (" ++ ", ".intercalate (bs.map toString) ++ ")"

def line (text : String) : String := "    " ++ text ++ "\n"

def block? (l : Listing) (b : BlockId) : Option String := do
  let data ← l.graph.block? b
  let operations ← data.operations.mapM l.operation?
  return toString b ++ entries data.entries ++ ":\n"
    ++ String.join ((data.phis.map l.phi ++ operations ++ [l.exit data.exit]).map line)

def header (l : Listing) : String :=
  match l.graph.function? with
  | some f =>
      "function " ++ l.functionName f ++ "(" ++ l.values (l.graph.arguments.map Prod.snd)
        ++ ") -> " ++ l.graph.returns.length.repr ++ " \x7b\n"
  | none => "main \x7b\n"

def graph? (l : Listing) : Option String := do
  let blocks ← (List.range l.graph.blocks.size).mapM fun i => l.block? ⟨i⟩
  return l.header ++ String.join blocks ++ "\x7d\n"

end Listing

end SsaReplay.Graph
