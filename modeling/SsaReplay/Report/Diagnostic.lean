import SsaReplay.Ident
import SsaReplay.Report.Code

namespace SsaReplay

inductive Severity
  | error
  | warning
deriving DecidableEq

namespace Severity

def name : Severity → String
  | .error => "Error"
  | .warning => "Warning"

def ofName? : String → Option Severity
  | "Error" => some .error
  | "Warning" => some .warning
  | _ => none

instance : ToString Severity := ⟨fun | .error => "error" | .warning => "warning"⟩

end Severity

-- The main graph or the graph of a function.
inductive GraphRef
  | main
  | function (id : FunctionId)
deriving DecidableEq

namespace GraphRef

def ofFunction : Option FunctionId → GraphRef
  | none => .main
  | some f => .function f

instance : ToString GraphRef := ⟨fun | .main => "main" | .function f => toString f⟩

end GraphRef

-- Where in the graphs something was found. The operation whose index is the number
-- of operations of its block stands for the exit of that block.
inductive Location
  | graph (graph : GraphRef)
  | block (graph : GraphRef) (block : BlockId)
  | operation (graph : GraphRef) (block : BlockId) (index : Nat)
deriving DecidableEq

instance : ToString Location where
  toString
    | .graph g => toString g
    | .block g b => s!"{g}:{b}"
    | .operation g b i => s!"{g}:{b}:op{i}"

-- The function and the operation that a diagnostic was found at.
structure Surroundings where
  function? : Option String
  operation? : Option String
deriving DecidableEq

structure Diagnostic where
  code : Code
  severity : Severity
  message : String
  primary : Location
  notes : List String
  context? : Option Surroundings
  snippet? : Option String
deriving DecidableEq

namespace Surroundings

def text (s : Surroundings) : String :=
  match s.function?, s.operation? with
  | some f, some op => s!" ({f}, {op})"
  | some f, none => s!" ({f})"
  | none, some op => s!" ({op})"
  | none, none => ""

end Surroundings

namespace Diagnostic

def isError (d : Diagnostic) : Bool := d.severity == .error

-- A headline, a line for each note and, if there is one, the snippet; each ends
-- its line.
instance : ToString Diagnostic where
  toString d :=
    s!"{d.severity} [{d.code}] {d.message} @ {d.primary}"
      ++ (d.context?.map Surroundings.text).getD "" ++ "\n"
      ++ String.join (d.notes.map (fun note => "  note: " ++ note ++ "\n"))
      ++ (d.snippet?.map (· ++ "\n")).getD ""

end Diagnostic

end SsaReplay
