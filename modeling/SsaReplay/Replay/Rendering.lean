import SsaReplay.Graph.Listing
import SsaReplay.Replay.State
import SsaReplay.Report

namespace SsaReplay.Replay

open SsaReplay.Graph (Listing)

-- What the texts about a replay are written with.
structure Reader where
  scopes : Yul.Scopes
  dialect : Yul.Dialect
  settings : Settings

namespace Site

def listing (site : Site) (r : Reader) : Listing :=
  ⟨site.graph, some r.dialect, some r.scopes⟩

def functionName? (site : Site) (r : Reader) : Option String :=
  site.graph.function?.map r.scopes.functionName

def title (site : Site) (r : Reader) : String :=
  match site.functionName? r with
  | some name => "function " ++ name
  | none => "main"

-- The operation at a location, if that is one. There is no answer when the operation
-- has no text.
def operationText? (site : Site) (r : Reader) : Location → Option (Option String)
  | .operation _ b i =>
      match (site.graph.block? b).bind (fun data => data.operations[i]?) with
      | some op => (((site.listing r).operation? op).map some)
      | none => some none
  | _ => some none

def surroundings? (site : Site) (r : Reader) (location : Location) :
    Option (Option Surroundings) := do
  let function? := site.functionName? r
  let operation? ← site.operationText? r location
  return if function?.isSome || operation?.isSome then some ⟨function?, operation?⟩ else none

def marked (here : Bool) (text : String) : String :=
  (if here then " >   " else "     ") ++ text ++ "\n"

-- Up to two operations on each side of the one at the location, and the exit if the
-- window reaches it.
def window? (site : Site) (r : Reader) (b : BlockId) (index : Nat) (data : Graph.BasicBlock) :
    Option String := do
  let l := site.listing r
  let operations := data.operations
  let last := min (index + 3) operations.length
  let first := min (index - 2) last
  let texts ← ((operations.take last).drop first).mapM l.operation?
  let lines := texts.mapIdx fun i text => marked (first + i = index) text
  let exit :=
    if last = operations.length then marked (operations.length ≤ index) (l.exit data.exit) else ""
  return s!"{site.title r}\n  {b}:\n" ++ String.join lines ++ exit

-- The surroundings of a location in the graph; for a block, the whole of it.
def snippet? (site : Site) (r : Reader) : Location → Option (Option String)
  | .graph _ => some none
  | .block _ b => ((site.listing r).block? b).map some
  | .operation _ b i =>
      match site.graph.block? b with
      | some data => (site.window? r b i data).map some
      | none => some none

end Site

namespace Finding

-- The diagnostic for a finding, as an error or as a warning. There is none when it
-- would have to show a block or a builtin that does not exist.
def diagnostic? (f : Finding) (severity : Severity) (r : Reader) : Option Diagnostic := do
  let message ← f.mismatch.message? r.scopes r.dialect
  let context? ←
    if r.settings.attachesContext then f.site.surroundings? r f.location else some none
  let snippet? ←
    if r.settings.attachesSnippets then f.site.snippet? r f.location else some none
  return ⟨f.mismatch.code, severity, message, f.location, f.mismatch.notes r.scopes,
    context?, snippet?⟩

-- Whether the finding can be put into words.
def renders (f : Finding) (r : Reader) : Bool := (f.diagnostic? .error r).isSome

end Finding

namespace Entry

def finding? (e : Entry) : Option Finding :=
  match e.event with
  | .found m location => some ⟨m, location, e.site⟩
  | _ => none

-- Whether what the entry says can be put into words.
def renders (e : Entry) (r : Reader) : Bool :=
  match e.finding? with
  | some f => f.renders r
  | none => true

-- The trace shows where a replay enters and moves, what joins and loops start with,
-- and what is found.
def trace? (e : Entry) (r : Reader) : Option String :=
  let graph := GraphRef.ofFunction e.site.graph.function?
  match e.event with
  | .entered none => some s!"DEBUG validating graph graph={graph}"
  | .entered (some d) => some s!"DEBUG validating graph graph={graph} name={d.name}"
  | .advanced source target _ => some s!"DEBUG advance graph={graph} from={source} to={target}"
  | .merged join bindings =>
      let mapping := bindings.text r.scopes.variableName
      some s!"TRACE consolidated graph={graph} join={join} mapping={mapping}"
  | .loopPass header iteration bindings =>
      let mapping := bindings.text r.scopes.variableName
      some s!"TRACE loop iteration graph={graph} header={header} iteration={iteration} mapping={mapping}"
  | .found m location =>
      (m.message? r.scopes r.dialect).map fun message =>
        s!"WARN {message} code={m.code} location={location}"
  | .consumed .. | .left .. | .carried .. | .loopEdge .. => none

end Entry

end SsaReplay.Replay
