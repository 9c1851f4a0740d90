import SsaReplay.Report.Diagnostic

namespace SsaReplay

-- The self-describing form in which diagnostics are exchanged between programs.
inductive Datum
  | null
  | bool (b : Bool)
  | integer (n : Int)
  -- Any number that is not an integer.
  | fraction
  | text (s : String)
  | list (items : List Datum)
  | record (fields : List (String × Datum))
deriving Inhabited

namespace Datum

def text? : Datum → Option String
  | .text s => some s
  | _ => none

-- An integer from zero up to a bound, exclusively.
def below? (bound : Nat) : Datum → Option Nat
  | .integer (.ofNat n) => if n < bound then some n else none
  | _ => none

def list? : Datum → Option (List Datum)
  | .list items => some items
  | _ => none

-- How the fields of a structure are found: in a record by name, whatever else the
-- record holds, or in a list of exactly all fields by position.
def fields? (names : List String) : Datum → Option (String → Option Datum)
  | .record fields => some (fun name => fields.lookup name)
  | .list items =>
      if items.length = names.length then some (fun name => (names.zip items).lookup name) else none
  | _ => none

-- A case of a choice: its bare name, or a record of the name with its content.
def case? : Datum → Option (String × Option Datum)
  | .text name => some (name, none)
  | .record [(name, content)] => some (name, some content)
  | _ => none

-- A case without content.
def bareCase? (d : Datum) : Option String :=
  match d.case? with
  | some (name, none) => some name
  | some (name, some .null) => some name
  | _ => none

-- Content that may be missing or null.
def optional? {α : Type} (read : Datum → Option α) : Option Datum → Option (Option α)
  | none => some none
  | some .null => some none
  | some d => (read d).map some

def orNull {α : Type} (write : α → Datum) : Option α → Datum
  | none => .null
  | some a => write a

end Datum

namespace Code

def ofDatum? (d : Datum) : Option Code := d.bareCase?.bind ofName?

end Code

namespace Severity

def ofDatum? (d : Datum) : Option Severity := d.bareCase?.bind ofName?

end Severity

-- Identities are 32-bit numbers and positions 64-bit ones.
def identBound : Nat := UInt32.size

def positionBound : Nat := UInt64.size

namespace GraphRef

def toDatum : GraphRef → Datum
  | .main => .text "Main"
  | .function f => .record [("Function", .integer f.index)]

def ofDatum? (d : Datum) : Option GraphRef :=
  match d.case? with
  | some ("Main", none) => some .main
  | some ("Main", some .null) => some .main
  | some ("Function", some id) => (id.below? identBound).map (fun n => .function ⟨n⟩)
  | _ => none

end GraphRef

namespace Location

def toDatum : Location → Datum
  | .graph g => .record [("Graph", g.toDatum)]
  | .block g b => .record [("Block", .record [("graph", g.toDatum), ("block", .integer b.index)])]
  | .operation g b i =>
      .record [("Operation",
        .record [("graph", g.toDatum), ("block", .integer b.index), ("index", .integer i)])]

def ofDatum? (d : Datum) : Option Location := do
  match d.case? with
  | some ("Graph", some g) => return .graph (← GraphRef.ofDatum? g)
  | some ("Block", some (.record fields)) =>
      let g ← GraphRef.ofDatum? (← fields.lookup "graph")
      let b ← (← fields.lookup "block").below? identBound
      return .block g ⟨b⟩
  | some ("Operation", some (.record fields)) =>
      let g ← GraphRef.ofDatum? (← fields.lookup "graph")
      let b ← (← fields.lookup "block").below? identBound
      let i ← (← fields.lookup "index").below? positionBound
      return .operation g ⟨b⟩ i
  | _ => none

end Location

namespace Surroundings

def toDatum (s : Surroundings) : Datum :=
  .record [("function_name", .orNull .text s.function?),
    ("operation_text", .orNull .text s.operation?)]

def ofDatum? (d : Datum) : Option Surroundings := do
  let field ← d.fields? ["function_name", "operation_text"]
  let f ← Datum.optional? Datum.text? (field "function_name")
  let op ← Datum.optional? Datum.text? (field "operation_text")
  return ⟨f, op⟩

end Surroundings

namespace Diagnostic

def noteDatum (note : String) : Datum := .record [("message", .text note)]

def noteOfDatum? (d : Datum) : Option String := do
  let field ← d.fields? ["message"]
  (← field "message").text?

def toDatum (d : Diagnostic) : Datum :=
  .record
    [("code", .text d.code.name), ("severity", .text d.severity.name), ("message", .text d.message),
      ("primary", d.primary.toDatum), ("notes", .list (d.notes.map noteDatum)),
      ("context", .orNull Surroundings.toDatum d.context?), ("snippet", .orNull .text d.snippet?)]

def ofDatum? (d : Datum) : Option Diagnostic := do
  let field ← d.fields?
    ["code", "severity", "message", "primary", "notes", "context", "snippet"]
  let code ← Code.ofDatum? (← field "code")
  let severity ← Severity.ofDatum? (← field "severity")
  let message ← (← field "message").text?
  let primary ← Location.ofDatum? (← field "primary")
  let notes ← (← (← field "notes").list?).mapM noteOfDatum?
  let context? ← Datum.optional? Surroundings.ofDatum? (field "context")
  let snippet? ← Datum.optional? Datum.text? (field "snippet")
  return ⟨code, severity, message, primary, notes, context?, snippet?⟩

end Diagnostic

end SsaReplay
