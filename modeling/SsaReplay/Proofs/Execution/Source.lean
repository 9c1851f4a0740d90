import SsaReplay.Validation

namespace SsaReplay.Execution

open SsaReplay.Yul (Block Case Definition Expr Stmt)

inductive Target
  | builtin (id : BuiltinId)
  | function (id : FunctionId)
deriving DecidableEq

-- A call as it is seen from outside.
structure Call where
  target : Target
  operands : List Word
deriving DecidableEq

-- Answers a call by its results, or by nothing when the call does not return. The calls
-- made earlier are given too, the latest first.
abbrev Oracle := List Call → Call → Option (List Word)

-- How a run comes to its end.
inductive Ending
  | exited
  | returned (words : List Word)
  -- In a call that does not return.
  | terminated
deriving DecidableEq

-- A run that may be cut off after a number of steps gets to its end, and so it does
-- whenever it is given more of them.
def Eventually {α : Type} (run : Nat → Option α) (a : α) : Prop := ∃ n, ∀ m ≥ n, run m = some a

theorem Eventually.unique {α : Type} {run : Nat → Option α} {a b : α} (h : Eventually run a)
    (k : Eventually run b) : a = b := by
  obtain ⟨n, hn⟩ := h
  obtain ⟨m, hm⟩ := k
  have ha := hn (max n m) (Nat.le_max_left n m)
  have hb := hm (max n m) (Nat.le_max_right n m)
  exact Option.some.inj (ha.symm.trans hb)

-- What variables hold, and the calls made so far, the latest first.
structure Memory where
  words : VariableId → Option Word
  calls : List Call

namespace Memory

def empty : Memory := ⟨fun _ => none, []⟩

def assign (m : Memory) (x : VariableId) (w : Word) : Memory :=
  { m with words := fun y => if y = x then some w else m.words y }

end Memory

-- Where control is after a statement.
inductive Flow
  | next
  | broken
  | continued
  | left
  | stopped
deriving DecidableEq

namespace Flow

-- Where it is after a loop that was left in this way.
def pastLoop : Flow → Flow
  | .broken => .next
  | flow => flow

end Flow

abbrev Action := Memory → Option (Flow × Memory)

-- One action, and the other where control gets past the first.
def andThen (first second : Action) : Action := fun memory => do
  match ← first memory with
  | (.next, memory) => second memory
  | (flow, memory) => some (flow, memory)

theorem andThen_of_next {first second : Action} {memory memory' : Memory}
    (h : first memory = some (.next, memory')) : andThen first second memory = second memory' := by
  simp only [andThen, Option.bind_eq_bind, h, Option.bind_some]

theorem andThen_of_ne {first second : Action} {memory memory' : Memory} {flow : Flow}
    (h : first memory = some (flow, memory')) (hf : flow ≠ .next) :
    andThen first second memory = some (flow, memory') := by
  simp only [andThen, Option.bind_eq_bind, h, Option.bind_some]

-- What comes after the body of a loop that was left in this way. Whatever ends the body
-- or the post block ends the loop, except that the body may be continued from.
def afterBody (post again : Action) : Flow → Action
  | .next | .continued => fun memory => do
      match ← post memory with
      | (.next, memory) => again memory
      | (.continued, _) => none
      | (flow, memory) => some (flow.pastLoop, memory)
  | flow => fun memory => some (flow.pastLoop, memory)

def repeatLoop (test : Memory → Option (Option Word × Memory)) (body post : Action) : Nat → Action
  | 0, _ => none
  | n + 1, memory => do
      match ← test memory with
      | (none, memory) => some (.stopped, memory)
      | (some w, memory) =>
          if w = 0 then some (.next, memory)
          else do
            let (flow, memory) ← body memory
            afterBody post (repeatLoop test body post n) flow memory

section RepeatLoop

variable {test : Memory → Option (Option Word × Memory)} {body post : Action} {n : Nat}
  {memory memory' : Memory}

theorem repeatLoop_of_none (h : test memory = some (none, memory')) :
    repeatLoop test body post (n + 1) memory = some (.stopped, memory') := by
  simp only [repeatLoop, Option.bind_eq_bind, h, Option.bind_some]

theorem repeatLoop_of_zero (h : test memory = some (some 0, memory')) :
    repeatLoop test body post (n + 1) memory = some (.next, memory') := by
  simp only [repeatLoop, Option.bind_eq_bind, h, Option.bind_some, if_pos]

theorem repeatLoop_of_ne {w : Word} (h : test memory = some (some w, memory')) (hw : w ≠ 0) :
    repeatLoop test body post (n + 1) memory =
      (body memory').bind fun p => afterBody post (repeatLoop test body post n) p.1 p.2 := by
  simp only [repeatLoop, Option.bind_eq_bind, h, Option.bind_some, if_neg hw]

end RepeatLoop

-- What the code of a program goes by: the meaning of its names, and of the calls.
structure Machine where
  analysis : Yul.Analysis
  dialect : Yul.Dialect
  oracle : Oracle

namespace Machine

variable (m : Machine)

def var? (scope? : Option ScopeId) (name : String) : Option VariableId :=
  match m.analysis.scopes.symbol? scope? name with
  | some (.var x) => some x
  | _ => none

-- Builtins come before functions.
def target? (scope? : Option ScopeId) (name : String) : Option Target :=
  match m.dialect.find? name with
  | some b => some (.builtin b)
  | none =>
      match m.analysis.scopes.symbol? scope? name with
      | some (.func f) => some (.function f)
      | _ => none

-- An argument that is resolved when the program is compiled is no operand.
def skips (name : String) (i : Nat) : Bool :=
  (m.dialect.named? name).any (·.isLiteralArgument i)

-- An expression only makes calls. It has no results when control does not come back from
-- one of them. Arguments are evaluated from the last to the first.
mutual
def eval (scope? : Option ScopeId) : Expr → Memory → Option (Option (List Word) × Memory)
  | .ident name, memory => do
      let x ← m.var? scope? name
      let w ← memory.words x
      some (some [w], memory)
  | .literal l, memory => some (some [l.value], memory)
  | .call name arguments, memory => do
      match ← evalArguments scope? (m.skips name) 0 arguments memory with
      | (none, memory) => some (none, memory)
      | (some operands, memory) => do
          let target ← m.target? scope? name
          let call : Call := ⟨target, operands⟩
          some (m.oracle memory.calls call, { memory with calls := call :: memory.calls })
def evalArguments (scope? : Option ScopeId) (skipped : Nat → Bool) :
    Nat → List Expr → Memory → Option (Option (List Word) × Memory)
  | _, [], memory => some (some [], memory)
  | i, e :: rest, memory => do
      match ← evalArguments scope? skipped (i + 1) rest memory with
      | (none, memory) => some (none, memory)
      | (some operands, memory) =>
          if skipped i then some (some operands, memory)
          else
            match ← eval scope? e memory with
            | (none, memory) => some (none, memory)
            | (some [w], memory) => some (some (w :: operands), memory)
            | _ => none
end

def evalOne (scope? : Option ScopeId) (e : Expr) (memory : Memory) :
    Option (Option Word × Memory) := do
  match ← m.eval scope? e memory with
  | (none, memory) => some (none, memory)
  | (some [w], memory) => some (some w, memory)
  | _ => none

def assignAll (scope? : Option ScopeId) : List (String × Word) → Memory → Option Memory
  | [], memory => some memory
  | (name, w) :: rest, memory => do
      let x ← m.var? scope? name
      assignAll scope? rest (memory.assign x w)

-- Sets as many names as the expression has results.
def execAssign (scope? : Option ScopeId) (names : List String) (e : Expr) : Action :=
  fun memory => do
    match ← m.eval scope? e memory with
    | (none, memory) => some (.stopped, memory)
    | (some words, memory) =>
        if words.length = names.length then
          (m.assignAll scope? (names.zip words) memory).map (.next, ·)
        else none

def execZeros (scope? : Option ScopeId) (names : List String) : Action := fun memory =>
  (m.assignAll scope? (names.zip (List.replicate names.length 0)) memory).map (.next, ·)

-- Runs a statement or a block; a loop makes at most the number of passes. Variables
-- declared without a value are zero, and definitions do nothing by themselves. The
-- condition, body and post block of a loop all stand in the scope of its pre block.
mutual
def exec (passes : Nat) (scope? : Option ScopeId) : Stmt → Action
  | .expr e => fun memory => do
      match ← m.eval scope? e memory with
      | (none, memory) => some (.stopped, memory)
      | (some [], memory) => some (.next, memory)
      | _ => none
  | .assign names e => m.execAssign scope? names e
  | .letDecl names (some e) => m.execAssign scope? names e
  | .letDecl names none => m.execZeros scope? names
  | .funDef .. => fun memory => some (.next, memory)
  | .cond condition body => fun memory => do
      match ← m.evalOne scope? condition memory with
      | (none, memory) => some (.stopped, memory)
      | (some w, memory) => if w = 0 then some (.next, memory) else execBlock passes body memory
  | .switch e cases => fun memory => do
      match ← m.evalOne scope? e memory with
      | (none, memory) => some (.stopped, memory)
      | (some w, memory) => execCases passes w cases memory
  | .forLoop (.mk id pre) condition post body => fun memory => do
      let scope ← m.analysis.scopeOf? id
      andThen (execAll passes (some scope) pre)
        (repeatLoop (m.evalOne (some scope) condition) (execBlock passes body)
          (execBlock passes post) passes) memory
  | .breakLoop => fun memory => some (.broken, memory)
  | .continueLoop => fun memory => some (.continued, memory)
  | .leave => fun memory => some (.left, memory)
  | .block body => execBlock passes body
def execBlock (passes : Nat) : Block → Action
  | .mk id statements => fun memory => do
      let scope ← m.analysis.scopeOf? id
      execAll passes (some scope) statements memory
def execAll (passes : Nat) (scope? : Option ScopeId) : List Stmt → Action
  | [] => fun memory => some (.next, memory)
  | s :: rest => andThen (exec passes scope? s) (execAll passes scope? rest)
def execCases (passes : Nat) (w : Word) : List Case → Action
  | [] => fun memory => some (.next, memory)
  | .mk none body :: _ => execBlock passes body
  | .mk (some l) body :: rest =>
      if l.value = w then execBlock passes body else execCases passes w rest
end

-- How the main program ends, when control is somewhere after its block.
def mainEnd : Flow → Memory → Option (Ending × List Call)
  | .next, memory => some (.exited, memory.calls)
  | .stopped, memory => some (.terminated, memory.calls)
  | .broken, _ | .continued, _ | .left, _ => none

def runMain (program : Block) (passes : Nat) : Option (Ending × List Call) := do
  let (flow, memory) ← m.execBlock passes program .empty
  mainEnd flow memory

-- A function returns what its return variables hold in the end.
def functionEnd (d : Definition) : Flow → Memory → Option (Ending × List Call)
  | .next, memory | .left, memory => do
      let words ← d.returns.mapM fun name =>
        (m.var? (m.analysis.scopeOf? d.body.id) name).bind memory.words
      some (.returned words, memory.calls)
  | .stopped, memory => some (.terminated, memory.calls)
  | .broken, _ | .continued, _ => none

-- A function is run for the words that its parameters stand for. Its variables are named
-- as the body sees them.
def runFunction (d : Definition) (arguments : List Word) (passes : Nat) :
    Option (Ending × List Call) := do
  let scope? := m.analysis.scopeOf? d.body.id
  let bound ← m.assignAll scope? (d.parameters.zip arguments) .empty
  let started ← m.assignAll scope? (d.returns.zip (List.replicate d.returns.length 0)) bound
  let (flow, memory) ← m.execBlock passes d.body started
  m.functionEnd d flow memory

-- The code of a graph: that of a definition, or else the main program.
def run (program : Block) (d? : Option Definition) (arguments : List Word) (passes : Nat) :
    Option (Ending × List Call) :=
  match d? with
  | none => m.runMain program passes
  | some d => m.runFunction d arguments passes

end Machine

end SsaReplay.Execution
