import SsaReplay.Ident

namespace SsaReplay.Yul

inductive Symbol
  | var (id : VariableId)
  | func (id : FunctionId)
deriving DecidableEq

instance : ToString Symbol := ⟨fun | .var v => toString v | .func f => toString f⟩

structure Variable where
  name : String
  scope : ScopeId

structure Function where
  name : String
  parameters : Nat
  returns : Nat
  scope : ScopeId

structure Scope where
  parent? : Option ScopeId
  -- Set on the scope of a function's parameters and return variables. Variables
  -- declared further out are not visible across it, functions are.
  functionScope : Bool
  symbols : List (String × Symbol)

-- The scopes of a program, and all that is declared in them.
structure Scopes where
  scopes : Array Scope
  vars : Array Variable
  functions : Array Function

inductive DeclareError
  | alreadyDeclared (name : String)
  | noSuchScope (scope : ScopeId)

namespace DeclareError

def message : DeclareError → String
  | .alreadyDeclared name => s!"identifier `{name}` is already declared in this scope"
  | .noSuchScope scope => s!"`{scope}` does not exist"

end DeclareError

namespace Scopes

def empty : Scopes := ⟨#[], #[], #[]⟩

def scope? (s : Scopes) (id : ScopeId) : Option Scope := s.scopes[id.index]?

def declaredVariable? (s : Scopes) (id : VariableId) : Option Variable := s.vars[id.index]?

def declaredFunction? (s : Scopes) (id : FunctionId) : Option Function := s.functions[id.index]?

-- The parent need not exist yet.
def make (s : Scopes) (parent? : Option ScopeId) (functionScope : Bool) : ScopeId × Scopes :=
  (⟨s.scopes.size⟩, { s with scopes := s.scopes.push ⟨parent?, functionScope, []⟩ })

-- A scope declares a name at most once, as a variable or as a function.
def checkFree (s : Scopes) (scope : ScopeId) (name : String) : Except DeclareError Unit :=
  match s.scope? scope with
  | none => .error (.noSuchScope scope)
  | some data =>
      match data.symbols.lookup name with
      | some _ => .error (.alreadyDeclared name)
      | none => .ok ()

def record (s : Scopes) (scope : ScopeId) (name : String) (symbol : Symbol) : Scopes :=
  { s with scopes := s.scopes.modify scope.index fun data =>
      { data with symbols := (name, symbol) :: data.symbols } }

def declareVariable (s : Scopes) (scope : ScopeId) (name : String) :
    Except DeclareError (VariableId × Scopes) :=
  match s.checkFree scope name with
  | .error e => .error e
  | .ok () =>
      let id : VariableId := ⟨s.vars.size⟩
      .ok (id, { s.record scope name (.var id) with vars := s.vars.push ⟨name, scope⟩ })

def declareFunction (s : Scopes) (scope : ScopeId) (name : String) (parameters returns : Nat) :
    Except DeclareError (FunctionId × Scopes) :=
  match s.checkFree scope name with
  | .error e => .error e
  | .ok () =>
      let id : FunctionId := ⟨s.functions.size⟩
      .ok (id, { s.record scope name (.func id) with
        functions := s.functions.push ⟨name, parameters, returns, scope⟩ })

-- What a scope declares under a name, as far as it can be seen from inside. Once a
-- function scope lies between, variables are hidden.
def visible? (data : Scope) (crossed : Bool) (name : String) : Option Symbol :=
  match data.symbols.lookup name with
  | some (.func f) => some (.func f)
  | some (.var v) => if crossed then none else some (.var v)
  | none => none

-- Walks outwards over at most the given number of scopes.
def search (s : Scopes) (name : String) : Nat → Bool → Option ScopeId → Option Symbol
  | 0, _, _ => none
  | _ + 1, _, none => none
  | n + 1, crossed, some id =>
      match s.scope? id with
      | none => none
      | some data =>
          match visible? data crossed name with
          | some symbol => some symbol
          | none => search s name n (crossed || data.functionScope) data.parent?

-- The nearest visible declaration. A walk longer than the number of scopes would
-- come through one of them again, and a second visit shows nothing new.
def lookup (s : Scopes) (scope : ScopeId) (name : String) : Option Symbol :=
  s.search name s.scopes.size false (some scope)

-- What a name stands for where a scope is active, if one is.
def symbol? (s : Scopes) (scope? : Option ScopeId) (name : String) : Option Symbol :=
  scope?.bind (s.lookup · name)

-- Names for messages; what is not declared is shown by its identity.

def variableName (s : Scopes) (id : VariableId) : String :=
  match s.declaredVariable? id with
  | some data => data.name
  | none => toString id

def functionName (s : Scopes) (id : FunctionId) : String :=
  match s.declaredFunction? id with
  | some data => data.name
  | none => toString id

end Scopes

-- The scopes of a program and the scope that each of its blocks opens.
structure Analysis where
  scopes : Scopes
  blockScopes : List (NodeId × ScopeId)

namespace Analysis

def empty : Analysis := ⟨.empty, []⟩

def setScope (a : Analysis) (node : NodeId) (scope : ScopeId) : Analysis :=
  { a with blockScopes := (node, scope) :: a.blockScopes }

-- The blocks and scopes in order; for a block that comes twice the last scope counts.
-- The reserved scope cannot be opened by a block.
def ofBlockScopes? (scopes : Scopes) (pairs : List (NodeId × ScopeId)) : Option Analysis :=
  if pairs.any (fun p => p.2.index = reservedIndex) then none
  else some (pairs.foldl (fun a p => a.setScope p.1 p.2) ⟨scopes, []⟩)

def scopeOf? (a : Analysis) (node : NodeId) : Option ScopeId := a.blockScopes.lookup node

end Analysis

end SsaReplay.Yul
