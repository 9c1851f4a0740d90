import SsaReplay.Yul.Program
import SsaReplay.Yul.Scope

namespace SsaReplay.Yul

-- A program as it is written, before its blocks are numbered and its names are
-- declared. The mark leaves no statement behind and asks for the scope it is in.
mutual
inductive Draft
  | expr (e : Expr)
  | assign (names : List String) (value : Expr)
  | letDecl (names : List String) (value? : Option Expr)
  | funDef (name : String) (parameters returns : List String) (body : List Draft)
  | cond (condition : Expr) (body : List Draft)
  | switch (value : Expr) (cases : List DraftCase)
  | forLoop (pre : List Draft) (condition : Expr) (post body : List Draft)
  | breakLoop
  | continueLoop
  | leave
  | block (body : List Draft)
  | mark
inductive DraftCase
  | mk (value? : Option Word) (body : List Draft)
end

-- What laying out a draft finds on its way. A name that could not be declared has
-- no identity.
inductive Declared
  | vars (ids : List (Option VariableId))
  | function (id? : Option FunctionId) (parameters returns : List (Option VariableId))
  | scope (id : ScopeId)

structure Layout where
  analysis : Analysis
  nextNode : Nat
  -- The latest first.
  declared : List Declared
  -- The first declaration that failed. The layout goes on after it.
  error? : Option DeclareError

namespace Layout

def start : Layout := ⟨.empty, 0, [], none⟩

def makeScope (parent? : Option ScopeId) (functionScope : Bool) : StateM Layout ScopeId :=
  modifyGet fun l =>
    let (id, scopes) := l.analysis.scopes.make parent? functionScope
    (id, { l with analysis := { l.analysis with scopes } })

def nestedScope (parent : ScopeId) : StateM Layout ScopeId := makeScope (some parent) false

def makeNode (scope : ScopeId) : StateM Layout NodeId :=
  modifyGet fun l =>
    (⟨l.nextNode⟩,
      { l with analysis := l.analysis.setScope ⟨l.nextNode⟩ scope, nextNode := l.nextNode + 1 })

def note (d : Declared) : StateM Layout Unit :=
  modify fun l => { l with declared := d :: l.declared }

-- Takes over the scopes after a declaration, or remembers why there is none.
def settle {α : Type} (l : Layout) : Except DeclareError (α × Scopes) → Option α × Layout
  | .ok (id, scopes) => (some id, { l with analysis := { l.analysis with scopes } })
  | .error e => (none, { l with error? := some (l.error?.getD e) })

def declareVariable (scope : ScopeId) (name : String) : StateM Layout (Option VariableId) :=
  modifyGet fun l => l.settle (l.analysis.scopes.declareVariable scope name)

def declareFunction (scope : ScopeId) (name : String) (parameters returns : Nat) :
    StateM Layout (Option FunctionId) :=
  modifyGet fun l => l.settle (l.analysis.scopes.declareFunction scope name parameters returns)

end Layout

open Layout

-- Every block opens a scope inside the one it stands in, except that the post and
-- the body of a loop stand in the scope of its pre block. Between a function's body
-- and the scope of its definition lies the scope of its parameters and returns.
mutual
def Draft.lay (scope : ScopeId) : Draft → StateM Layout (Option Stmt)
  | .expr e => pure (some (.expr e))
  | .assign names value => pure (some (.assign names value))
  | .letDecl names value? => do
      let ids ← names.mapM (declareVariable scope)
      note (.vars ids)
      pure (some (.letDecl names value?))
  | .funDef name parameters returns body => do
      let id? ← declareFunction scope name parameters.length returns.length
      let signature ← makeScope (some scope) true
      let parameterIds ← parameters.mapM (declareVariable signature)
      let returnIds ← returns.mapM (declareVariable signature)
      let inner ← nestedScope signature
      let node ← makeNode inner
      let statements ← layAll inner body
      note (.function id? parameterIds returnIds)
      pure (some (.funDef name parameters returns (.mk node statements)))
  | .cond condition body => do
      let inner ← nestedScope scope
      let node ← makeNode inner
      let statements ← layAll inner body
      pure (some (.cond condition (.mk node statements)))
  | .switch value cases => do
      let arms ← layCases scope cases
      pure (some (.switch value arms))
  | .forLoop pre condition post body => do
      let outer ← nestedScope scope
      let preNode ← makeNode outer
      let preStatements ← layAll outer pre
      let postScope ← nestedScope outer
      let postNode ← makeNode postScope
      let postStatements ← layAll postScope post
      let bodyScope ← nestedScope outer
      let bodyNode ← makeNode bodyScope
      let bodyStatements ← layAll bodyScope body
      pure (some (.forLoop (.mk preNode preStatements) condition
        (.mk postNode postStatements) (.mk bodyNode bodyStatements)))
  | .breakLoop => pure (some .breakLoop)
  | .continueLoop => pure (some .continueLoop)
  | .leave => pure (some .leave)
  | .block body => do
      let inner ← nestedScope scope
      let node ← makeNode inner
      let statements ← layAll inner body
      pure (some (.block (.mk node statements)))
  | .mark => do
      note (.scope scope)
      pure none
def layAll (scope : ScopeId) : List Draft → StateM Layout (List Stmt)
  | [] => pure []
  | d :: rest => do
      let s ← d.lay scope
      let statements ← layAll scope rest
      pure (s.toList ++ statements)
def layCases (scope : ScopeId) : List DraftCase → StateM Layout (List Case)
  | [] => pure []
  | .mk value? body :: rest => do
      let inner ← nestedScope scope
      let node ← makeNode inner
      let statements ← layAll inner body
      let cases ← layCases scope rest
      pure (.mk (value?.map Literal.number) (.mk node statements) :: cases)
end

def layProgram (body : List Draft) : StateM Layout Block := do
  let scope ← makeScope none false
  let node ← makeNode scope
  let statements ← layAll scope body
  pure (.mk node statements)

-- The program and its analysis, unless some name is declared twice in one scope.
def program? (body : List Draft) : Except DeclareError (Block × Analysis) :=
  let (block, layout) := (layProgram body).run Layout.start
  match layout.error? with
  | some e => .error e
  | none => .ok (block, layout.analysis)

-- A draft as it is laid out, or an empty program in the stead of one that is rejected.
def laidOut (body : List Draft) : Block × Analysis :=
  match program? body with
  | .ok laid => laid
  | .error _ => (.mk ⟨0⟩ [], .empty)

theorem program?_eq_laidOut {body : List Draft} (h : (program? body).isOk = true) :
    program? body = .ok ((laidOut body).1, (laidOut body).2) := by
  unfold laidOut
  cases hp : program? body with
  | ok laid => rfl
  | error e => simp [hp, Except.isOk, Except.toBool] at h

end SsaReplay.Yul
