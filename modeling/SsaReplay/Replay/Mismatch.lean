import SsaReplay.Candidates.Bindings
import SsaReplay.Graph.Cfg
import SsaReplay.Report.Diagnostic
import SsaReplay.Yul.Dialect
import SsaReplay.Yul.Program
import SsaReplay.Yul.Scope

namespace SsaReplay.Replay

open SsaReplay.Yul (Literal Scopes Dialect)

-- The two ways on which a loop body is left for one target.
inductive LoopWay
  | exits
  | continues
deriving DecidableEq

-- What the source asks of the exit of a block.
inductive ExitDemand
  | jump
  | branch
  | functionReturn
  | mainExit
  | terminated
deriving DecidableEq

namespace ExitDemand

def text : ExitDemand → String
  | .jump => "jump"
  | .branch => "conditional jump"
  | .functionReturn => "function return"
  | .mainExit => "main exit"
  | .terminated => "terminating call"

end ExitDemand

-- Why a source program and its graphs do not agree at some point.
inductive Mismatch
  -- graph references
  | absentBlock (block : BlockId)
  | absentPhi (phi : ValueId) (block : BlockId)
  -- names
  | noActiveScope
  | unscopedBlock (node : NodeId)
  | undeclared (name : String) (scope : ScopeId)
  | functionForVariable (name : String)
  | variableForFunction (name : String)
  | noFunctionGraph (name : String)
  | signatureSize (name : String) (parameters returns graphArguments graphReturns : Nat)
  | signatureVariable (var graphVar : VariableId)
  -- operations and calls
  | missingOperation (name : String) (block : BlockId) (operations : Nat)
  | leftoverOperations (count : Nat) (block : BlockId)
  | operand (index : Nat) (name : String) (input : ValueId) (candidates : ValueSet)
  | operandCount (name : String) (arguments inputs : Nat)
  | otherBuiltin (builtin : BuiltinId) (name : String)
  | functionForBuiltin (function : FunctionId) (name : String)
  | otherFunction (function : FunctionId) (name : String) (resolved : FunctionId)
  | callArity (name : String) (returns outputs : Nat)
  | notOneValue (found : Nat)
  | unusedValues (count : Nat)
  | boundCount (vars values : Nat)
  | absentLiteral (literal : Literal)
  | absentZero
  | defaultNotLast
  | comparisonNotLast (literal : Literal) (block : BlockId)
  | notCompared (literal : Literal)
  | comparedWith (value : ValueId) (literal : Literal)
  | comparisonReads (literal : Literal) (value : ValueId) (candidates : ValueSet)
  | caseCondition (literal : Literal) (condition comparison : ValueId)
  -- edges and exits
  | wrongExit (block : BlockId) (demand : ExitDemand) (found : Graph.Exit)
  | noEdge (source target : BlockId)
  | ifTarget (source target expected : BlockId)
  | joinTarget (target expected : BlockId)
  | postSkipped (header : BlockId)
  | latchTarget (target header : BlockId)
  | loopTarget (way : LoopWay) (header target expected : BlockId)
  | outsideLoop (way : LoopWay)
  | returnCount (block : BlockId) (values returns : Nat)
  | notAnEntry (source target : BlockId)
  | phiArity (phi : ValueId) (arguments : Nat) (block : BlockId) (entries : Nat)
  | notAPhi (phi : ValueId) (block : BlockId)
  | unstable (header : BlockId) (iterations : Nat)
  -- bindings
  | unbound (name : String)
  | unboundReturn (var : VariableId)
  | redeclared (name : String)
  | signatureRedeclared (var : VariableId)
  | disagreement (join : BlockId) (conflict : Bindings.Conflict)
  | returnedValue (value : ValueId) (var : VariableId) (candidates : ValueSet)
  | condition (value : ValueId) (candidates : ValueSet)
  | unownedPhi (phi : ValueId) (block : BlockId)
  -- warnings
  | unreachable (statements : Nat) (node : NodeId)

namespace Mismatch

def code : Mismatch → Code
  | absentBlock _ => .invalidBlockRef
  | absentPhi .. => .invalidValueRef
  | noActiveScope | unscopedBlock _ => .missingScope
  | undeclared .. => .unresolvedIdentifier
  | functionForVariable _ => .expectedVariable
  | variableForFunction _ => .expectedFunction
  | noFunctionGraph _ => .missingFunctionGraph
  | signatureSize .. | signatureVariable .. => .signatureMismatch
  | missingOperation .. => .missingOperation
  | leftoverOperations .. => .unconsumedOperations
  | operand .. => .operandMismatch
  | operandCount .. => .operandCountMismatch
  | otherBuiltin .. | functionForBuiltin .. | otherFunction .. => .calleeMismatch
  | callArity .. => .callArityMismatch
  | notOneValue _ | unusedValues _ | boundCount .. => .resultCountMismatch
  | absentLiteral _ | absentZero => .missingLiteral
  | defaultNotLast | comparisonNotLast .. | notCompared _ | comparedWith .. | comparisonReads ..
  | caseCondition .. => .switchCaseMismatch
  | wrongExit .. => .unexpectedTerminator
  | noEdge .. => .brokenEdge
  | ifTarget .. | joinTarget .. | postSkipped _ | latchTarget .. | loopTarget .. =>
      .jumpTargetMismatch
  | outsideLoop .exits => .breakOutsideLoop
  | outsideLoop .continues => .continueOutsideLoop
  | returnCount .. => .returnCountMismatch
  | notAnEntry .. | phiArity .. => .phiEntryMissing
  | notAPhi .. => .invalidPhi
  | unstable .. => .loopDidNotConverge
  | unbound _ | unboundReturn _ => .unboundVariable
  | redeclared _ | signatureRedeclared _ => .redeclaredVariable
  | disagreement .. | returnedValue .. => .inconsistentBinding
  | condition .. => .conditionMismatch
  | unownedPhi .. => .unownedPhi
  | unreachable .. => .unreachableStatements

-- The text names things by the scopes and the dialect. There is none for a builtin
-- that the dialect does not have.
def message? (scopes : Scopes) (dialect : Dialect) : Mismatch → Option String
  | absentBlock b => s!"`{b}` does not exist"
  | absentPhi phi b => s!"phi `{phi}` of `{b}` is not in the value table"
  | noActiveScope => "no lexical scope is active"
  | unscopedBlock n => s!"`{n}` has no scope"
  | undeclared name scope => s!"`{name}` is not declared in `{scope}`"
  | functionForVariable name => s!"`{name}` names a function where a variable is expected"
  | variableForFunction name => s!"`{name}` names a variable where a function is expected"
  | noFunctionGraph name => s!"`{name}` has no graph"
  | signatureSize name params returns arguments graphReturns =>
      s!"`{name}` takes {params} parameter(s) and returns {returns} value(s), "
        ++ s!"its graph has {arguments} argument(s) and {graphReturns} return variable(s)"
  | signatureVariable x graphVar =>
      s!"`{scopes.variableName x}` is bound to `{graphVar}` in the graph"
  | missingOperation name b n =>
      s!"expected an operation for the call to `{name}`, `{b}` has {n} operation(s)"
  | leftoverOperations n b => s!"{n} operation(s) of `{b}` are not accounted for by the source"
  | operand i name input _ => s!"operand {i} of the call to `{name}` cannot be `{input}`"
  | operandCount name arguments inputs =>
      s!"call to `{name}` has {arguments} argument(s), the operation has {inputs} input(s)"
  | otherBuiltin b name =>
      (dialect.builtin? b).map fun found =>
        s!"operation calls builtin `{found.name}`, the source calls `{name}`"
  | functionForBuiltin f name =>
      s!"operation calls function `{scopes.functionName f}`, the source calls builtin `{name}`"
  | otherFunction f name resolved =>
      s!"operation calls `{f}`, `{name}` resolves to `{resolved}`"
  | callArity name returns outputs =>
      s!"`{name}` returns {returns} value(s), the operation has {outputs} output(s)"
  | notOneValue n => s!"expected exactly one value, found {n}"
  | unusedValues n => s!"expression statement produces {n} unused value(s)"
  | boundCount vars values => s!"{vars} variable(s) bound to {values} value(s)"
  | absentLiteral l => s!"literal {l} has no value in the graph"
  | absentZero => "literal 0 has no value in the graph"
  | defaultNotLast => "the default case must come last"
  | comparisonNotLast l b =>
      s!"expected the comparison against case {l} as the last operation of `{b}`"
  | notCompared l => s!"case {l} is not compared with the equality builtin"
  | comparedWith v l => s!"comparison is against `{v}`, not case {l}"
  | comparisonReads l v candidates =>
      s!"comparison for case {l} reads `{v}`, the switch value may hold {candidates}"
  | caseCondition l held comparison =>
      s!"case {l} branches on `{held}` instead of the comparison `{comparison}`"
  | wrongExit b demand found =>
      s!"expected `{b}` to end in a {demand.text}, found {found.kind}"
  | noEdge source target => s!"the graph has no edge from `{source}` to `{target}`"
  | ifTarget source target expected =>
      s!"body of the `if` in `{source}` jumps to `{target}`, expected `{expected}`"
  | joinTarget target expected =>
      s!"branch jumps to `{target}`, an earlier branch joins at `{expected}`"
  | postSkipped header => s!"loop body continues at `{header}`, skipping its post block"
  | latchTarget target header =>
      s!"post block jumps to `{target}`, expected the loop header `{header}`"
  | loopTarget .exits header target expected =>
      s!"loop at `{header}` leaves through `{target}`, an earlier edge goes to `{expected}`"
  | loopTarget .continues header target expected =>
      s!"loop at `{header}` continues through `{target}`, an earlier edge goes to `{expected}`"
  | outsideLoop .exits => "`break` outside of a loop"
  | outsideLoop .continues => "`continue` outside of a loop"
  | returnCount b values returns =>
      s!"return of `{b}` carries {values} value(s), the function has {returns} return variable(s)"
  | notAnEntry source target => s!"`{source}` is not an entry of `{target}`"
  | phiArity phi arguments b entries =>
      s!"phi `{phi}` has {arguments} argument(s), `{b}` has {entries} entries"
  | notAPhi phi b => s!"`{phi}` listed as a phi of `{b}` is not a phi"
  | unstable header iterations =>
      s!"bindings at `{header}` still change after {iterations} iterations"
  | unbound name => s!"`{name}` has no value on this path"
  | unboundReturn x => s!"return variable `{scopes.variableName x}` has no value"
  | redeclared name => s!"`{name}` is declared twice on this path"
  | signatureRedeclared x => s!"`{scopes.variableName x}` is declared twice"
  | disagreement join conflict =>
      s!"paths entering `{join}` disagree on `{scopes.variableName conflict.var}`"
  | returnedValue v x _ =>
      s!"`{v}` is returned for `{scopes.variableName x}`, which does not hold it"
  | condition v _ => s!"the branch condition `{v}` is not a value of the source condition"
  | unownedPhi phi b => s!"phi `{phi}` of `{b}` is not held by any variable"
  | unreachable n node => s!"{n} statement(s) of `{node}` are never reached"

-- What may be held where a value did not fit.
def notes (scopes : Scopes) : Mismatch → List String
  | operand _ _ _ candidates => [s!"the argument may hold {candidates}"]
  | condition _ candidates => [s!"the condition may hold {candidates}"]
  | returnedValue _ x candidates => [s!"`{scopes.variableName x}` may hold {candidates}"]
  | disagreement _ conflict =>
      conflict.candidates.mapIdx fun i candidates => s!"path {i} may hold {candidates}"
  | _ => []

end Mismatch

end SsaReplay.Replay
