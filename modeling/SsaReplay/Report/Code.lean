namespace SsaReplay

-- What a diagnostic is about. The hundreds of the number group the kinds: graph
-- references, names, operations and calls, edges and exits, bindings, warnings.
inductive Code
  | invalidBlockRef
  | invalidValueRef
  | missingScope
  | unresolvedIdentifier
  | expectedVariable
  | expectedFunction
  | missingFunctionGraph
  | signatureMismatch
  | missingOperation
  | unconsumedOperations
  | operandMismatch
  | operandCountMismatch
  | calleeMismatch
  | callArityMismatch
  | resultCountMismatch
  | missingLiteral
  | switchCaseMismatch
  | unexpectedTerminator
  | brokenEdge
  | jumpTargetMismatch
  | breakOutsideLoop
  | continueOutsideLoop
  | returnCountMismatch
  | phiEntryMissing
  | invalidPhi
  | loopDidNotConverge
  | unboundVariable
  | redeclaredVariable
  | inconsistentBinding
  | conditionMismatch
  | unownedPhi
  | unreachableStatements
deriving DecidableEq

namespace Code

def number : Code → Nat
  | .invalidBlockRef => 1
  | .invalidValueRef => 2
  | .missingScope => 100
  | .unresolvedIdentifier => 101
  | .expectedVariable => 102
  | .expectedFunction => 103
  | .missingFunctionGraph => 104
  | .signatureMismatch => 105
  | .missingOperation => 200
  | .unconsumedOperations => 201
  | .operandMismatch => 202
  | .operandCountMismatch => 203
  | .calleeMismatch => 204
  | .callArityMismatch => 205
  | .resultCountMismatch => 206
  | .missingLiteral => 207
  | .switchCaseMismatch => 208
  | .unexpectedTerminator => 300
  | .brokenEdge => 301
  | .jumpTargetMismatch => 302
  | .breakOutsideLoop => 303
  | .continueOutsideLoop => 304
  | .returnCountMismatch => 305
  | .phiEntryMissing => 306
  | .invalidPhi => 307
  | .loopDidNotConverge => 308
  | .unboundVariable => 400
  | .redeclaredVariable => 401
  | .inconsistentBinding => 402
  | .conditionMismatch => 403
  | .unownedPhi => 404
  | .unreachableStatements => 500

-- The name under which a kind is written in interchange form.
def name : Code → String
  | .invalidBlockRef => "InvalidBlockRef"
  | .invalidValueRef => "InvalidValueRef"
  | .missingScope => "MissingScope"
  | .unresolvedIdentifier => "UnresolvedIdentifier"
  | .expectedVariable => "ExpectedVariable"
  | .expectedFunction => "ExpectedFunction"
  | .missingFunctionGraph => "MissingFunctionGraph"
  | .signatureMismatch => "SignatureMismatch"
  | .missingOperation => "MissingOperation"
  | .unconsumedOperations => "UnconsumedOperations"
  | .operandMismatch => "OperandMismatch"
  | .operandCountMismatch => "OperandCountMismatch"
  | .calleeMismatch => "CalleeMismatch"
  | .callArityMismatch => "CallArityMismatch"
  | .resultCountMismatch => "ResultCountMismatch"
  | .missingLiteral => "MissingLiteral"
  | .switchCaseMismatch => "SwitchCaseMismatch"
  | .unexpectedTerminator => "UnexpectedTerminator"
  | .brokenEdge => "BrokenEdge"
  | .jumpTargetMismatch => "JumpTargetMismatch"
  | .breakOutsideLoop => "BreakOutsideLoop"
  | .continueOutsideLoop => "ContinueOutsideLoop"
  | .returnCountMismatch => "ReturnCountMismatch"
  | .phiEntryMissing => "PhiEntryMissing"
  | .invalidPhi => "InvalidPhi"
  | .loopDidNotConverge => "LoopDidNotConverge"
  | .unboundVariable => "UnboundVariable"
  | .redeclaredVariable => "RedeclaredVariable"
  | .inconsistentBinding => "InconsistentBinding"
  | .conditionMismatch => "ConditionMismatch"
  | .unownedPhi => "UnownedPhi"
  | .unreachableStatements => "UnreachableStatements"

def all : List Code :=
  [.invalidBlockRef, .invalidValueRef, .missingScope, .unresolvedIdentifier,
    .expectedVariable, .expectedFunction, .missingFunctionGraph, .signatureMismatch,
    .missingOperation, .unconsumedOperations, .operandMismatch, .operandCountMismatch,
    .calleeMismatch, .callArityMismatch, .resultCountMismatch, .missingLiteral,
    .switchCaseMismatch, .unexpectedTerminator, .brokenEdge, .jumpTargetMismatch,
    .breakOutsideLoop, .continueOutsideLoop, .returnCountMismatch, .phiEntryMissing,
    .invalidPhi, .loopDidNotConverge, .unboundVariable, .redeclaredVariable,
    .inconsistentBinding, .conditionMismatch, .unownedPhi, .unreachableStatements]

def ofName? (s : String) : Option Code := all.find? (fun c => c.name = s)

-- The kind is found again under its name, and under no other.
theorem ofName?_eq_some {s : String} {c : Code} : ofName? s = some c ↔ c.name = s := by
  constructor
  · intro h
    exact of_decide_eq_true (List.find?_some (p := fun c : Code => c.name = s) h)
  · rintro rfl
    cases c <;> rfl

-- Four digits, the first ones zero where the number is short.
instance : ToString Code :=
  ⟨fun c => let digits := c.number.repr; "SSA" ++ "".pushn '0' (4 - digits.length) ++ digits⟩

end Code

end SsaReplay
