import SsaReplay.Replay.Expr

namespace SsaReplay.Replay

open SsaReplay.Graph (Operation)
open SsaReplay.Yul (Expr Literal)

def reconcileCondition (ctx : Context) (e : Expr) (candidates : ValueSet) (v : ValueId) :
    Walk Unit := do
  if ← reconcile ctx e candidates v then pure ()
  else rejectOperation ctx (.condition v candidates)

-- The body stands in the non-zero target and both ways meet in the zero target.
def replayIf (ctx : Context) (condition : Expr) (body : Walk Bool) : Walk Bool := do
  match ← replayOne ctx condition with
  | none => pure false
  | some candidates =>
      let branch ← leaveByBranch ctx
      reconcileCondition ctx condition candidates branch.condition
      let source := (← get).block
      let skipping ← carry ctx source branch.zero
      advance ctx source branch.nonZero (← get).bindings
      if ← body then
        let target ← leaveByJump ctx
        if target ≠ branch.zero then
          rejectOperation ctx (.ifTarget source target branch.zero)
        else
          let last := (← get).block
          let running ← carry ctx last branch.zero
          let merged ← merge ctx branch.zero [skipping, running]
          checkPhiOwnership ctx branch.zero merged
          advance ctx last branch.zero merged
          pure true
      else
        advance ctx source branch.zero skipping
        pure true

-- A case of a switch and how its body is replayed; the default has no value.
abbrev Arm := Option Literal × Walk Bool

-- What the arms replayed so far tell of the join after a switch.
structure SwitchJoin where
  -- The last edge found into the join.
  edge? : Option (BlockId × BlockId)
  contributions : List Bindings

namespace SwitchJoin

def none : SwitchJoin := ⟨Option.none, []⟩

end SwitchJoin

-- The inputs and the output of an operation that compares two values.
def comparison? (ctx : Context) (op : Operation) : Option (ValueId × ValueId × ValueId) :=
  match op.callee, op.inputs, op.outputs with
  | .builtin b, [against, read], [result] =>
      if ctx.dialect.equality? = some b then some (against, read, result) else none
  | _, _, _ => none

-- Consumes the comparison of the switch value with a case value, which has to be the
-- last operation of the block, and gives its output.
def replayComparison (ctx : Context) (e : Expr) (candidates : ValueSet) (value : Literal) :
    Walk ValueId := do
  let s ← get
  let data ← blockData ctx s.block
  match data.operations.drop s.op with
  | [op] =>
      match comparison? ctx op with
      | none => rejectOperation ctx (.notCompared value)
      | some (against, read, result) =>
          let literal ← readLiteral ctx value
          if against ≠ literal then
            rejectOperation ctx (.comparedWith against value)
          else if ← reconcile ctx e candidates read then
            consume ctx op
            pure result
          else
            rejectOperation ctx (.comparisonReads value read candidates)
  | _ => rejectOperation ctx (.comparisonNotLast value s.block)

-- The target of the jump from an arm to the join, which earlier arms may have fixed.
def leaveToJoin (ctx : Context) (join : SwitchJoin) : Walk BlockId := do
  let target ← leaveByJump ctx
  match join.edge? with
  | some (_, expected) =>
      if expected ≠ target then rejectOperation ctx (.joinTarget target expected) else pure target
  | none => pure target

-- Replays an arm and, if control falls through it, follows it to the join.
def replayArm (ctx : Context) (body : Walk Bool) (join : SwitchJoin) : Walk SwitchJoin := do
  if ← body then
    let last := (← get).block
    let target ← leaveToJoin ctx join
    let bindings ← carry ctx last target
    pure ⟨some (last, target), join.contributions ++ [bindings]⟩
  else
    pure join

-- A case is a comparison and a branch on its outcome. The arm stands in the non-zero
-- target, what remains of the switch in the zero target.
def replayCase (ctx : Context) (e : Expr) (candidates : ValueSet) (value : Literal)
    (body : Walk Bool) (join : SwitchJoin) : Walk SwitchJoin := do
  let result ← replayComparison ctx e candidates value
  let branch ← leaveByBranch ctx
  if branch.condition ≠ result then
    rejectOperation ctx (.caseCondition value branch.condition result)
  else
    let source := (← get).block
    let otherwise ← carry ctx source branch.zero
    advance ctx source branch.nonZero (← get).bindings
    let join ← replayArm ctx body join
    advance ctx source branch.zero otherwise
    pure join

def replayCases (ctx : Context) (e : Expr) (candidates : ValueSet) :
    List Arm → SwitchJoin → Walk SwitchJoin
  | [], join => pure join
  | (none, _) :: _, _ => rejectBlock ctx .defaultNotLast
  | (some value, body) :: rest, join => do
      let join ← replayCase ctx e candidates value body join
      replayCases ctx e candidates rest join

-- Continues at the join, unless no arm gets there.
def settleSwitch (ctx : Context) (join : SwitchJoin) : Walk Bool := do
  match join.edge? with
  | none => pure false
  | some (source, target) =>
      let merged ← merge ctx target join.contributions
      checkPhiOwnership ctx target merged
      if (← get).block ≠ target then
        advance ctx source target merged
      else
        setBindings merged
      pure true

-- What follows the last failing comparison. Without a default it may be the join
-- itself, or a block that only jumps there.
def replayFallback (ctx : Context) (default? : Option (Walk Bool)) (join : SwitchJoin) :
    Walk Bool := do
  match default?, join.edge? with
  | some body, _ => settleSwitch ctx (← replayArm ctx body join)
  | none, none => pure true
  | none, some (_, target) =>
      let s ← get
      if s.block = target then
        settleSwitch ctx { join with contributions := join.contributions ++ [s.bindings] }
      else
        settleSwitch ctx (← replayArm ctx (pure true) join)

-- The default arm counts as such when it comes last.
def splitDefault (arms : List Arm) : List Arm × Option (Walk Bool) :=
  match arms.getLast? with
  | some (none, body) => (arms.dropLast, some body)
  | _ => (arms, none)

def replaySwitch (ctx : Context) (e : Expr) (arms : List Arm) : Walk Bool := do
  match ← replayOne ctx e with
  | none => pure false
  | some candidates =>
      match splitDefault arms with
      | ([], none) => pure true
      | ([], some body) => body
      | (cases, default?) =>
          let join ← replayCases ctx e candidates cases .none
          replayFallback ctx default? join

end SsaReplay.Replay
