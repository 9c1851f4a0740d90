import SsaReplay.Replay.Branch

namespace SsaReplay.Replay

open SsaReplay.Yul (Expr)

def innermost : Walk LoopFrame := do
  match (← get).loops with
  | frame :: _ => pure frame
  | [] => throw .noOpenLoop

def setInnermost (frame : LoopFrame) : Walk Unit := do
  match (← get).loops with
  | _ :: outer => modify fun s => { s with loops := frame :: outer }
  | [] => throw .noOpenLoop

-- Runs with a new frame on top of the loops, and takes it off again, whatever the run
-- comes to.
def withLoop (header : BlockId) (act : Walk Unit) : Walk LoopFrame := do
  modify fun s => { s with loops := .start header :: s.loops }
  closing (fun s => { s with loops := s.loops.tail }) do
    act
    innermost

-- Notes an edge from the inside of the innermost loop. All edges of one way have to
-- go to the same target.
def recordEdge (ctx : Context) (way : LoopWay) (source target : BlockId) (bindings : Bindings) :
    Walk Unit := do
  checkEdge ctx source target
  let frame ← innermost
  let edges := frame.edges way
  let first := edges.first?.getD (source, target)
  if first.2 ≠ target then
    reject ctx (.loopTarget way frame.header target first.2) (ctx.blockAt source)
  else
    record ctx (.loopEdge way frame.header source target)
    setInnermost (frame.setEdges ⟨some first, edges.bindings ++ [bindings]⟩ way)

-- Leaves the current block by a jump that is an edge of the innermost loop.
def jumpInLoop (ctx : Context) (way : LoopWay) : Walk Unit := do
  let source := (← get).block
  let target ← leaveByJump ctx
  let bindings ← carry ctx source target
  recordEdge ctx way source target bindings

-- A break or continue statement.
def replayLoopJump (ctx : Context) (way : LoopWay) : Walk Bool := do
  if (← get).loops.isEmpty then
    rejectOperation ctx (.outsideLoop way)
  else
    jumpInLoop ctx way
    pure false

-- The condition that is tested on every pass, if there is one. Whether the body is
-- reached.
def replayLoopCondition (ctx : Context) (condition? : Option Expr) : Walk Bool := do
  match condition? with
  | none => pure true
  | some e =>
      match ← replayOne ctx e with
      | none => pure false
      | some candidates =>
          let branch ← leaveByBranch ctx
          reconcileCondition ctx e candidates branch.condition
          let source := (← get).block
          let leaving ← carry ctx source branch.zero
          recordEdge ctx .exits source branch.zero leaving
          advance ctx source branch.nonZero (← get).bindings
          pure true

-- A post block in a block of its own, which has to jump back to the header.
def replayPost (ctx : Context) (header : BlockId) (post : Walk Bool) : Walk Unit := do
  if ← post then
    let latch := (← get).block
    let target ← leaveByJump ctx
    if target ≠ header then
      rejectOperation ctx (.latchTarget target header)
    else
      checkEdge ctx latch header
      let bindings ← carry ctx latch header
      let frame ← innermost
      setInnermost { frame with backEdges := frame.backEdges ++ [bindings] }
  else
    pure ()

-- Where the body continues, if anything does: in the post block, or directly at the
-- header when the post block is empty.
def replayContinues (ctx : Context) (header : BlockId) (postEmpty : Bool) (post : Walk Bool) :
    Walk Unit := do
  let frame ← innermost
  match frame.continues.first? with
  | none => pure ()
  | some (source, target) =>
      let bindings := frame.continues.bindings
      let rest := { frame with continues := { frame.continues with bindings := [] } }
      if target = header then
        if postEmpty then
          setInnermost { rest with backEdges := bindings }
        else
          reject ctx (.postSkipped header) (ctx.blockAt source)
      else
        setInnermost rest
        let merged ← merge ctx target bindings
        checkPhiOwnership ctx target merged
        advance ctx source target merged
        replayPost ctx header post

-- The parts of a loop behind its header.
structure LoopParts where
  condition? : Option Expr
  body : Walk Bool
  postEmpty : Bool
  post : Walk Bool

-- One pass over condition, body and post block.
def replayPass (ctx : Context) (header : BlockId) (parts : LoopParts) : Walk Unit := do
  if ← replayLoopCondition ctx parts.condition? then
    if ← parts.body then
      jumpInLoop ctx .continues
    replayContinues ctx header parts.postEmpty parts.post
  else
    pure ()

-- Continues where the loop is left to. A loop that nothing leaves never falls through.
def leaveLoop (ctx : Context) (exits : LoopEdges) : Walk Bool := do
  match exits.first? with
  | none => pure false
  | some (source, target) =>
      let merged ← merge ctx target exits.bindings
      checkPhiOwnership ctx target merged
      advance ctx source target merged
      pure true

-- Goes back to the header for another pass. Warnings of earlier passes are dropped,
-- since the pass makes them again.
def rewind (header : BlockId) (warnings : Nat) (entry : Bindings) : Walk Unit :=
  modify fun s =>
    { s with block := header, op := 0, bindings := entry, warnings := s.warnings.take warnings }

-- Repeats the pass until the bindings at the header are stable under the back edges,
-- at most the remaining number of times.
def iterate (ctx : Context) (header : BlockId) (warnings : Nat) (parts : LoopParts) :
    Nat → Nat → Bindings → Walk Bool
  | 0, _, _ =>
      reject ctx (.unstable header ctx.settings.maxLoopIterations) (ctx.blockAt header)
  | remaining + 1, iteration, entry => do
      rewind header warnings entry
      record ctx (.loopPass header iteration entry)
      let frame ← withLoop header (replayPass ctx header parts)
      let refined ← merge ctx header (entry :: frame.backEdges)
      if refined = entry then
        checkPhiOwnership ctx header entry
        leaveLoop ctx frame.exits
      else
        iterate ctx header warnings parts remaining (iteration + 1) refined

-- Replays a loop from its header on.
def replayLoop (ctx : Context) (parts : LoopParts) : Walk Bool := do
  let s ← get
  iterate ctx s.block s.warnings.length parts ctx.settings.maxLoopIterations 0 s.bindings

-- A constant condition is not tested in the graph. When it is zero, the loop ends at
-- its header.
def replayFor (ctx : Context) (pre : Walk Bool) (condition : Expr) (body : Walk Bool)
    (postEmpty : Bool) (post : Walk Bool) : Walk Bool := do
  if ← pre then
    let source := (← get).block
    let header ← leaveByJump ctx
    let entry ← carry ctx source header
    advance ctx source header entry
    match condition with
    | .literal l =>
        let _ ← readLiteral ctx l
        if l.isZero then pure true else replayLoop ctx ⟨none, body, postEmpty, post⟩
    | e => replayLoop ctx ⟨some e, body, postEmpty, post⟩
  else
    pure false

end SsaReplay.Replay
