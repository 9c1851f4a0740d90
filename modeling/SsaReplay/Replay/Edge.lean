import SsaReplay.Replay.State

namespace SsaReplay.Replay

open SsaReplay.Graph (BasicBlock Branch Cfg Exit)

def blockData (ctx : Context) (b : BlockId) : Walk BasicBlock :=
  match ctx.graph.block? b with
  | some data => pure data
  | none => reject ctx (.absentBlock b) (.graph ctx.graphRef)

-- The exit of the current block, once all its operations are accounted for.
def currentExit (ctx : Context) : Walk Exit := do
  let s ← get
  let data ← blockData ctx s.block
  if s.op < data.operations.length then
    rejectOperation ctx (.leftoverOperations (data.operations.length - s.op) s.block)
  else
    pure data.exit

-- Leaves the current block by an exit of the kind that the source asks for.
def leaveBy {α : Type} (ctx : Context) (demand : ExitDemand) (view : Exit → Option α) :
    Walk α := do
  let exit ← currentExit ctx
  let s ← get
  match view exit with
  | some a =>
      record ctx (.left s.block exit)
      pure a
  | none => rejectOperation ctx (.wrongExit s.block demand exit)

def leaveByJump (ctx : Context) : Walk BlockId :=
  leaveBy ctx .jump fun | .jump target => some target | _ => none

def leaveByBranch (ctx : Context) : Walk Branch :=
  leaveBy ctx .branch fun | .branch b => some b | _ => none

def leaveByReturn (ctx : Context) : Walk (List ValueId) :=
  leaveBy ctx .functionReturn fun | .functionReturn vs => some vs | _ => none

def leaveByMainExit (ctx : Context) : Walk Unit :=
  leaveBy ctx .mainExit fun | .mainExit => some () | _ => none

def leaveByTermination (ctx : Context) : Walk Unit :=
  leaveBy ctx .terminated fun | .terminated => some () | _ => none

-- An edge has to be recorded on both of its ends.
def checkEdge (ctx : Context) (source target : BlockId) : Walk Unit := do
  let sourceData ← blockData ctx source
  let targetData ← blockData ctx target
  if target ∈ sourceData.exit.targets ∧ source ∈ targetData.entries then
    pure ()
  else
    reject ctx (.noEdge source target) (ctx.blockAt source)

-- Follows an edge to the start of its target, where the bindings given hold.
def advance (ctx : Context) (source target : BlockId) (bindings : Bindings) : Walk Unit := do
  checkEdge ctx source target
  record ctx (.advanced source target bindings)
  modify fun s => { s with block := target, op := 0, bindings := bindings }

-- The argument that a phi of a block takes along the entry at the offset.
def phiArgument (graph : Cfg) (target : BlockId) (entries offset : Nat) (phi : ValueId) :
    Except Mismatch (ValueId × ValueId) :=
  match graph.origin? phi with
  | some (.phi _ arguments) =>
      match arguments[offset]? with
      | some argument =>
          if arguments.length = entries then .ok (argument, phi)
          else .error (.phiArity phi arguments.length target entries)
      | none => .error (.phiArity phi arguments.length target entries)
  | some _ => .error (.notAPhi phi target)
  | none => .error (.absentPhi phi target)

-- The phis of a block together with their arguments for one of its entries, as
-- pairs of argument and phi.
def phiArguments (graph : Cfg) (source target : BlockId) (data : BasicBlock) :
    Except Mismatch (List (ValueId × ValueId)) :=
  if data.phis.isEmpty then .ok []
  else
    match data.entryOffset? source with
    | none => .error (.notAnEntry source target)
    | some offset => data.phis.mapM (phiArgument graph target data.entries.length offset)

-- The phis that take a value for their argument.
def phisFedBy (pairs : List (ValueId × ValueId)) (v : ValueId) : ValueSet :=
  .ofList ((pairs.filter (fun p => p.1 = v)).map Prod.snd)

-- The current bindings as they are in the target when it is entered from the source.
def carry (ctx : Context) (source target : BlockId) : Walk Bindings := do
  let data ← blockData ctx target
  match phiArguments ctx.graph source target data with
  | .error m => reject ctx m (ctx.blockAt target)
  | .ok pairs =>
      let before := (← get).bindings
      let after := before.acrossEdge (phisFedBy pairs) data.phis
      record ctx (.carried source target before after)
      pure after

-- Merges the bindings of the paths into a join.
def merge (ctx : Context) (join : BlockId) (contributions : List Bindings) : Walk Bindings :=
  match Bindings.meet contributions with
  | .error conflict => reject ctx (.disagreement join conflict) (ctx.blockAt join)
  | .ok merged => do
      record ctx (.merged join merged)
      pure merged

-- If the settings ask for it, every phi of the join is held by some variable.
def checkPhiOwnership (ctx : Context) (join : BlockId) (bindings : Bindings) : Walk Unit := do
  if ctx.settings.checksPhiOwnership then
    let data ← blockData ctx join
    match data.phis.find? (fun phi => (bindings.holders phi).isEmpty) with
    | some phi => reject ctx (.unownedPhi phi join) (ctx.blockAt join)
    | none => pure ()
  else
    pure ()

end SsaReplay.Replay
