import SsaReplay.Proofs.Congruence.Branch

namespace SsaReplay.Replay

open SsaReplay.Yul (Expr)

-- Inside a loop, the relation holds of what is done to the entry of the loop. Its header may
-- be known.
structure Looping (ctx ctx' : Context) (own : BlockId → Prop) (R : WalkRelation) : Prop extends
    Routes ctx ctx' R where
  afterInnermost {α : Type} {k k' : LoopFrame → Walk α}
    (hk : ∀ frame, own frame.header → R α (k frame) (k' frame)) :
    R α (innermost >>= k) (innermost >>= k')
  setInnermost {frame : LoopFrame} (hf : own frame.header) :
    R Unit (setInnermost frame) (setInnermost frame)
  noteEdge (way : LoopWay) (header source target : BlockId) :
    R Unit (record ctx (.loopEdge way header source target))
      (record ctx' (.loopEdge way header source target))

-- Around a loop, it holds of passes for which another one does on the inside.
structure Iterating (ctx ctx' : Context) (R : WalkRelation) (inside : BlockId → WalkRelation) :
    Prop extends Routes ctx ctx' R where
  inner (header : BlockId) : ∃ own, Looping ctx ctx' own (inside header)
  rewind (header : BlockId) (warnings : Nat) (entry : Bindings) :
    R Unit (rewind header warnings entry) (rewind header warnings entry)
  beginPass (header : BlockId) (iteration : Nat) (entry : Bindings) :
    R Unit (record ctx (.loopPass header iteration entry))
      (record ctx' (.loopPass header iteration entry))
  withLoop {header : BlockId} {act act' : Walk Unit} (ha : inside header Unit act act') :
    R _ (withLoop header act) (withLoop header act')

-- A loop statement up to its loop, in the place of which any other may stand.
def replayForWith (ctx : Context) (pre : Walk Bool) (condition : Expr)
    (loop : Option Expr → Walk Bool) : Walk Bool := do
  if ← pre then
    let source := (← get).block
    let header ← leaveByJump ctx
    let entry ← carry ctx source header
    advance ctx source header entry
    match condition with
    | .literal l =>
        let _ ← readLiteral ctx l
        if l.isZero then pure true else loop none
    | e => loop (some e)
  else
    pure false

variable {ctx ctx' : Context} {header : BlockId} {R : WalkRelation}
  {inside : BlockId → WalkRelation} {x y p q : Walk Bool}

theorem replayFor_eq (pre body post : Walk Bool) (condition : Expr) (postEmpty : Bool) :
    replayFor ctx pre condition body postEmpty post = replayForWith ctx pre condition
      fun condition? => replayLoop ctx ⟨condition?, body, postEmpty, post⟩ := by
  cases condition <;> rfl

theorem LoopFrame.header_setEdges (f : LoopFrame) (e : LoopEdges) (way : LoopWay) :
    (f.setEdges e way).header = f.header := by
  cases way <;> rfl

namespace Looping

open Closed (ite)

variable {own : BlockId → Prop} (h : Looping ctx ctx' own R)

include h

theorem recordEdge (way : LoopWay) (source target : BlockId) (b : Bindings) :
    R _ (recordEdge ctx way source target b) (recordEdge ctx' way source target b) := by
  refine h.bind (h.checkEdge _ _) fun _ => h.afterInnermost fun frame hf => ?_
  refine ite (h.rejectAt _ rfl) (h.bind (h.noteEdge _ _ _ _) fun _ => h.setInnermost ?_)
  rwa [frame.header_setEdges]

theorem jumpInLoop (way : LoopWay) : R _ (jumpInLoop ctx way) (jumpInLoop ctx' way) :=
  h.bind h.get fun _ => h.bind h.leaveByJump fun _ => h.bind (h.carry _ _) fun b =>
    h.recordEdge way _ _ b

theorem replayLoopJump (way : LoopWay) :
    R _ (replayLoopJump ctx way) (replayLoopJump ctx' way) := by
  refine h.bind h.get fun s => ite (h.rejectOperation rfl) ?_
  exact h.bind (h.jumpInLoop way) fun _ => h.pure false

theorem replayLoopCondition (condition? : Option Expr) :
    R _ (replayLoopCondition ctx condition?) (replayLoopCondition ctx' condition?) := by
  cases condition? with
  | none => exact h.pure true
  | some e =>
      refine h.bind (h.replayOne e) fun candidates? => ?_
      cases candidates? with
      | none => exact h.pure false
      | some candidates =>
          refine h.bind h.leaveByBranch fun branch => ?_
          refine h.bind (h.reconcileCondition _ _ _) fun _ => h.bind h.get fun s => ?_
          refine h.bind (h.carry _ _) fun leaving => h.bind (h.recordEdge _ _ _ _) fun _ => ?_
          exact h.bind h.get fun u => h.bind (h.advance _ _ _) fun _ => h.pure true

theorem replayPost (hp : R _ p q) :
    R _ (replayPost ctx header p) (replayPost ctx' header q) := by
  refine h.bind hp fun falls => ite (h.bind h.get fun s => ?_) (h.pure ())
  refine h.bind h.leaveByJump fun target => ite (h.rejectOperation rfl) ?_
  refine h.bind (h.checkEdge _ _) fun _ => h.bind (h.carry _ _) fun b => ?_
  exact h.afterInnermost fun frame hf => h.setInnermost hf

-- In the middle of a pass the loop forgets its continues. It is the same loop still.
theorem replayContinues (postEmpty : Bool) (hp : R _ p q) :
    R _ (replayContinues ctx header postEmpty p)
      (replayContinues ctx' header postEmpty q) := by
  refine h.afterInnermost fun frame hf => ?_
  cases frame.continues.first? with
  | none => exact h.pure ()
  | some edge =>
      obtain ⟨source, target⟩ := edge
      refine ite (ite (h.setInnermost hf) (h.rejectAt _ rfl)) ?_
      refine h.bind (h.setInnermost hf) fun _ => h.bind (h.merge _ _) fun merged => ?_
      refine h.bind (h.checkPhiOwnership _ _) fun _ => h.bind (h.advance _ _ _) fun _ => ?_
      exact h.replayPost hp

theorem replayPass (condition? : Option Expr) (postEmpty : Bool) (hx : R _ x y)
    (hp : R _ p q) : R _ (replayPass ctx header ⟨condition?, x, postEmpty, p⟩)
      (replayPass ctx' header ⟨condition?, y, postEmpty, q⟩) := by
  have continues : R _ (Replay.replayContinues ctx header postEmpty p)
      (Replay.replayContinues ctx' header postEmpty q) := h.replayContinues postEmpty hp
  refine h.bind (h.replayLoopCondition condition?) fun tested => ite ?_ (h.pure ())
  refine h.bind hx fun falls => ite ?_ continues
  exact h.bind (h.jumpInLoop .continues) fun _ => continues

end Looping

namespace Routes

open Closed (ite)

-- A constant condition is only read.
theorem replayForWith (h : Routes ctx ctx' R) (condition : Expr) {u v : Walk Bool}
    {loop loop' : Option Expr → Walk Bool} (hu : R _ u v)
    (hl : ∀ condition?, R _ (loop condition?) (loop' condition?)) :
    R _ (replayForWith ctx u condition loop) (replayForWith ctx' v condition loop') := by
  refine h.bind hu fun falls => ite (h.bind h.get fun s => ?_) (h.pure false)
  refine h.bind h.leaveByJump fun header => h.bind (h.carry _ _) fun entry => ?_
  refine h.bind (h.advance _ _ _) fun _ => ?_
  cases condition with
  | literal l => exact h.bind (h.readLiteral l) fun _ => ite (h.pure true) (hl none)
  | ident name => exact hl _
  | call name arguments => exact hl _

theorem replayFor (h : Routes ctx ctx' R) (condition : Expr) (postEmpty : Bool)
    {u v : Walk Bool} (hu : R _ u v)
    (hl : ∀ condition?, R _ (replayLoop ctx ⟨condition?, x, postEmpty, p⟩)
      (replayLoop ctx' ⟨condition?, y, postEmpty, q⟩)) :
    R _ (replayFor ctx u condition x postEmpty p)
      (replayFor ctx' v condition y postEmpty q) := by
  rw [replayFor_eq, replayFor_eq]
  exact h.replayForWith condition hu hl

end Routes

namespace Iterating

open Closed (ite)

variable (h : Iterating ctx ctx' R inside)
  (limit : ctx'.settings.maxLoopIterations = ctx.settings.maxLoopIterations)

include h limit

-- The induction is on the passes that are left.
theorem iterate (warnings : Nat) (condition? : Option Expr) (postEmpty : Bool)
    (hx : inside header _ x y) (hp : inside header _ p q)
    (remaining iteration : Nat) (entry : Bindings) :
    R _ (iterate ctx header warnings ⟨condition?, x, postEmpty, p⟩ remaining iteration entry)
      (iterate ctx' header warnings ⟨condition?, y, postEmpty, q⟩ remaining iteration
        entry) := by
  induction remaining generalizing iteration entry with
  | zero =>
      unfold Replay.iterate
      rw [limit]
      exact h.rejectAt header rfl
  | succ remaining ih =>
      refine h.bind (h.rewind _ _ _) fun _ => h.bind (h.beginPass _ _ _) fun _ => ?_
      obtain ⟨own, inner⟩ := h.inner header
      refine h.bind (h.withLoop (inner.replayPass condition? postEmpty hx hp)) fun frame => ?_
      refine h.bind (h.merge _ _) fun refined => ?_
      exact ite (h.bind (h.checkPhiOwnership _ _) fun _ => h.leaveLoop _) (ih _ _)

theorem replayLoop (condition? : Option Expr) (postEmpty : Bool)
    (hx : ∀ header, inside header _ x y) (hp : ∀ header, inside header _ p q) :
    R _ (replayLoop ctx ⟨condition?, x, postEmpty, p⟩)
      (replayLoop ctx' ⟨condition?, y, postEmpty, q⟩) := by
  unfold Replay.replayLoop
  rw [limit]
  exact h.bind h.get fun s => h.iterate limit _ condition? postEmpty (hx _) (hp _) _ _ _

theorem replayFor (condition : Expr) (postEmpty : Bool) {u v : Walk Bool} (hu : R _ u v)
    (hx : ∀ header, inside header _ x y) (hp : ∀ header, inside header _ p q) :
    R _ (replayFor ctx u condition x postEmpty p) (replayFor ctx' v condition y postEmpty q) :=
  h.toRoutes.replayFor condition postEmpty hu fun condition? =>
    h.replayLoop limit condition? postEmpty hx hp

end Iterating

end SsaReplay.Replay
