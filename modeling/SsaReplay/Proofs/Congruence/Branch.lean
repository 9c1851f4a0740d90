import SsaReplay.Proofs.Congruence.Walk

namespace SsaReplay.Replay

open SsaReplay.Graph (Exit Operation)
open SsaReplay.Yul (Expr Literal)

-- The relation also holds of the ways from one block to the next.
structure Routes (ctx ctx' : Context) (R : WalkRelation) : Prop extends
    Congruence ctx ctx' R where
  rejectAt {α : Type} {m : Mismatch} (b : BlockId) (hm : m.ordinary = true) :
    R α (reject ctx m (ctx.blockAt b)) (reject ctx' m (ctx'.blockAt b))
  leaveByJump : R _ (leaveByJump ctx) (leaveByJump ctx')
  leaveByBranch : R _ (leaveByBranch ctx) (leaveByBranch ctx')
  checkEdge (source target : BlockId) :
    R _ (checkEdge ctx source target) (checkEdge ctx' source target)
  advance (source target : BlockId) (b : Bindings) :
    R _ (advance ctx source target b) (advance ctx' source target b)
  carry (source target : BlockId) : R _ (carry ctx source target) (carry ctx' source target)
  merge (join : BlockId) (contributions : List Bindings) :
    R _ (merge ctx join contributions) (merge ctx' join contributions)
  checkPhiOwnership (join : BlockId) (b : Bindings) :
    R _ (checkPhiOwnership ctx join b) (checkPhiOwnership ctx' join b)
  replayComparison (e : Expr) (candidates : ValueSet) (value : Literal) :
    R _ (replayComparison ctx e candidates value) (replayComparison ctx' e candidates value)

-- A relation that takes no notice of the position and the bindings.
structure Unmoved (ctx : Context) (R : WalkRelation) : Prop where
  pure {α : Type} (a : α) : R α (pure a) (pure a)
  bind {α β : Type} {x x' : Walk α} {f f' : α → Walk β} (hx : R α x x')
    (hf : ∀ a, R β (f a) (f' a)) : R β (x >>= f) (x' >>= f')
  get : R State get get
  move {f : State → State} (scope : ∀ s, (f s).scope? = s.scope?)
    (loops : ∀ s, (f s).loops = s.loops) (warnings : ∀ s, (f s).warnings = s.warnings)
    (history : ∀ s, (f s).history = s.history) : R Unit (modify f) (modify f)
  record {e : Event} (he : e.ordinary = true) : R Unit (record ctx e) (record ctx e)
  reject {α : Type} {m : Mismatch} {l : Location} (hm : m.code ≠ .missingScope) :
    R α (reject ctx m l) (reject ctx m l)

variable {ctx ctx' : Context} {R : WalkRelation} {α : Type}

namespace Unmoved

open Closed (ite)

-- Several relations at once.
theorem all {ι : Type} {R : ι → WalkRelation} (h : ∀ i, Unmoved ctx (R i)) :
    Unmoved ctx fun α x x' => ∀ i, R i α x x' where
  pure a i := (h i).pure a
  bind hx hf i := (h i).bind (hx i) fun a => hf a i
  get i := (h i).get
  move scope loops warnings history i := (h i).move scope loops warnings history
  record he i := (h i).record he
  reject hm i := (h i).reject hm

variable (h : Unmoved ctx R)

include h

theorem rejectOperation {m : Mismatch} (hm : m.code ≠ .missingScope) :
    R α (rejectOperation ctx m) (rejectOperation ctx m) :=
  h.bind h.get fun _ => h.reject hm

theorem blockData (b : BlockId) : R _ (blockData ctx b) (blockData ctx b) := by
  unfold Replay.blockData
  cases ctx.graph.block? b with
  | none => exact h.reject nofun
  | some data => exact h.pure data

theorem currentExit : R _ (currentExit ctx) (currentExit ctx) :=
  h.bind h.get fun _ => h.bind (h.blockData _) fun _ => ite (h.rejectOperation nofun) (h.pure _)

-- Only some exits are in order everywhere.
theorem leaveBy {demand : ExitDemand} {view : Exit → Option α}
    (told : ∀ b exit a, view exit = some a →
      R Unit (Replay.record ctx (.left b exit)) (Replay.record ctx (.left b exit))) :
    R α (leaveBy ctx demand view) (leaveBy ctx demand view) := by
  refine h.bind h.currentExit fun exit => h.bind h.get fun s => ?_
  cases hv : view exit with
  | none => exact h.rejectOperation nofun
  | some a => exact h.bind (told s.block exit a hv) fun _ => h.pure a

theorem leaveByJump : R _ (leaveByJump ctx) (leaveByJump ctx) :=
  h.leaveBy fun b exit a hv => h.record (by cases exit <;> first | rfl | exact absurd hv nofun)

theorem leaveByBranch : R _ (leaveByBranch ctx) (leaveByBranch ctx) :=
  h.leaveBy fun b exit a hv => h.record (by cases exit <;> first | rfl | exact absurd hv nofun)

theorem leaveByTermination : R _ (leaveByTermination ctx) (leaveByTermination ctx) :=
  h.leaveBy fun b exit a hv => h.record (by cases exit <;> first | rfl | exact absurd hv nofun)

theorem checkEdge (source target : BlockId) :
    R _ (checkEdge ctx source target) (checkEdge ctx source target) :=
  h.bind (h.blockData _) fun _ => h.bind (h.blockData _) fun _ =>
    ite (h.pure ()) (h.reject nofun)

theorem advance (source target : BlockId) (b : Bindings) :
    R _ (advance ctx source target b) (advance ctx source target b) :=
  h.bind (h.checkEdge _ _) fun _ => h.bind (h.record rfl) fun _ =>
    h.move (fun _ => rfl) (fun _ => rfl) (fun _ => rfl) fun _ => rfl

theorem carry (source target : BlockId) :
    R _ (carry ctx source target) (carry ctx source target) := by
  refine h.bind (h.blockData _) fun data => ?_
  cases hp : phiArguments ctx.graph source target data with
  | error m => exact h.reject (Mismatch.code_ne_of_ordinary (ordinary_of_phiArguments hp))
  | ok pairs => exact h.bind h.get fun _ => h.bind (h.record rfl) fun _ => h.pure _

theorem merge (join : BlockId) (contributions : List Bindings) :
    R _ (merge ctx join contributions) (merge ctx join contributions) := by
  unfold Replay.merge
  cases Bindings.meet contributions with
  | error conflict => exact h.reject nofun
  | ok merged => exact h.bind (h.record rfl) fun _ => h.pure merged

theorem checkPhiOwnership (join : BlockId) (b : Bindings) :
    R _ (checkPhiOwnership ctx join b) (checkPhiOwnership ctx join b) := by
  refine ite (h.bind (h.blockData _) fun data => ?_) (h.pure ())
  cases data.phis.find? (fun phi => (b.holders phi).isEmpty) with
  | none => exact h.pure ()
  | some phi => exact h.reject nofun

theorem consume (op : Operation) : R _ (consume ctx op) (consume ctx op) :=
  h.bind h.get fun _ => h.bind (h.record rfl) fun _ =>
    h.move (fun _ => rfl) (fun _ => rfl) (fun _ => rfl) fun _ => rfl

variable (resolve : ∀ name, R _ (resolve ctx name) (resolve ctx name))

include resolve

-- That a scope is missing may be out of the question, so names are looked up as a whole.
theorem closed : Closed ctx ctx R where
  same := rfl
  pure := h.pure
  bind := h.bind
  get := h.get
  setBindings _ := h.move (fun _ => rfl) (fun _ => rfl) (fun _ => rfl) fun _ => rfl
  rejectOperation hm := h.rejectOperation (Mismatch.code_ne_of_ordinary hm)
  rejectBlock hm := h.bind h.get fun _ => h.reject (Mismatch.code_ne_of_ordinary hm)
  rejectGraph _ hm := h.reject (Mismatch.code_ne_of_ordinary hm)
  resolve := resolve

theorem routes : Routes ctx ctx R where
  toClosed := h.closed resolve
  matchCall := (h.closed resolve).matchCall h.blockData (fun _ _ => h.rejectOperation nofun)
    h.consume h.leaveByTermination
  rejectAt _ hm := h.reject (Mismatch.code_ne_of_ordinary hm)
  leaveByJump := h.leaveByJump
  leaveByBranch := h.leaveByBranch
  checkEdge := h.checkEdge
  advance := h.advance
  carry := h.carry
  merge := h.merge
  checkPhiOwnership := h.checkPhiOwnership
  replayComparison := (h.closed resolve).replayComparison h.blockData h.consume

end Unmoved

namespace Routes

open Closed (ite)

variable (h : Routes ctx ctx' R) {x y : Walk Bool}

include h

theorem replayIf (condition : Expr) (hx : R _ x y) :
    R _ (replayIf ctx condition x) (replayIf ctx' condition y) := by
  refine h.bind (h.replayOne condition) fun values? => ?_
  cases values? with
  | none => exact h.pure false
  | some candidates =>
      refine h.bind h.leaveByBranch fun branch => ?_
      refine h.bind (h.reconcileCondition _ _ _) fun _ => h.bind h.get fun s => ?_
      refine h.bind (h.carry _ _) fun skipping => h.bind h.get fun u => ?_
      refine h.bind (h.advance _ _ _) fun _ => h.bind hx fun falls => ite ?_ ?_
      · refine h.bind h.leaveByJump fun target => ite (h.rejectOperation rfl) ?_
        refine h.bind h.get fun w => h.bind (h.carry _ _) fun running => ?_
        refine h.bind (h.merge _ _) fun merged => h.bind (h.checkPhiOwnership _ _) fun _ => ?_
        exact h.bind (h.advance _ _ _) fun _ => h.pure true
      · exact h.bind (h.advance _ _ _) fun _ => h.pure true

theorem replayArm (join : SwitchJoin) (hx : R _ x y) :
    R _ (replayArm ctx x join) (replayArm ctx' y join) := by
  refine h.bind hx fun falls => ite (h.bind h.get fun s => ?_) (h.pure join)
  exact h.bind (h.leaveToJoin h.leaveByJump join) fun target =>
    h.bind (h.carry _ _) fun b => h.pure _

theorem replayCase (e : Expr) (candidates : ValueSet) (value : Literal) (join : SwitchJoin)
    (hx : R _ x y) : R _ (replayCase ctx e candidates value x join)
      (replayCase ctx' e candidates value y join) := by
  refine h.bind (h.replayComparison e candidates value) fun result => ?_
  refine h.bind h.leaveByBranch fun branch => ite (h.rejectOperation rfl) ?_
  refine h.bind h.get fun s => h.bind (h.carry _ _) fun otherwise => ?_
  refine h.bind h.get fun u => h.bind (h.advance _ _ _) fun _ => ?_
  exact h.bind (h.replayArm join hx) fun next => h.bind (h.advance _ _ _) fun _ => h.pure next

theorem replayCases (e : Expr) (candidates : ValueSet) {arms arms' : List Arm}
    (ha : ArmsAlike (R Bool) arms arms') (join : SwitchJoin) :
    R _ (replayCases ctx e candidates arms join) (replayCases ctx' e candidates arms' join) := by
  induction ha generalizing join with
  | nil => exact h.pure join
  | @cons arm arm' rest rest' first others ih =>
      obtain ⟨value?, x⟩ := arm
      obtain ⟨value?', y⟩ := arm'
      obtain ⟨hvalue, hx⟩ := first
      dsimp only at hvalue
      subst hvalue
      cases value?' with
      | none => exact h.rejectBlock rfl
      | some value => exact h.bind (h.replayCase e candidates value join hx) ih

theorem settleSwitch (join : SwitchJoin) :
    R _ (settleSwitch ctx join) (settleSwitch ctx' join) := by
  unfold Replay.settleSwitch
  cases join.edge? with
  | none => exact h.pure false
  | some edge =>
      refine h.bind (h.merge _ _) fun merged => h.bind (h.checkPhiOwnership _ _) fun _ => ?_
      refine h.bind h.get fun s => ite (h.bind (h.advance _ _ _) fun _ => h.pure true) ?_
      exact h.bind (h.setBindings merged) fun _ => h.pure true

theorem replayFallback {default? default?' : Option (Walk Bool)}
    (hd : Option.Rel (R Bool) default? default?') (join : SwitchJoin) :
    R _ (replayFallback ctx default? join) (replayFallback ctx' default?' join) := by
  unfold Replay.replayFallback
  rcases hd with hx | _
  · exact h.bind (h.replayArm join hx) h.settleSwitch
  · cases join.edge? with
    | none => exact h.pure true
    | some edge =>
        refine h.bind h.get fun s => ite (h.settleSwitch _) ?_
        exact h.bind (h.replayArm _ (h.pure true)) h.settleSwitch

theorem replaySwitch (e : Expr) {arms arms' : List Arm} (ha : ArmsAlike (R Bool) arms arms') :
    R _ (replaySwitch ctx e arms) (replaySwitch ctx' e arms') := by
  refine h.bind (h.replayOne e) fun values? => ?_
  cases values? with
  | none => exact h.pure false
  | some candidates =>
      obtain ⟨hcases, hdefault⟩ := splitDefault_alike ha
      generalize splitDefault arms = split at hcases hdefault ⊢
      generalize splitDefault arms' = split' at hcases hdefault ⊢
      obtain ⟨cases, default?⟩ := split
      obtain ⟨cases', default?'⟩ := split'
      cases hcases with
      | nil =>
          rcases hdefault with hx | _
          · exact hx
          · exact h.pure true
      | cons first others =>
          refine h.bind (h.replayCases e candidates (.cons first others) .none) fun join => ?_
          exact h.replayFallback hdefault join

theorem leaveLoop (exits : LoopEdges) : R _ (leaveLoop ctx exits) (leaveLoop ctx' exits) := by
  unfold Replay.leaveLoop
  cases exits.first? with
  | none => exact h.pure false
  | some edge =>
      refine h.bind (h.merge _ _) fun merged => h.bind (h.checkPhiOwnership _ _) fun _ => ?_
      exact h.bind (h.advance _ _ _) fun _ => h.pure true

end Routes

end SsaReplay.Replay
