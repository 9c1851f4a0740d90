import SsaReplay.Proofs.Frame
import SsaReplay.Proofs.Monotonicity.Walk

namespace SsaReplay.Replay

open SsaReplay.Yul (Expr Literal)

-- The same join is known, with bindings below on every path to it.
structure SwitchJoin.Below (lower upper : SwitchJoin) : Prop where
  edge : upper.edge? = lower.edge?
  contributions : List.Forall₂ Bindings.Below lower.contributions upper.contributions

theorem SwitchJoin.Below.add {join upper : SwitchJoin} (h : join.Below upper)
    (edge? : Option (BlockId × BlockId)) {b B : Bindings} (hb : b.Below B) :
    SwitchJoin.Below ⟨edge?, join.contributions ++ [b]⟩ ⟨edge?, upper.contributions ++ [B]⟩ :=
  ⟨rfl, List.rel_append h.contributions (.cons hb .nil)⟩

namespace Follows

variable {ctx : Context}

theorem reconcileCondition {e : Expr} {c C : ValueSet} (hc : CandidatesBelow e c C) (v : ValueId) :
    Follows Eq (reconcileCondition ctx e c v) (reconcileCondition ctx e C v) :=
  reconciled hc v (pure rfl)

theorem replayIf (condition : Expr) {body : Walk Bool} (hb : Follows Eq body body) :
    Follows Eq (replayIf ctx condition body) (replayIf ctx condition body) := by
  refine bind (replayOne condition) ?_
  rintro _ _ (hc | _)
  · refine bind_eq leaveByBranch fun branch => ?_
    refine bind_eq (reconcileCondition hc branch.condition) fun _ => ?_
    refine bind get fun s S hs => ?_
    rw [hs.block]
    refine bind (carry s.block branch.zero) fun skipping wider hskip => ?_
    refine bind get fun u U hu => ?_
    refine bind_eq (advance s.block branch.nonZero hu.bindings) fun _ => ?_
    refine bind_eq hb fun falls => ?_
    refine ite Iff.rfl (fun _ => ?_) fun _ => ?_
    · refine bind_eq leaveByJump fun target => ?_
      refine ite Iff.rfl (fun _ => rejectOperation) fun _ => ?_
      refine bind get fun w W hw => ?_
      rw [hw.block]
      refine bind (carry w.block branch.zero) fun running above hrun => ?_
      refine bind (merge branch.zero (.cons hskip (.cons hrun .nil))) fun merged M hm => ?_
      refine bind_eq (checkPhiOwnership branch.zero hm) fun _ => ?_
      exact bind_eq (advance w.block branch.zero hm) fun _ => pure rfl
    · exact bind_eq (advance s.block branch.zero hskip) fun _ => pure rfl
  · exact pure rfl

theorem replayComparison {e : Expr} {c C : ValueSet} (hc : CandidatesBelow e c C)
    (value : Literal) :
    Follows Eq (replayComparison ctx e c value) (replayComparison ctx e C value) := by
  refine bind get fun s S hs => ?_
  rw [hs.block, hs.op]
  refine bind_eq (blockData s.block) fun data => ?_
  match data.operations.drop s.op with
  | [] => exact rejectOperation
  | _ :: _ :: _ => exact rejectOperation
  | [op] =>
      dsimp only
      rcases comparison? ctx op with _ | ⟨against, read, result⟩
      · exact rejectOperation
      · refine bind_eq (readLiteral value) fun literal => ?_
        refine ite Iff.rfl (fun _ => rejectOperation) fun _ => ?_
        exact reconciled hc read (bind_eq (consume op) fun _ => pure rfl)

theorem leaveToJoin {join upper : SwitchJoin} (hj : join.Below upper) :
    Follows Eq (leaveToJoin ctx join) (leaveToJoin ctx upper) := by
  refine bind_eq leaveByJump fun target => ?_
  rw [hj.edge]
  cases join.edge? with
  | none => exact pure rfl
  | some edge => exact ite Iff.rfl (fun _ => rejectOperation) fun _ => pure rfl

theorem replayArm {body : Walk Bool} (hb : Follows Eq body body) {join upper : SwitchJoin}
    (hj : join.Below upper) :
    Follows SwitchJoin.Below (replayArm ctx body join) (replayArm ctx body upper) := by
  refine bind_eq hb fun falls => ?_
  refine ite Iff.rfl (fun _ => ?_) fun _ => pure hj
  refine bind get fun s S hs => ?_
  rw [hs.block]
  refine bind_eq (leaveToJoin hj) fun target => ?_
  refine bind (carry s.block target) fun b B hb => ?_
  exact pure (hj.add _ hb)

theorem replayCase {e : Expr} {c C : ValueSet} (hc : CandidatesBelow e c C) (value : Literal)
    {body : Walk Bool} (hb : Follows Eq body body) {join upper : SwitchJoin}
    (hj : join.Below upper) :
    Follows SwitchJoin.Below (replayCase ctx e c value body join)
      (replayCase ctx e C value body upper) := by
  refine bind_eq (replayComparison hc value) fun result => ?_
  refine bind_eq leaveByBranch fun branch => ?_
  refine ite Iff.rfl (fun _ => rejectOperation) fun _ => ?_
  refine bind get fun s S hs => ?_
  rw [hs.block]
  refine bind (carry s.block branch.zero) fun otherwise wider hz => ?_
  refine bind get fun u U hu => ?_
  refine bind_eq (advance s.block branch.nonZero hu.bindings) fun _ => ?_
  refine bind (replayArm hb hj) fun next above hn => ?_
  exact bind_eq (advance s.block branch.zero hz) fun _ => pure hn

theorem replayCases {e : Expr} {c C : ValueSet} (hc : CandidatesBelow e c C) {arms : List Arm}
    (ha : ∀ arm ∈ arms, Follows Eq arm.2 arm.2) {join upper : SwitchJoin}
    (hj : join.Below upper) :
    Follows SwitchJoin.Below (replayCases ctx e c arms join) (replayCases ctx e C arms upper) := by
  induction arms generalizing join upper with
  | nil => exact pure hj
  | cons arm rest ih =>
      obtain ⟨value?, body⟩ := arm
      obtain ⟨hfirst, hrest⟩ := List.forall_mem_cons.mp ha
      cases value? with
      | none => exact rejectBlock
      | some value => exact bind (replayCase hc value hfirst hj) fun _ _ hn => ih hrest hn

theorem settleSwitch {join upper : SwitchJoin} (hj : join.Below upper) :
    Follows Eq (settleSwitch ctx join) (settleSwitch ctx upper) := by
  unfold Replay.settleSwitch
  rw [hj.edge]
  cases join.edge? with
  | none => exact pure rfl
  | some edge =>
      obtain ⟨source, target⟩ := edge
      refine bind (merge target hj.contributions) fun merged M hm => ?_
      refine bind_eq (checkPhiOwnership target hm) fun _ => ?_
      refine bind get fun s S hs => ?_
      rw [hs.block]
      refine ite Iff.rfl (fun _ => ?_) fun _ => ?_
      · exact bind_eq (advance source target hm) fun _ => pure rfl
      · exact bind_eq (setBindings hm) fun _ => pure rfl

theorem replayFallback {default? : Option (Walk Bool)}
    (hd : ∀ body ∈ default?, Follows Eq body body) {join upper : SwitchJoin}
    (hj : join.Below upper) :
    Follows Eq (replayFallback ctx default? join) (replayFallback ctx default? upper) := by
  unfold Replay.replayFallback
  rw [hj.edge]
  cases default? with
  | some body => exact bind (replayArm (hd body rfl) hj) fun _ _ hn => settleSwitch hn
  | none =>
      cases hedge : join.edge? with
      | none => exact pure rfl
      | some edge =>
          refine bind get fun s S hs => ?_
          rw [hs.block]
          refine ite Iff.rfl (fun _ => ?_) fun _ => ?_
          · exact settleSwitch ⟨rfl, (hj.add none hs.bindings).contributions⟩
          · exact bind (replayArm (pure rfl) hj) fun _ _ hn => settleSwitch hn

theorem replaySwitch (e : Expr) {arms : List Arm} (ha : ∀ arm ∈ arms, Follows Eq arm.2 arm.2) :
    Follows Eq (replaySwitch ctx e arms) (replaySwitch ctx e arms) := by
  refine bind (replayOne e) ?_
  rintro _ _ (hc | _)
  · rcases hsplit : splitDefault arms with ⟨cases, default?⟩
    obtain ⟨hcases, hdefault⟩ := mem_of_splitDefault hsplit
    have hall : ∀ arm ∈ cases, Follows Eq arm.2 arm.2 := fun arm h => ha arm (hcases arm h)
    have hlast : ∀ body ∈ default?, Follows Eq body body := fun body h => ha _ (hdefault body h)
    cases cases with
    | nil =>
        cases default? with
        | none => exact pure rfl
        | some body => exact hlast body rfl
    | cons first others =>
        exact bind (replayCases hc hall ⟨rfl, .nil⟩) fun _ _ hj => replayFallback hlast hj
  · exact pure rfl

end Follows

end SsaReplay.Replay
