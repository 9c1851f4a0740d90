import SsaReplay.Proofs.Composition
import SsaReplay.Proofs.Renumbering.Walk

namespace SsaReplay.Replay

open SsaReplay.Yul (Expr Literal)

def SwitchJoin.renumber (join : SwitchJoin) (π : Renumbering) : SwitchJoin :=
  ⟨join.edge?.map fun edge => (π.block edge.1, π.block edge.2),
    join.contributions.map (·.renumber π)⟩

theorem SwitchJoin.renumber_add (π : Renumbering) (edge? : Option (BlockId × BlockId))
    (contributions : List Bindings) (b : Bindings) :
    SwitchJoin.renumber ⟨edge?, contributions ++ [b]⟩ π =
      ⟨edge?.map fun edge => (π.block edge.1, π.block edge.2),
        contributions.map (·.renumber π) ++ [b.renumber π]⟩ := by
  rw [SwitchJoin.renumber, List.map_append, List.map_singleton]

abbrev ArmsInStep (ρ : Option FunctionId → Renumbering) (π : Renumbering) :
    List Arm → List Arm → Prop :=
  ArmsAlike (InStep ρ π id)

namespace InStep

variable {ρ : Option FunctionId → Renumbering} {π : Renumbering} {ctx ctx' : Context}
  (h : ContextMirrors ρ π ctx ctx')

include h

theorem reconcileCondition (e : Expr) (candidates : ValueSet) (v : ValueId) :
    InStep ρ π id (reconcileCondition ctx e candidates v)
      (reconcileCondition ctx' e (candidates.renumber π) (π.value v)) :=
  bind_eq (reconcile h e candidates v) fun _ =>
    ite Iff.rfl (pure ()) (rejectOperation h rfl)

theorem replayIf (condition : Expr) {body body' : Walk Bool} (hb : InStep ρ π id body body') :
    InStep ρ π id (replayIf ctx condition body) (replayIf ctx' condition body') := by
  refine bind (replayOne h condition) fun candidates? => ?_
  cases candidates? with
  | none => exact pure false
  | some candidates =>
      refine bind (leaveByBranch h) fun branch => ?_
      refine bind_eq (reconcileCondition h condition candidates branch.condition) fun _ => ?_
      refine bind_get fun s s' hs => ?_
      rw [hs.block]
      refine bind (carry h s.block branch.zero) fun skipping => ?_
      refine bind_get fun u u' hu => ?_
      rw [hu.bindings]
      refine bind_eq (advance h s.block branch.nonZero u.bindings) fun _ => ?_
      refine bind_eq hb fun falls => ite Iff.rfl ?_ ?_
      · refine bind (leaveByJump h) fun target => ?_
        refine ite π.block.injective.ne_iff (rejectOperation h rfl) ?_
        refine bind_get fun w w' hw => ?_
        rw [hw.block]
        refine bind (carry h w.block branch.zero) fun running => ?_
        refine bind (merge h branch.zero [skipping, running]) fun merged => ?_
        refine bind_eq (checkPhiOwnership h branch.zero merged) fun _ => ?_
        exact bind_eq (advance h w.block branch.zero merged) fun _ => pure true
      · exact bind_eq (advance h s.block branch.zero skipping) fun _ => pure true

theorem comparison?_renumber (op : Graph.Operation) :
    comparison? ctx' (op.renumber π) =
      (comparison? ctx op).map fun p => (π.value p.1, π.value p.2.1, π.value p.2.2) := by
  obtain ⟨callee, inputs, outputs⟩ := op
  unfold comparison? Graph.Operation.renumber
  rw [h.dialect]
  match callee, inputs, outputs with
  | .builtin b, [against, read], [result] =>
      change (if ctx.dialect.equality? = some b then
          some (π.value against, π.value read, π.value result) else none) =
        Option.map _ (if ctx.dialect.equality? = some b then some (against, read, result) else none)
      split <;> rfl
  | .function _ _, _, _ => rfl
  | .builtin _, [], _ => rfl
  | .builtin _, [_], _ => rfl
  | .builtin _, _ :: _ :: _ :: _, _ => rfl
  | .builtin _, [_, _], [] => rfl
  | .builtin _, [_, _], _ :: _ :: _ => rfl

theorem replayComparison (e : Expr) (candidates : ValueSet) (value : Literal) :
    InStep ρ π π.value (replayComparison ctx e candidates value)
      (replayComparison ctx' e (candidates.renumber π) value) := by
  refine bind_get fun s s' hs => ?_
  rw [hs.block, hs.op]
  refine bind_blockData h fun data data' _ _ hm => ?_
  rw [hm.operations, ← List.map_drop]
  match data.operations.drop s.op with
  | [] => exact rejectOperation h rfl
  | _ :: _ :: _ => exact rejectOperation h rfl
  | [op] =>
      simp only [List.map_cons, List.map_nil, comparison?_renumber h]
      rcases comparison? ctx op with _ | ⟨against, read, result⟩
      · exact rejectOperation h rfl
      · refine bind (readLiteral h value) fun literal => ?_
        refine ite π.value.injective.ne_iff (rejectOperation h rfl) ?_
        refine bind_eq (reconcile h e candidates read) fun fits => ?_
        refine ite Iff.rfl ?_ (rejectOperation h rfl)
        exact bind_eq (consume op _) fun _ => pure result

theorem leaveToJoin (join : SwitchJoin) :
    InStep ρ π π.block (leaveToJoin ctx join) (leaveToJoin ctx' (join.renumber π)) := by
  obtain ⟨edge?, contributions⟩ := join
  refine bind (leaveByJump h) fun target => ?_
  cases edge? with
  | none => exact pure target
  | some edge => exact ite π.block.injective.ne_iff (rejectOperation h rfl) (pure target)

theorem replayArm {body body' : Walk Bool} (hb : InStep ρ π id body body') (join : SwitchJoin) :
    InStep ρ π (·.renumber π) (replayArm ctx body join)
      (replayArm ctx' body' (join.renumber π)) := by
  refine bind_eq hb fun falls => ite Iff.rfl ?_ (pure join)
  refine bind_get fun s s' hs => ?_
  rw [hs.block]
  refine bind (leaveToJoin h join) fun target => ?_
  refine bind (carry h s.block target) fun b => ?_
  have joined := SwitchJoin.renumber_add π (some (s.block, target)) join.contributions b
  exact joined ▸ pure _

theorem replayCase (e : Expr) (candidates : ValueSet) (value : Literal) {body body' : Walk Bool}
    (hb : InStep ρ π id body body') (join : SwitchJoin) :
    InStep ρ π (·.renumber π) (replayCase ctx e candidates value body join)
      (replayCase ctx' e (candidates.renumber π) value body' (join.renumber π)) := by
  refine bind (replayComparison h e candidates value) fun result => ?_
  refine bind (leaveByBranch h) fun branch => ?_
  refine ite π.value.injective.ne_iff (rejectOperation h rfl) ?_
  refine bind_get fun s s' hs => ?_
  rw [hs.block]
  refine bind (carry h s.block branch.zero) fun otherwise => ?_
  refine bind_get fun u u' hu => ?_
  rw [hu.bindings]
  refine bind_eq (advance h s.block branch.nonZero u.bindings) fun _ => ?_
  refine bind (replayArm h hb join) fun next => ?_
  exact bind_eq (advance h s.block branch.zero otherwise) fun _ => pure next

theorem replayCases (e : Expr) (candidates : ValueSet) {arms arms' : List Arm}
    (ha : ArmsInStep ρ π arms arms') (join : SwitchJoin) :
    InStep ρ π (·.renumber π) (replayCases ctx e candidates arms join)
      (replayCases ctx' e (candidates.renumber π) arms' (join.renumber π)) := by
  induction ha generalizing join with
  | nil => exact pure join
  | @cons arm arm' _ _ first _ ih =>
      obtain ⟨value?, body⟩ := arm
      obtain ⟨value?', body'⟩ := arm'
      obtain ⟨hvalue, hb⟩ := first
      dsimp only at hvalue
      subst hvalue
      cases value?' with
      | none => exact rejectBlock h rfl
      | some value => exact bind (replayCase h e candidates value hb join) fun next => ih next

theorem settleSwitch (join : SwitchJoin) :
    InStep ρ π id (settleSwitch ctx join) (settleSwitch ctx' (join.renumber π)) := by
  obtain ⟨edge?, contributions⟩ := join
  cases edge? with
  | none => exact pure false
  | some edge =>
      obtain ⟨source, target⟩ := edge
      refine bind (merge h target contributions) fun merged => ?_
      refine bind_eq (checkPhiOwnership h target merged) fun _ => ?_
      refine bind_get fun s s' hs => ?_
      rw [hs.block]
      refine ite π.block.injective.ne_iff ?_ ?_
      · exact bind_eq (advance h source target merged) fun _ => pure true
      · exact bind_eq (setBindings merged) fun _ => pure true

theorem replayFallback {default? default?' : Option (Walk Bool)}
    (hd : Option.Rel (InStep ρ π id) default? default?') (join : SwitchJoin) :
    InStep ρ π id (replayFallback ctx default? join)
      (replayFallback ctx' default?' (join.renumber π)) := by
  have done : InStep ρ π id (Pure.pure true : Walk Bool) (Pure.pure true) := pure true
  rcases hd with hb | _
  · exact bind (replayArm h hb join) fun next => settleSwitch h next
  · obtain ⟨edge?, contributions⟩ := join
    cases edge? with
    | none => exact pure true
    | some edge =>
        obtain ⟨source, target⟩ := edge
        refine bind_get fun s s' hs => ?_
        rw [hs.block]
        refine ite π.block.injective.eq_iff ?_ ?_
        · rw [hs.bindings]
          have joined := SwitchJoin.renumber_add π (some (source, target)) contributions s.bindings
          exact joined ▸ settleSwitch h _
        · exact bind (replayArm h done _) fun next => settleSwitch h next

theorem replaySwitch (e : Expr) {arms arms' : List Arm} (ha : ArmsInStep ρ π arms arms') :
    InStep ρ π id (replaySwitch ctx e arms) (replaySwitch ctx' e arms') := by
  refine bind (replayOne h e) fun candidates? => ?_
  cases candidates? with
  | none => exact pure false
  | some candidates =>
      obtain ⟨hcases, hdefault⟩ := splitDefault_alike ha
      simp only [Option.map_some]
      generalize splitDefault arms = split at hcases hdefault ⊢
      generalize splitDefault arms' = split' at hcases hdefault ⊢
      obtain ⟨cases, default?⟩ := split
      obtain ⟨cases', default?'⟩ := split'
      cases hcases with
      | nil =>
          rcases hdefault with hb | _
          · exact hb
          · exact pure true
      | cons first others =>
          refine bind (replayCases h e candidates (.cons first others) .none) fun join => ?_
          exact replayFallback h hdefault join

end InStep

end SsaReplay.Replay
