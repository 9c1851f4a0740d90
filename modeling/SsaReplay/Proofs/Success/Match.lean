import SsaReplay.Proofs.Success.Branch

namespace SsaReplay.Replay

open SsaReplay.Graph (Branch Callee Exit)
open SsaReplay.Yul (Expr Literal)

-- What a match establishes is also all that it asks for: each of the ways in which it
-- can succeed is one that does, and there is never more than one.

variable {ctx : Context} {s t : State}

theorem AtExit.unique {exit exit' : Exit} (h : AtExit ctx s exit) (h' : AtExit ctx s exit') :
    exit = exit' := by
  obtain ⟨data, hd, -, rfl⟩ := h
  obtain ⟨data', hd', -, rfl⟩ := h'
  rw [Option.some.inj (hd.symm.trans hd')]

theorem Carries.unique {g : Graph.Cfg} {source target : BlockId} {before after after' : Bindings}
    (h : Carries g source target before after) (h' : Carries g source target before after') :
    after = after' := by
  obtain ⟨data, pairs, hd, hp, rfl⟩ := h
  obtain ⟨data', pairs', hd', hp', rfl⟩ := h'
  obtain rfl := Option.some.inj (hd.symm.trans hd')
  rw [Except.ok.inj (hp.symm.trans hp')]

theorem reconciled_literal {l : Literal} {candidates : ValueSet} {v : ValueId} :
    Reconciled ctx s (.literal l) candidates v t ↔ candidates.only? = some v ∧ s = t := by
  constructor
  · intro h
    cases h with
    | result noName only => exact ⟨only, rfl⟩
  · rintro ⟨only, rfl⟩
    exact .result (by simp) only

theorem reconciled_call {name : String} {arguments : List Expr} {candidates : ValueSet}
    {v : ValueId} :
    Reconciled ctx s (.call name arguments) candidates v t ↔
      candidates.only? = some v ∧ s = t := by
  constructor
  · intro h
    cases h with
    | result noName only => exact ⟨only, rfl⟩
  · rintro ⟨only, rfl⟩
    exact .result (by simp) only

theorem reconcile_eq_ok {e : Expr} {candidates : ValueSet} {v : ValueId} :
    reconcile ctx e candidates v s = .ok true t ↔ Reconciled ctx s e candidates v t := by
  refine ⟨reconciled_of_ok, fun h => ?_⟩
  cases h with
  | @named name candidates held x v resolved bound member =>
      have hv : held.contains v = true := (ValueSet.contains_iff held v).mpr member
      simp only [reconcile, bind_eq_ok, resolveVariable_eq_ok, get_eq_ok, ite_eq_ok,
        setBindings_eq_ok, pure_eq_ok]
      exact ⟨x, s, ⟨resolved, rfl⟩, s, s, ⟨rfl, rfl⟩,
        .inl ⟨(Option.any_eq_true _ _).mpr ⟨held, bound, hv⟩, (), _, rfl, trivial, rfl⟩⟩
  | result noName only =>
      cases e with
      | ident name => exact absurd rfl (noName name)
      | literal l => exact pure_eq_ok.mpr ⟨decide_eq_true only, rfl⟩
      | call name arguments => exact pure_eq_ok.mpr ⟨decide_eq_true only, rfl⟩

theorem reconcileCondition_ok_iff {e : Expr} {candidates : ValueSet} {v : ValueId} {u : Unit} :
    reconcileCondition ctx e candidates v s = .ok u t ↔ Reconciled ctx s e candidates v t := by
  refine ⟨reconcileCondition_eq_ok, fun h => ?_⟩
  simp only [reconcileCondition, bind_eq_ok, ite_eq_ok]
  exact ⟨true, t, reconcile_eq_ok.mpr h, .inl ⟨rfl, pure_eq_ok.mpr ⟨rfl, rfl⟩⟩⟩

theorem Reconciled.unique {e : Expr} {candidates : ValueSet} {v : ValueId} {t' : State}
    (h : Reconciled ctx s e candidates v t) (h' : Reconciled ctx s e candidates v t') : t = t' :=
  (EStateM.Result.ok.inj ((reconcile_eq_ok.mpr h).symm.trans (reconcile_eq_ok.mpr h'))).2

theorem OperandsReconciled.length {operands : List (Expr × ValueSet)} {inputs : List ValueId}
    (h : OperandsReconciled ctx s operands inputs t) : inputs.length = operands.length := by
  induction h with
  | nil => rfl
  | cons first rest ih => simpa using ih

theorem operandsReconciled_nil {inputs : List ValueId} :
    OperandsReconciled ctx s [] inputs t ↔ inputs = [] ∧ s = t := by
  constructor
  · intro h
    cases h
    exact ⟨rfl, rfl⟩
  · rintro ⟨rfl, rfl⟩
    exact .nil

theorem operandsReconciled_cons {e : Expr} {candidates : ValueSet}
    {operands : List (Expr × ValueSet)} {inputs : List ValueId} :
    OperandsReconciled ctx s ((e, candidates) :: operands) inputs t ↔
      ∃ v rest u, inputs = v :: rest ∧ Reconciled ctx s e candidates v u ∧
        OperandsReconciled ctx u operands rest t := by
  constructor
  · intro h
    cases h with
    | cons first rest => exact ⟨_, _, _, rfl, first, rest⟩
  · rintro ⟨v, rest, u, rfl, first, others⟩
    exact .cons first others

theorem reconcileOperands_eq_ok {name : String} {i : Nat} {operands : List (Expr × ValueSet)}
    {inputs : List ValueId} {u : Unit} (hl : inputs.length = operands.length) :
    reconcileOperands ctx name i operands inputs s = .ok u t ↔
      OperandsReconciled ctx s operands inputs t := by
  refine ⟨operandsReconciled_of_ok hl, fun h => ?_⟩
  induction h generalizing i with
  | nil => exact pure_eq_ok.mpr ⟨rfl, rfl⟩
  | cons first rest ih =>
      simp only [reconcileOperands, bind_eq_ok, ite_eq_ok]
      exact ⟨true, _, reconcile_eq_ok.mpr first, .inl ⟨rfl, ih rest.length⟩⟩

theorem checkCallee_eq_ok {name : String} {callee : Callee} {outputs : Nat} {canContinue : Bool} :
    checkCallee ctx name callee outputs s = .ok canContinue t ↔
      Callable ctx s.scope? name callee outputs canContinue ∧ s = t := by
  refine ⟨callable_of_ok, fun ⟨h, hs⟩ => ?_⟩
  subst hs
  cases h with
  | builtin found data =>
      simp [checkCallee, Yul.Dialect.named?, found, data]
  | function noBuiltin resolved defined =>
      simp only [checkCallee, noBuiltin, bind_eq_ok, ite_eq_ok, resolveFunction_eq_ok,
        orReject_eq_ok, pure_eq_ok]
      exact .inr ⟨by simp, _, s, ⟨resolved, rfl⟩, .inr ⟨by simp, _, s, ⟨defined, rfl⟩,
        .inr ⟨by simp, trivial, rfl⟩⟩⟩

-- A name of a builtin is called as that builtin.
theorem Callable.of_builtin {scope? : Option ScopeId} {name : String} {callee : Callee}
    {outputs : Nat} {canContinue : Bool} (h : Callable ctx scope? name callee outputs canContinue)
    {b : BuiltinId} {builtin : Yul.Builtin} (found : ctx.dialect.find? name = some b)
    (data : ctx.dialect.builtin? b = some builtin) :
    callee = .builtin b ∧ outputs = builtin.returns ∧
      canContinue = builtin.effects.canContinue := by
  cases h with
  | builtin found' data' =>
      obtain rfl := Option.some.inj (found.symm.trans found')
      obtain rfl := Option.some.inj (data.symm.trans data')
      exact ⟨rfl, rfl, rfl⟩
  | function noBuiltin => exact absurd (found.symm.trans noBuiltin) (by simp)

theorem matchCall_eq_ok {name : String} {operands : List (Expr × ValueSet)}
    {results? : Option (List ValueSet)} :
    matchCall ctx name operands s = .ok results? t ↔
      CallMatched ctx name operands s results? t := by
  refine ⟨callMatched_of_ok, fun h => ?_⟩
  simp only [matchCall, bind_eq_ok, get_eq_ok, blockData_eq_ok, orReject_eq_ok, ite_eq_ok,
    rejectOperation_ne_ok, and_false, false_or, consume_eq_ok, pure_eq_ok, leaveByTermination_eq_ok]
  cases h with
  | @returning data op u block atOp inputs callee =>
      exact ⟨s, s, ⟨rfl, rfl⟩, data, s, ⟨block, rfl⟩, op, s, ⟨atOp, rfl⟩,
        not_not.mpr inputs.length, (), u, (reconcileOperands_eq_ok inputs.length).mpr inputs,
        true, u, checkCallee_eq_ok.mpr ⟨callee, rfl⟩, (), _, rfl, .inl ⟨rfl, rfl, rfl⟩⟩
  | @final data op u block atOp inputs callee ends =>
      exact ⟨s, s, ⟨rfl, rfl⟩, data, s, ⟨block, rfl⟩, op, s, ⟨atOp, rfl⟩,
        not_not.mpr inputs.length, (), u, (reconcileOperands_eq_ok inputs.length).mpr inputs,
        false, u, checkCallee_eq_ok.mpr ⟨callee, rfl⟩, (), _, rfl,
        .inr ⟨by simp, (), _, ⟨ends, rfl⟩, rfl, rfl⟩⟩

theorem replayExpr_call_eq_ok {name : String} {arguments : List Expr}
    {values? : Option (List ValueSet)} :
    replayExpr ctx (.call name arguments) s = .ok values? t ↔
      values? = none ∧ replayArguments ctx (skips ctx name) 0 arguments s = .ok none t ∨
        ∃ operands u, replayArguments ctx (skips ctx name) 0 arguments s = .ok (some operands) u ∧
          CallMatched ctx name operands u values? t := by
  refine ⟨replayExpr_call_of_ok, fun h => ?_⟩
  simp only [replayExpr, bind_eq_ok]
  rcases h with ⟨rfl, ha⟩ | ⟨operands, u, ha, hm⟩
  · exact ⟨none, t, ha, pure_eq_ok.mpr ⟨rfl, rfl⟩⟩
  · exact ⟨some operands, u, ha, matchCall_eq_ok.mpr hm⟩

-- Later arguments come first, and one that is resolved early is passed over.
theorem replayArguments_cons_eq_ok {skipped : Nat → Bool} {i : Nat} {e : Expr} {rest : List Expr}
    {operands? : Option (List (Expr × ValueSet))} :
    replayArguments ctx skipped i (e :: rest) s = .ok operands? t ↔
      operands? = none ∧ replayArguments ctx skipped (i + 1) rest s = .ok none t ∨
        ∃ operands u, replayArguments ctx skipped (i + 1) rest s = .ok (some operands) u ∧
          (skipped i = true ∧ operands? = some operands ∧ u = t ∨
            skipped i = false ∧ ∃ value?, replayOne ctx e u = .ok value? t ∧
              operands? = value?.map fun values => (e, values) :: operands) := by
  simp only [replayArguments, bind_eq_ok]
  constructor
  · rintro ⟨later?, u, ha, h⟩
    cases later? with
    | none =>
        obtain ⟨rfl, rfl⟩ := pure_eq_ok.mp h
        exact .inl ⟨rfl, ha⟩
    | some operands =>
        simp only [ite_eq_ok, pure_eq_ok, bind_eq_ok, Bool.not_eq_true] at h
        obtain ⟨hs, rfl, rfl⟩ | ⟨hs, values?, v, he, value?, w, hv, h⟩ := h
        · exact .inr ⟨operands, u, ha, .inl ⟨hs, rfl, rfl⟩⟩
        · have one : replayOne ctx e u = .ok value? w := bind_eq_ok.mpr ⟨values?, v, he, hv⟩
          cases value? with
          | none =>
              obtain ⟨rfl, rfl⟩ := pure_eq_ok.mp h
              exact .inr ⟨operands, u, ha, .inr ⟨hs, none, one, rfl⟩⟩
          | some values =>
              obtain ⟨rfl, rfl⟩ := pure_eq_ok.mp h
              exact .inr ⟨operands, u, ha, .inr ⟨hs, some values, one, rfl⟩⟩
  · rintro (⟨rfl, ha⟩ | ⟨operands, u, ha, h⟩)
    · exact ⟨none, t, ha, pure_eq_ok.mpr ⟨rfl, rfl⟩⟩
    · refine ⟨some operands, u, ha, ?_⟩
      simp only [ite_eq_ok, pure_eq_ok, bind_eq_ok, Bool.not_eq_true]
      rcases h with ⟨hs, rfl, rfl⟩ | ⟨hs, value?, one, rfl⟩
      · exact .inl ⟨hs, rfl, rfl⟩
      · obtain ⟨values?, v, he, hv⟩ := bind_eq_ok.mp one
        refine .inr ⟨hs, values?, v, he, value?, t, hv, ?_⟩
        cases value? with
        | none => exact pure_eq_ok.mpr ⟨rfl, rfl⟩
        | some values => exact pure_eq_ok.mpr ⟨rfl, rfl⟩

theorem replayComparison_eq_ok {e : Expr} {candidates : ValueSet} {value : Literal}
    {result : ValueId} :
    replayComparison ctx e candidates value s = .ok result t ↔
      Compared ctx e candidates value s result t := by
  refine ⟨compared_of_ok, fun h => ?_⟩
  cases h with
  | @mk data op against read result u block last compares literal fits =>
      simp only [replayComparison, bind_eq_ok, get_eq_ok, blockData_eq_ok]
      refine ⟨s, s, ⟨rfl, rfl⟩, data, s, ⟨block, rfl⟩, ?_⟩
      simp only [last, compares, bind_eq_ok, readLiteral_eq_ok, ite_eq_ok, consume_eq_ok,
        pure_eq_ok]
      exact ⟨against, s, ⟨literal, rfl⟩, .inr ⟨by simp, true, u, reconcile_eq_ok.mpr fits,
        .inl ⟨rfl, (), _, rfl, trivial, rfl⟩⟩⟩

theorem Compared.unique {e : Expr} {candidates : ValueSet} {value : Literal}
    {result result' : ValueId} {t' : State} (h : Compared ctx e candidates value s result t)
    (h' : Compared ctx e candidates value s result' t') : result = result' ∧ t = t' :=
  EStateM.Result.ok.inj
    ((replayComparison_eq_ok.mpr h).symm.trans (replayComparison_eq_ok.mpr h'))

theorem Tested.unique {e : Expr} {branch branch' : Branch} {skipping skipping' : Bindings}
    {t' : State} (h : Tested ctx e s branch skipping t)
    (h' : Tested ctx e s branch' skipping' t') :
    branch = branch' ∧ skipping = skipping' ∧ t = t' := by
  cases h with
  | mk value exit fits zero =>
      cases h' with
      | mk value' exit' fits' zero' =>
          obtain ⟨hc, rfl⟩ := EStateM.Result.ok.inj (value.symm.trans value')
          obtain rfl := Option.some.inj hc
          obtain rfl := Exit.branch.inj (exit.unique exit')
          obtain rfl := fits.unique fits'
          obtain rfl := zero.unique zero'
          exact ⟨rfl, rfl, rfl⟩

theorem replayIf_eq_ok {condition : Expr} {body : Walk Bool} {r : Bool} :
    replayIf ctx condition body s = .ok r t ↔ IfReplayed ctx condition body s r t := by
  refine ⟨ifReplayed_of_ok, fun h => ?_⟩
  simp only [replayIf, bind_eq_ok]
  cases h with
  | stuck value => exact ⟨none, t, value, pure_eq_ok.mpr ⟨rfl, rfl⟩⟩
  | joined tested into run exit back meets owned edge =>
      cases tested with
      | @mk candidates _ _ u v value test fits zero =>
          refine ⟨some candidates, u, value, ?_⟩
          simp only [bind_eq_ok, leaveByBranch_eq_ok, reconcileCondition_ok_iff, get_eq_ok,
            carry_eq_ok, advance_eq_ok, ite_eq_ok]
          refine ⟨_, _, ⟨test, rfl⟩, (), _, fits, _, _, ⟨rfl, rfl⟩, _, _, ⟨zero, rfl⟩, _, _,
            ⟨rfl, rfl⟩, (), _, ⟨into, rfl⟩, true, _, run, .inl ⟨rfl, ?_⟩⟩
          simp only [leaveByJump_eq_ok, merge_eq_ok, checkPhiOwnership_eq_ok, pure_eq_ok]
          exact ⟨_, _, ⟨exit, rfl⟩, .inr ⟨by simp, _, _, ⟨rfl, rfl⟩, _, _, ⟨back, rfl⟩, _, _,
            ⟨meets, rfl⟩, (), _, ⟨owned, rfl⟩, (), _, ⟨edge, rfl⟩, trivial, rfl⟩⟩
  | skipped tested into run edge =>
      cases tested with
      | @mk candidates _ _ u v value test fits zero =>
          refine ⟨some candidates, u, value, ?_⟩
          simp only [bind_eq_ok, leaveByBranch_eq_ok, reconcileCondition_ok_iff, get_eq_ok,
            carry_eq_ok, advance_eq_ok, ite_eq_ok, pure_eq_ok]
          exact ⟨_, _, ⟨test, rfl⟩, (), _, fits, _, _, ⟨rfl, rfl⟩, _, _, ⟨zero, rfl⟩, _, _,
            ⟨rfl, rfl⟩, (), _, ⟨into, rfl⟩, false, _, run, .inr ⟨by simp, (), _, ⟨edge, rfl⟩,
              trivial, rfl⟩⟩

theorem replayArm_eq_ok {body : Walk Bool} {join next : SwitchJoin} :
    replayArm ctx body join s = .ok next t ↔ ArmReplayed ctx body join s next t := by
  refine ⟨armReplayed_of_ok, fun h => ?_⟩
  simp only [replayArm, bind_eq_ok, ite_eq_ok, get_eq_ok, leaveToJoin_eq_ok, carry_eq_ok,
    pure_eq_ok]
  cases h with
  | left run => exact ⟨false, t, run, .inr ⟨by simp, rfl, rfl⟩⟩
  | joined run exit agrees carries =>
      exact ⟨true, _, run, .inl ⟨rfl, _, _, ⟨rfl, rfl⟩, _, _, ⟨exit, agrees, rfl⟩, _, _,
        ⟨carries, rfl⟩, rfl, rfl⟩⟩

theorem replayCase_eq_ok {e : Expr} {candidates : ValueSet} {value : Literal} {body : Walk Bool}
    {join next : SwitchJoin} :
    replayCase ctx e candidates value body join s = .ok next t ↔
      CaseReplayed ctx e candidates value body join s next t := by
  refine ⟨caseReplayed_of_ok, fun h => ?_⟩
  simp only [replayCase, bind_eq_ok, replayComparison_eq_ok, leaveByBranch_eq_ok, ite_eq_ok,
    get_eq_ok, carry_eq_ok, advance_eq_ok, pure_eq_ok, replayArm_eq_ok]
  cases h with
  | mk compared exit zero into arm edge =>
      exact ⟨_, _, compared, _, _, ⟨exit, rfl⟩, .inr ⟨by simp, _, _, ⟨rfl, rfl⟩, _, _,
        ⟨zero, rfl⟩, _, _, ⟨rfl, rfl⟩, (), _, ⟨into, rfl⟩, _, _, arm, (), _, ⟨edge, rfl⟩, rfl, rfl⟩⟩

theorem settleSwitch_eq_ok {join : SwitchJoin} {r : Bool} :
    settleSwitch ctx join s = .ok r t ↔ Settled ctx join s r t := by
  refine ⟨settled_of_ok, fun h => ?_⟩
  unfold settleSwitch
  cases h with
  | nowhere noEdge => simp only [noEdge, pure_eq_ok, and_self]
  | advanced found meets owned elsewhere edge =>
      simp only [found, bind_eq_ok, merge_eq_ok, checkPhiOwnership_eq_ok, get_eq_ok, ite_eq_ok,
        advance_eq_ok, pure_eq_ok]
      exact ⟨_, _, ⟨meets, rfl⟩, (), _, ⟨owned, rfl⟩, _, _, ⟨rfl, rfl⟩,
        .inl ⟨elsewhere, (), _, ⟨edge, rfl⟩, trivial, rfl⟩⟩
  | there found meets owned here =>
      simp only [found, bind_eq_ok, merge_eq_ok, checkPhiOwnership_eq_ok, get_eq_ok, ite_eq_ok,
        setBindings_eq_ok, pure_eq_ok]
      exact ⟨_, _, ⟨meets, rfl⟩, (), _, ⟨owned, rfl⟩, _, _, ⟨rfl, rfl⟩,
        .inr ⟨not_not.mpr here, (), _, rfl, trivial, rfl⟩⟩

theorem replayFallback_none_eq_ok {join : SwitchJoin} {r : Bool} :
    replayFallback ctx none join s = .ok r t ↔ FallbackReplayed ctx none join s r t := by
  refine ⟨fallbackReplayed_of_ok, fun h => ?_⟩
  cases h with
  | unjoined noEdge => simp only [replayFallback, noEdge, pure_eq_ok, and_self]
  | @direct _ edge _ _ _ found here settled =>
      simp only [replayFallback, found, bind_eq_ok, get_eq_ok, ite_eq_ok, settleSwitch_eq_ok]
      exact ⟨s, s, ⟨rfl, rfl⟩, .inl ⟨here, found ▸ settled⟩⟩
  | @through _ next edge _ u _ _ found elsewhere arm settled =>
      simp only [replayFallback, found, bind_eq_ok, get_eq_ok, ite_eq_ok, settleSwitch_eq_ok,
        replayArm_eq_ok]
      exact ⟨s, s, ⟨rfl, rfl⟩, .inr ⟨elsewhere, next, u, arm, settled⟩⟩

end SsaReplay.Replay
