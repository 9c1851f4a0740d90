import SsaReplay.Proofs.Warnings.Account

namespace SsaReplay.Replay

open SsaReplay.Graph (Cfg)
open SsaReplay.Yul (Block Case Definition Expr Literal Stmt blockIds)
open Quiet (looping)

variable {subject : Subject} {settings : Settings} {ctx : Context} {ids : List NodeId}
  {s t u v w : State}

namespace Adds

section Definitions

theorem apart {graph : Cfg} {act : Walk Unit}
    (h : Adds subject settings ids act (s.apartOn graph)) :
    Adds subject settings ids (apart graph act) s := by
  have same : (ending (Replay.apart graph act) s).warnings =
      (ending act (s.apartOn graph)).warnings := by
    unfold ending Replay.apart State.apartOn
    cases act { State.start graph with warnings := s.warnings, history := s.history } <;> rfl
  rw [Adds, same]
  exact h

theorem replayFunction {d : Definition} {body : Walk Bool}
    (hb : ∀ bound all,
      SignatureBound ctx (ctx.analysis.scopeOf? d.body.id) s.bindings
        ((ctx.graph.arguments.map (fun a => (a.1, .single a.2))).zip d.parameters) bound →
      ReturnsBound ctx (ctx.analysis.scopeOf? d.body.id) d.returns bound all →
        Adds subject settings ids body (s.inFunction ctx d all)) :
    Adds subject settings ids (replayFunction ctx d body) s := by
  refine .after (.record _) fun _ t ht => .after (.modify fun _ => rfl) fun _ u hu => ?_
  refine .after (looping.bindSignature _) fun _ v hv => ?_
  refine .after (looping.bindReturns _) fun _ w hw => ?_
  obtain rfl := record_eq_ok.mp ht
  obtain rfl := modify_eq_ok.mp hu
  obtain ⟨bound, parameters, rfl⟩ := signatureBound_of_ok hv
  obtain ⟨all, returns, rfl⟩ := returnsBound_of_ok hw
  refine .before (hb bound all parameters returns) fun falls => ?_
  exact .ite (.bind .replayLeave fun _ => .pure ()) (.pure ())

theorem replayDefinition {d : Definition} (accounts : Accounts subject settings (.block d.body))
    (enters : ∀ inner v, EntersFunction ctx d s inner v →
      subject.Undertakes settings inner (.block d.body) v) :
    Adds subject settings (blockIds [.block d.body])
      (replayDefinition ctx d (replayBlock · d.body)) s := by
  refine .after (looping.resolveFunction _) fun f t hf => ?_
  obtain ⟨resolved, rfl⟩ := resolveFunction_eq_ok.mp hf
  cases hg : ctx.flow.graphOf? f with
  | none =>
      simp only
      exact .quiet (.reject _ _)
  | some graph =>
      simp only
      refine .ite (fun _ => .quiet (.reject _ _)) fun arity => .apart ?_
      simp only [not_or, not_not] at arity
      refine replayFunction fun bound all parameters returns => ?_
      exact accounts _ _ (enters _ _ (.mk resolved hg arity.1 arity.2 parameters returns))

variable {id : NodeId} {rest : List Stmt} {scope : ScopeId}

-- The definitions before those that are left were all replayed.
theorem replayDefinitions (earlier : List Stmt)
    (accounts : ∀ a ∈ rest, Accounts subject settings a.core)
    (begun : subject.Undertakes settings ctx (.block (.mk id (earlier ++ rest))) s)
    (opened : ctx.analysis.scopeOf? id = some scope)
    (before : replayDefinitions ctx earlier { s with scope? := some scope } = .ok () u) :
    Adds subject settings (blockIds (rest.filter Stmt.isFunDef))
      (replayDefinitions ctx rest) u := by
  induction rest generalizing earlier u with
  | nil => exact .quiet (.pure ())
  | cons first rest ih =>
      obtain ⟨hfirst, hrest⟩ := List.forall_mem_cons.mp accounts
      have further : ∀ w, Replay.replayDefinitions ctx [first] u = .ok () w →
          Adds subject settings (blockIds (rest.filter Stmt.isFunDef))
            (Replay.replayDefinitions ctx rest) w := by
        intro w hw
        rw [List.append_cons] at begun
        have before' := (replayDefinitions_append [first] before).trans hw
        exact ih (earlier ++ [first]) hrest begun before'
      cases first with
      | funDef name parameters returns body =>
          rw [replayDefinitions_funDef, List.filter_cons_of_pos rfl, blockIds_cons]
          refine .bind (replayDefinition hfirst fun inner v enters => ?_) fun _ w run => ?_
          · exact .definition begun opened before enters
          · refine further w ?_
            rw [replayDefinitions_funDef, bind_of_ok run]
            rfl
      | _ => exact further u rfl

-- Of the block, definitions come first and a warning comes last.
theorem inside {statements : List Stmt}
    (accounts : ∀ a ∈ statements, Accounts subject settings a.core)
    (begun : subject.Undertakes settings ctx (.block (.mk id statements)) s)
    (opened : ctx.analysis.scopeOf? id = some scope) :
    Adds subject settings (blockIds [.block (.mk id statements)])
      (inTurn (Replay.replayDefinitions ctx statements) (replayOthers ctx id statements))
      { s with scope? := some scope } := by
  have both : Adds subject settings (blockIds (statements.filter Stmt.isFunDef) ++
      id :: blockIds (statements.filter (!·.isFunDef)))
      (inTurn (Replay.replayDefinitions ctx statements) (replayOthers ctx id statements))
      { s with scope? := some scope } := by
    refine .bind (replayDefinitions [] accounts begun opened rfl) fun _ u run => ?_
    exact adds_others [] accounts begun opened run rfl
  refine both.mono fun other => ?_
  have counted := count_blockIds statements other
  have whole : blockIds [.block (.mk id statements)] = id :: blockIds statements := by
    simp [blockIds, Yul.stmtsBlocks, Yul.stmtBlocks, Block.subBlocks, Block.id]
  rw [whole, List.count_append, List.count_cons, List.count_cons]
  omega

theorem inBlock {id : NodeId} {body : Walk Bool} (hb : ∀ scope,
      ctx.analysis.scopeOf? id = some scope →
        Adds subject settings ids body { s with scope? := some scope }) :
    Adds subject settings ids (inBlock ctx id body) s := by
  unfold Replay.inBlock
  cases ho : ctx.analysis.scopeOf? id with
  | none => exact .quiet (.rejectBlock _)
  | some scope =>
      refine .after .get fun _ _ ht => .after (.modify fun _ => rfl) fun _ _ hu => ?_
      obtain ⟨rfl, rfl⟩ := get_eq_ok.mp ht
      obtain rfl := modify_eq_ok.mp hu
      exact .closing (fun _ => rfl) (hb scope ho)

end Definitions

end Adds

section Switch

-- The blocks of the cases of a switch, by their identities.
def caseIds (cases : List Case) : List NodeId := (Yul.casesBlocks cases).map Block.id

theorem blockIds_switch (e : Expr) (cases : List Case) :
    blockIds [.switch e cases] = caseIds cases := by
  simp [blockIds, caseIds, Yul.stmtsBlocks, Yul.stmtBlocks]

theorem caseIds_cons (value? : Option Literal) (body : Block) (rest : List Case) :
    caseIds (.mk value? body :: rest) = blockIds [.block body] ++ caseIds rest := by
  simp [blockIds, caseIds, Yul.stmtsBlocks, Yul.stmtBlocks, Yul.casesBlocks]

theorem caseIds_append (cases : List Case) (value? : Option Literal) (body : Block) :
    caseIds (cases ++ [.mk value? body]) = caseIds cases ++ blockIds [.block body] := by
  induction cases with
  | nil =>
      rw [List.nil_append, caseIds_cons]
      simp [caseIds, Yul.casesBlocks]
  | cons first rest ih =>
      obtain ⟨first?, inside⟩ := first
      rw [List.cons_append, caseIds_cons, caseIds_cons, ih, List.append_assoc]

theorem CasesReplayed.snoc {e : Expr} {candidates : ValueSet} {arms : List Arm} {value : Literal}
    {body : Walk Bool} {join next last : SwitchJoin}
    (h : CasesReplayed ctx e candidates arms join s next u)
    (k : CaseReplayed ctx e candidates value body next u last t) :
    CasesReplayed ctx e candidates (arms ++ [(some value, body)]) join s last t := by
  induction h with
  | nil => exact .cons k .nil
  | cons first others ih => exact .cons first (ih k)

-- Of the cases, a last one without a value is the default.
theorem splitDefault_replayArms (ctx : Context) (cases : List Case) :
    (∃ init body, cases = init ++ [.mk none body] ∧
      splitDefault (replayArms ctx cases) = (replayArms ctx init, some (replayBlock ctx body))) ∨
    splitDefault (replayArms ctx cases) = (replayArms ctx cases, none) := by
  rcases List.eq_nil_or_concat cases with rfl | ⟨init, ⟨value?, body⟩, rfl⟩
  · exact .inr rfl
  · rw [List.concat_eq_append, replayArms_append]
    cases value? with
    | none => exact .inl ⟨init, body, rfl, splitDefault_append_default _ _⟩
    | some value => exact .inr (by simp [splitDefault, replayArms])

end Switch

namespace Adds

section Branches

theorem replayIf {condition : Expr} {body : Block}
    (accounts : Accounts subject settings (.block body))
    (begun : subject.Undertakes settings ctx (.cond condition body) s) :
    Adds subject settings (blockIds [.block body])
      (replayIf ctx condition (replayBlock ctx body)) s := by
  refine .after (looping.replayOne _) fun candidates? u value => ?_
  cases candidates? with
  | none => exact .quiet (.pure false)
  | some candidates =>
      refine .after looping.leaveByBranch fun branch _ hx => ?_
      refine .after (looping.reconcileCondition _ _ _) fun _ v hr => ?_
      refine .after .get fun _ _ hg => ?_
      refine .after (looping.carry _ _) fun skipping _ hc => .after .get fun _ _ hg' => ?_
      refine .after (looping.advance _ _ _) fun _ _ ha => ?_
      obtain ⟨exit, rfl⟩ := leaveByBranch_eq_ok.mp hx
      obtain ⟨rfl, rfl⟩ := get_eq_ok.mp hg
      obtain ⟨zero, rfl⟩ := carry_eq_ok.mp hc
      obtain ⟨rfl, rfl⟩ := get_eq_ok.mp hg'
      obtain ⟨into, rfl⟩ := advance_eq_ok.mp ha
      have tested : Tested ctx condition s branch skipping _ :=
        .mk value exit (reconcileCondition_eq_ok hr) zero
      refine .before (accounts ctx _ (.inside begun (.cond tested into))) fun falls => ?_
      refine .ite (.bind looping.leaveByJump fun target => .ite (.rejectOperation _) ?_) ?_
      · refine .bind .get fun _ => .bind (looping.carry _ _) fun _ => ?_
        refine .bind (looping.merge _ _) fun _ => .bind (looping.checkPhiOwnership _ _) fun _ => ?_
        exact .bind (looping.advance _ _ _) fun _ => .pure true
      · exact .bind (looping.advance _ _ _) fun _ => .pure true

theorem replayArm {body : Walk Bool} {join : SwitchJoin} (hb : Adds subject settings ids body s) :
    Adds subject settings ids (replayArm ctx body join) s :=
  .before hb fun _ => .ite (.bind .get fun _ =>
    .bind (looping.leaveToJoin looping.leaveByJump _) fun _ =>
      .bind (looping.carry _ _) fun _ => .pure _) (.pure join)

variable {e : Expr} {candidates : ValueSet}

theorem replayCase {value : Literal} {body : Block} {earlier later : List Case} {join : SwitchJoin}
    (accounts : Accounts subject settings (.block body))
    (begun : subject.Undertakes settings ctx
      (.switch e (earlier ++ .mk (some value) body :: later)) s)
    (tests : replayOne ctx e s = .ok (some candidates) u)
    (before : CasesReplayed ctx e candidates (replayArms ctx earlier) .none u join v) :
    Adds subject settings (blockIds [.block body])
      (replayCase ctx e candidates value (replayBlock ctx body) join) v := by
  refine .after (looping.replayComparison _ _ _) fun result w hw => ?_
  refine .after looping.leaveByBranch fun branch _ hx => ?_
  refine .ite (fun _ => .quiet (.rejectOperation _)) fun condition => ?_
  refine .after .get fun _ _ hg => .after (looping.carry _ _) fun otherwise _ hc => ?_
  refine .after .get fun _ _ hg' => .after (looping.advance _ _ _) fun _ _ ha => ?_
  obtain ⟨exit, rfl⟩ := leaveByBranch_eq_ok.mp hx
  obtain rfl : branch.condition = result := not_not.mp condition
  obtain ⟨rfl, rfl⟩ := get_eq_ok.mp hg
  obtain ⟨zero, rfl⟩ := carry_eq_ok.mp hc
  obtain ⟨rfl, rfl⟩ := get_eq_ok.mp hg'
  obtain ⟨into, rfl⟩ := advance_eq_ok.mp ha
  have inside := begun.inside (.case tests before (compared_of_ok hw) exit zero into)
  exact .before (replayArm (accounts ctx _ inside)) fun _ =>
    .bind (looping.advance _ _ _) fun _ => .pure _

theorem replayCases (earlier : List Case) {later tail : List Case} {join : SwitchJoin}
    (accounts : ∀ value? body, .mk value? body ∈ later → Accounts subject settings (.block body))
    (begun : subject.Undertakes settings ctx (.switch e (earlier ++ (later ++ tail))) s)
    (tests : replayOne ctx e s = .ok (some candidates) u)
    (before : CasesReplayed ctx e candidates (replayArms ctx earlier) .none u join v) :
    Adds subject settings (caseIds later)
      (replayCases ctx e candidates (replayArms ctx later) join) v := by
  induction later generalizing earlier join v with
  | nil => exact .quiet (.pure join)
  | cons first later ih =>
      obtain ⟨value?, body⟩ := first
      cases value? with
      | none => exact .quiet (.rejectBlock _)
      | some value =>
          rw [caseIds_cons]
          have here := accounts _ _ List.mem_cons_self
          refine .bind (replayCase here begun tests before) fun next w run => ?_
          have further : CasesReplayed ctx e candidates
              (replayArms ctx (earlier ++ [.mk (some value) body])) .none u next w := by
            rw [replayArms_append]
            exact before.snoc (caseReplayed_of_ok run)
          refine ih (earlier ++ [.mk (some value) body]) (fun value? body hm => ?_) ?_ further
          · exact accounts value? body (List.mem_cons_of_mem _ hm)
          · rwa [List.append_assoc]

theorem replayFallback {body : Walk Bool} {join : SwitchJoin}
    (hb : Adds subject settings ids body s) :
    Adds subject settings ids (replayFallback ctx (some body) join) s :=
  .before (replayArm hb) fun _ => looping.settleSwitch _

theorem replaySwitch {cases : List Case}
    (accounts : ∀ value? body, .mk value? body ∈ cases → Accounts subject settings (.block body))
    (begun : subject.Undertakes settings ctx (.switch e cases) s) :
    Adds subject settings (blockIds [.switch e cases])
      (replaySwitch ctx e (replayArms ctx cases)) s := by
  refine .after (looping.replayOne _) fun candidates? u tests => ?_
  rw [blockIds_switch]
  cases candidates? with
  | none => exact .quiet (.pure false)
  | some candidates =>
      dsimp only
      rcases splitDefault_replayArms ctx cases with ⟨init, body, rfl, divided⟩ | divided
      · have last : ∀ join v, CasesReplayed ctx e candidates (replayArms ctx init) .none u join v →
            Adds subject settings (blockIds [.block body]) (replayBlock ctx body) v :=
          fun _ _ before =>
            accounts none body (by simp) ctx _ (begun.inside (.default tests before))
        rw [divided, caseIds_append]
        cases hi : replayArms ctx init with
        | nil =>
            rw [hi] at last
            refine (last .none u .nil).mono fun id => ?_
            rw [List.count_append]
            exact Nat.le_add_left _ _
        | cons arm arms =>
            dsimp only
            rw [← hi]
            refine .bind (replayCases [] (fun value? body hm => ?_) begun tests .nil) ?_
            · exact accounts value? body (List.mem_append_left _ hm)
            · exact fun join v run => replayFallback (last join v (casesReplayed_of_ok run))
      · rw [divided]
        cases hi : replayArms ctx cases with
        | nil => exact .quiet (.pure true)
        | cons arm arms =>
            dsimp only
            rw [← hi]
            rw [← List.append_nil cases] at begun
            refine .before (replayCases [] accounts begun tests .nil) fun join => ?_
            exact looping.replayFallback .none join

end Branches

end Adds

end SsaReplay.Replay
