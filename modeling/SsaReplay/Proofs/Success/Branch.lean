import SsaReplay.Proofs.Success.Expr
import SsaReplay.Replay.Branch

namespace SsaReplay.Replay

open SsaReplay.Graph (Branch Operation)
open SsaReplay.Yul (Expr Literal)

-- A condition is replayed and tested by the branch that its block ends in. The
-- bindings are those with which the zero target is entered.
inductive Tested (ctx : Context) (e : Expr) (s : State) : Branch → Bindings → State → Prop
  | mk {candidates : ValueSet} {branch : Branch} {skipping : Bindings} {u v : State}
      (value : replayOne ctx e s = .ok (some candidates) u) (exit : AtExit ctx u (.branch branch))
      (fits : Reconciled ctx (u.log ctx.site (.left u.block (.branch branch))) e candidates
        branch.condition v)
      (zero : Carries ctx.graph v.block branch.zero v.bindings skipping) :
      Tested ctx e s branch skipping
        (v.log ctx.site (.carried v.block branch.zero v.bindings skipping))

inductive IfReplayed (ctx : Context) (condition : Expr) (body : Walk Bool) (s : State) :
    Bool → State → Prop
  | stuck {t : State} (value : replayOne ctx condition s = .ok none t) :
      IfReplayed ctx condition body s false t
  | joined {branch : Branch} {skipping running merged : Bindings} {v w : State}
      (tested : Tested ctx condition s branch skipping v)
      (into : ctx.graph.HasEdge v.block branch.nonZero)
      (run : body (v.follow ctx.site v.block branch.nonZero v.bindings) = .ok true w)
      (exit : AtExit ctx w (.jump branch.zero))
      (back : Carries ctx.graph w.block branch.zero w.bindings running)
      (meets : Bindings.meet [skipping, running] = .ok merged)
      (owned : PhisOwned ctx branch.zero merged) (edge : ctx.graph.HasEdge w.block branch.zero) :
      IfReplayed ctx condition body s true
        ((((w.log ctx.site (.left w.block (.jump branch.zero))).log ctx.site
          (.carried w.block branch.zero w.bindings running)).log ctx.site
            (.merged branch.zero merged)).follow ctx.site w.block branch.zero merged)
  | skipped {branch : Branch} {skipping : Bindings} {v w : State}
      (tested : Tested ctx condition s branch skipping v)
      (into : ctx.graph.HasEdge v.block branch.nonZero)
      (run : body (v.follow ctx.site v.block branch.nonZero v.bindings) = .ok false w)
      (edge : ctx.graph.HasEdge v.block branch.zero) :
      IfReplayed ctx condition body s true (w.follow ctx.site v.block branch.zero skipping)

variable {ctx : Context} {s t : State}

theorem reconcileCondition_eq_ok {e : Expr} {candidates : ValueSet} {v : ValueId} {u : Unit}
    (h : reconcileCondition ctx e candidates v s = .ok u t) :
    Reconciled ctx s e candidates v t := by
  simp only [reconcileCondition, bind_eq_ok, ite_eq_ok, pure_eq_ok, rejectOperation_ne_ok,
    and_false, or_false] at h
  obtain ⟨fits, _, h, rfl, -, rfl⟩ := h
  exact reconciled_of_ok h

theorem ifReplayed_of_ok {condition : Expr} {body : Walk Bool} {r : Bool}
    (h : replayIf ctx condition body s = .ok r t) : IfReplayed ctx condition body s r t := by
  simp only [replayIf, bind_eq_ok] at h
  obtain ⟨candidates?, u, hv, h⟩ := h
  cases candidates? with
  | none =>
      obtain ⟨rfl, rfl⟩ := pure_eq_ok.mp h
      exact .stuck hv
  | some candidates =>
      simp only [bind_eq_ok, leaveByBranch_eq_ok, get_eq_ok, carry_eq_ok, advance_eq_ok,
        ite_eq_ok, leaveByJump_eq_ok, rejectOperation_ne_ok, and_false, false_or, not_not,
        merge_eq_ok, checkPhiOwnership_eq_ok, pure_eq_ok] at h
      obtain ⟨branch, _, ⟨hx, rfl⟩, _, v, hr, _, _, ⟨rfl, rfl⟩, skipping, _, ⟨hc, rfl⟩, _, _,
        ⟨rfl, rfl⟩, _, _, ⟨he, rfl⟩, falls, w, hb, h⟩ := h
      have ht : Tested ctx condition s branch skipping _ :=
        .mk hv hx (reconcileCondition_eq_ok hr) hc
      rcases h with ⟨rfl, target, _, ⟨hw, rfl⟩, rfl, _, _, ⟨rfl, rfl⟩, running, _, ⟨hk, rfl⟩,
        merged, _, ⟨hm, rfl⟩, _, _, ⟨ho, rfl⟩, _, _, ⟨hj, rfl⟩, rfl, rfl⟩ |
        ⟨hf, _, _, ⟨hj, rfl⟩, rfl, rfl⟩
      · exact .joined ht he hb hw hk hm ho hj
      · obtain rfl : falls = false := by simpa using hf
        exact (IfReplayed.skipped ht he hb hj :)

-- The comparison of a case is the last operation of its block.
inductive Compared (ctx : Context) (e : Expr) (candidates : ValueSet) (value : Literal)
    (s : State) : ValueId → State → Prop
  | mk {data : Graph.BasicBlock} {op : Operation} {against read result : ValueId} {u : State}
      (block : ctx.graph.block? s.block = some data) (last : data.operations.drop s.op = [op])
      (compares : comparison? ctx op = some (against, read, result))
      (literal : ctx.graph.literal? value.value = some against)
      (fits : Reconciled ctx s e candidates read u) :
      Compared ctx e candidates value s result (u.consume ctx.site op)

-- A comparison is the match of its operation after an operand was reconciled.
theorem Compared.matched {e : Expr} {candidates : ValueSet} {value : Literal} {result : ValueId}
    (h : Compared ctx e candidates value s result t) :
    ∃ data op against read u, Reconciled ctx s e candidates read u ∧
      ctx.graph.block? u.block = some data ∧ data.operations[u.op]? = some op ∧
        comparison? ctx op = some (against, read, result) ∧ t = u.consume ctx.site op := by
  cases h with
  | @mk data op against read _ u block last compares literal fits =>
      have atOp : data.operations[s.op]? = some op := by
        rw [← List.head?_drop, last, List.head?_cons]
      obtain ⟨hb, ho⟩ := fits.position
      exact ⟨data, op, against, read, u, fits, hb ▸ block, ho ▸ atOp, compares, rfl⟩

theorem compared_of_ok {e : Expr} {candidates : ValueSet} {value : Literal} {result : ValueId}
    (h : replayComparison ctx e candidates value s = .ok result t) :
    Compared ctx e candidates value s result t := by
  simp only [replayComparison, bind_eq_ok, get_eq_ok, blockData_eq_ok] at h
  obtain ⟨_, _, ⟨rfl, rfl⟩, data, _, ⟨hd, rfl⟩, h⟩ := h
  cases hl : data.operations.drop s.op with
  | nil => simp only [hl, rejectOperation_ne_ok] at h
  | cons op rest =>
      cases rest with
      | cons => simp only [hl, rejectOperation_ne_ok] at h
      | nil =>
          cases hc : comparison? ctx op with
          | none => simp only [hl, hc, rejectOperation_ne_ok] at h
          | some compared =>
              obtain ⟨against, read, found⟩ := compared
              simp only [hl, hc, bind_eq_ok, readLiteral_eq_ok, ite_eq_ok, rejectOperation_ne_ok,
                and_false, false_or, or_false, consume_eq_ok, pure_eq_ok, not_not] at h
              obtain ⟨literal, _, ⟨hlit, rfl⟩, rfl, fits, u, hr, rfl, _, _, rfl, rfl, rfl⟩ := h
              exact .mk hd hl hc hlit (reconciled_of_ok hr)

-- Where control falls through an arm, its block jumps to the join.
inductive ArmReplayed (ctx : Context) (body : Walk Bool) (join : SwitchJoin) (s : State) :
    SwitchJoin → State → Prop
  | left {t : State} (run : body s = .ok false t) : ArmReplayed ctx body join s join t
  | joined {target : BlockId} {bindings : Bindings} {w : State} (run : body s = .ok true w)
      (exit : AtExit ctx w (.jump target)) (agrees : ∀ edge ∈ join.edge?, edge.2 = target)
      (carries : Carries ctx.graph w.block target w.bindings bindings) :
      ArmReplayed ctx body join s
        ⟨some (w.block, target), join.contributions ++ [bindings]⟩
        ((w.log ctx.site (.left w.block (.jump target))).log ctx.site
          (.carried w.block target w.bindings bindings))

theorem leaveToJoin_eq_ok {join : SwitchJoin} {target : BlockId} :
    leaveToJoin ctx join s = .ok target t ↔
      AtExit ctx s (.jump target) ∧ (∀ edge ∈ join.edge?, edge.2 = target) ∧
        s.log ctx.site (.left s.block (.jump target)) = t := by
  simp only [leaveToJoin, bind_eq_ok, leaveByJump_eq_ok]
  cases join.edge? with
  | none =>
      constructor
      · rintro ⟨_, _, ⟨hx, rfl⟩, h⟩
        obtain ⟨rfl, rfl⟩ := pure_eq_ok.mp h
        exact ⟨hx, by simp, rfl⟩
      · rintro ⟨hx, -, rfl⟩
        exact ⟨target, _, ⟨hx, rfl⟩, pure_eq_ok.mpr ⟨rfl, rfl⟩⟩
  | some edge =>
      simp only [ite_eq_ok, rejectOperation_ne_ok, and_false, false_or, not_not, pure_eq_ok,
        Option.mem_def, Option.some.injEq, forall_eq']
      constructor
      · rintro ⟨_, _, ⟨hx, rfl⟩, he, rfl, rfl⟩
        exact ⟨hx, he, rfl⟩
      · rintro ⟨hx, he, rfl⟩
        exact ⟨target, _, ⟨hx, rfl⟩, he, rfl, rfl⟩

theorem armReplayed_of_ok {body : Walk Bool} {join next : SwitchJoin}
    (h : replayArm ctx body join s = .ok next t) : ArmReplayed ctx body join s next t := by
  simp only [replayArm, bind_eq_ok, ite_eq_ok, get_eq_ok, leaveToJoin_eq_ok, carry_eq_ok,
    pure_eq_ok] at h
  obtain ⟨falls, w, hb, h⟩ := h
  rcases h with
    ⟨rfl, _, _, ⟨rfl, rfl⟩, target, _, ⟨hx, ha, rfl⟩, bindings, _, ⟨hc, rfl⟩, rfl, rfl⟩ |
    ⟨hf, rfl, rfl⟩
  · exact .joined hb hx ha hc
  · obtain rfl : falls = false := by simpa using hf
    exact .left hb

inductive CaseReplayed (ctx : Context) (e : Expr) (candidates : ValueSet) (value : Literal)
    (body : Walk Bool) (join : SwitchJoin) (s : State) : SwitchJoin → State → Prop
  | mk {branch : Branch} {otherwise : Bindings} {next : SwitchJoin} {u w : State}
      (compared : Compared ctx e candidates value s branch.condition u)
      (exit : AtExit ctx u (.branch branch))
      (zero : Carries ctx.graph u.block branch.zero u.bindings otherwise)
      (into : ctx.graph.HasEdge u.block branch.nonZero)
      (arm : ArmReplayed ctx body join
        (((u.log ctx.site (.left u.block (.branch branch))).log ctx.site
          (.carried u.block branch.zero u.bindings otherwise)).follow ctx.site u.block
            branch.nonZero u.bindings) next w)
      (edge : ctx.graph.HasEdge u.block branch.zero) :
      CaseReplayed ctx e candidates value body join s next
        (w.follow ctx.site u.block branch.zero otherwise)

theorem caseReplayed_of_ok {e : Expr} {candidates : ValueSet} {value : Literal} {body : Walk Bool}
    {join next : SwitchJoin} (h : replayCase ctx e candidates value body join s = .ok next t) :
    CaseReplayed ctx e candidates value body join s next t := by
  simp only [replayCase, bind_eq_ok, leaveByBranch_eq_ok, ite_eq_ok, rejectOperation_ne_ok,
    and_false, false_or, not_not, get_eq_ok, carry_eq_ok, advance_eq_ok, pure_eq_ok] at h
  obtain ⟨result, u, hc, branch, _, ⟨hx, rfl⟩, rfl, _, _, ⟨rfl, rfl⟩, otherwise, _, ⟨hz, rfl⟩, _, _,
    ⟨rfl, rfl⟩, _, _, ⟨hi, rfl⟩, join', w, ha, _, _, ⟨he, rfl⟩, rfl, rfl⟩ := h
  exact (CaseReplayed.mk (compared_of_ok hc) hx hz hi (armReplayed_of_ok ha) he :)

inductive CasesReplayed (ctx : Context) (e : Expr) (candidates : ValueSet) :
    List Arm → SwitchJoin → State → SwitchJoin → State → Prop
  | nil {join : SwitchJoin} {s : State} : CasesReplayed ctx e candidates [] join s join s
  | cons {value : Literal} {body : Walk Bool} {rest : List Arm} {join next last : SwitchJoin}
      {s u t : State} (first : CaseReplayed ctx e candidates value body join s next u)
      (others : CasesReplayed ctx e candidates rest next u last t) :
      CasesReplayed ctx e candidates ((some value, body) :: rest) join s last t

-- What holds of a state and the join found so far holds after any number of cases, if each
-- of them keeps it.
theorem CasesReplayed.invariant {P : SwitchJoin → State → Prop} {Q : Walk Bool → Prop}
    {e : Expr} {candidates : ValueSet} {arms : List Arm} {join last : SwitchJoin}
    (h : CasesReplayed ctx e candidates arms join s last t) (hb : ∀ arm ∈ arms, Q arm.2)
    (one : ∀ {value body here next u v}, Q body →
      CaseReplayed ctx e candidates value body here u next v → P here u → P next v)
    (hs : P join s) : P last t := by
  induction h with
  | nil => exact hs
  | cons first _ ih =>
      obtain ⟨hf, hr⟩ := List.forall_mem_cons.mp hb
      exact ih hr (one hf first hs)

theorem casesReplayed_of_ok {e : Expr} {candidates : ValueSet} {arms : List Arm}
    {join last : SwitchJoin} (h : replayCases ctx e candidates arms join s = .ok last t) :
    CasesReplayed ctx e candidates arms join s last t := by
  induction arms generalizing join s with
  | nil =>
      obtain ⟨rfl, rfl⟩ := pure_eq_ok.mp h
      exact .nil
  | cons arm rest ih =>
      obtain ⟨value?, body⟩ := arm
      cases value? with
      | none => simp [replayCases] at h
      | some value =>
          simp only [replayCases, bind_eq_ok] at h
          obtain ⟨next, u, hc, h⟩ := h
          exact .cons (caseReplayed_of_ok hc) (ih h)

-- What is found of the join decides whether and where control goes on.
inductive Settled (ctx : Context) (join : SwitchJoin) (s : State) : Bool → State → Prop
  | nowhere (noEdge : join.edge? = none) : Settled ctx join s false s
  | advanced {source target : BlockId} {merged : Bindings}
      (found : join.edge? = some (source, target))
      (meets : Bindings.meet join.contributions = .ok merged)
      (owned : PhisOwned ctx target merged) (elsewhere : s.block ≠ target)
      (edge : ctx.graph.HasEdge source target) :
      Settled ctx join s true
        ((s.log ctx.site (.merged target merged)).follow ctx.site source target merged)
  | there {source target : BlockId} {merged : Bindings}
      (found : join.edge? = some (source, target))
      (meets : Bindings.meet join.contributions = .ok merged)
      (owned : PhisOwned ctx target merged) (here : s.block = target) :
      Settled ctx join s true
        { s.log ctx.site (.merged target merged) with bindings := merged }

theorem settled_of_ok {join : SwitchJoin} {r : Bool} (h : settleSwitch ctx join s = .ok r t) :
    Settled ctx join s r t := by
  unfold settleSwitch at h
  cases hj : join.edge? with
  | none =>
      simp only [hj] at h
      obtain ⟨rfl, rfl⟩ := pure_eq_ok.mp h
      exact .nowhere hj
  | some edge =>
      obtain ⟨source, target⟩ := edge
      simp only [hj, bind_eq_ok, merge_eq_ok, checkPhiOwnership_eq_ok, get_eq_ok, ite_eq_ok,
        advance_eq_ok, setBindings_eq_ok, pure_eq_ok, not_not] at h
      obtain ⟨merged, _, ⟨hm, rfl⟩, _, _, ⟨ho, rfl⟩, _, _, ⟨rfl, rfl⟩,
        ⟨hb, _, _, ⟨he, rfl⟩, rfl, rfl⟩ | ⟨hb, _, _, rfl, rfl, rfl⟩⟩ := h
      · exact .advanced hj hm ho hb he
      · exact .there hj hm ho hb

inductive FallbackReplayed (ctx : Context) : Option (Walk Bool) → SwitchJoin → State → Bool →
    State → Prop
  | default {body : Walk Bool} {join next : SwitchJoin} {s u t : State} {r : Bool}
      (arm : ArmReplayed ctx body join s next u) (settled : Settled ctx next u r t) :
      FallbackReplayed ctx (some body) join s r t
  | unjoined {join : SwitchJoin} {s : State} (noEdge : join.edge? = none) :
      FallbackReplayed ctx none join s true s
  | direct {join : SwitchJoin} {edge : BlockId × BlockId} {s t : State} {r : Bool}
      (found : join.edge? = some edge) (here : s.block = edge.2)
      (settled :
        Settled ctx { join with contributions := join.contributions ++ [s.bindings] } s r t) :
      FallbackReplayed ctx none join s r t
  | through {join next : SwitchJoin} {edge : BlockId × BlockId} {s u t : State} {r : Bool}
      (found : join.edge? = some edge) (elsewhere : s.block ≠ edge.2)
      (arm : ArmReplayed ctx (pure true) join s next u) (settled : Settled ctx next u r t) :
      FallbackReplayed ctx none join s r t

theorem fallbackReplayed_of_ok {default? : Option (Walk Bool)} {join : SwitchJoin} {r : Bool}
    (h : replayFallback ctx default? join s = .ok r t) :
    FallbackReplayed ctx default? join s r t := by
  cases default? with
  | some body =>
      simp only [replayFallback, bind_eq_ok] at h
      obtain ⟨next, u, ha, hs⟩ := h
      exact .default (armReplayed_of_ok ha) (settled_of_ok hs)
  | none =>
      cases hj : join.edge? with
      | none =>
          simp only [replayFallback, hj] at h
          obtain ⟨rfl, rfl⟩ := pure_eq_ok.mp h
          exact .unjoined hj
      | some edge =>
          simp only [replayFallback, hj, bind_eq_ok, get_eq_ok, ite_eq_ok] at h
          obtain ⟨_, _, ⟨rfl, rfl⟩, ⟨hb, hs⟩ | ⟨hb, next, u, ha, hs⟩⟩ := h
          · exact .direct hj hb (settled_of_ok (by rwa [hj]))
          · exact .through hj hb (armReplayed_of_ok ha) (settled_of_ok hs)

inductive SwitchReplayed (ctx : Context) (e : Expr) (arms : List Arm) (s : State) :
    Bool → State → Prop
  | stuck {t : State} (value : replayOne ctx e s = .ok none t) : SwitchReplayed ctx e arms s false t
  | noArms {candidates : ValueSet} {t : State} (value : replayOne ctx e s = .ok (some candidates) t)
      (split : splitDefault arms = ([], none)) : SwitchReplayed ctx e arms s true t
  | onlyDefault {candidates : ValueSet} {body : Walk Bool} {u t : State} {r : Bool}
      (value : replayOne ctx e s = .ok (some candidates) u)
      (split : splitDefault arms = ([], some body)) (run : body u = .ok r t) :
      SwitchReplayed ctx e arms s r t
  | cases {candidates : ValueSet} {cases : List Arm} {default? : Option (Walk Bool)}
      {join : SwitchJoin} {u v t : State} {r : Bool}
      (value : replayOne ctx e s = .ok (some candidates) u)
      (split : splitDefault arms = (cases, default?)) (some_case : cases ≠ [])
      (run : CasesReplayed ctx e candidates cases .none u join v)
      (fallback : FallbackReplayed ctx default? join v r t) : SwitchReplayed ctx e arms s r t

theorem switchReplayed_of_ok {e : Expr} {arms : List Arm} {r : Bool}
    (h : replaySwitch ctx e arms s = .ok r t) : SwitchReplayed ctx e arms s r t := by
  simp only [replaySwitch, bind_eq_ok] at h
  obtain ⟨candidates?, u, hv, h⟩ := h
  cases candidates? with
  | none =>
      obtain ⟨rfl, rfl⟩ := pure_eq_ok.mp h
      exact .stuck hv
  | some candidates =>
      cases hs : splitDefault arms with
      | mk cases default? =>
          cases cases with
          | nil =>
              cases default? with
              | none =>
                  simp only [hs] at h
                  obtain ⟨rfl, rfl⟩ := pure_eq_ok.mp h
                  exact .noArms hv hs
              | some body =>
                  simp only [hs] at h
                  exact .onlyDefault hv hs h
          | cons arm rest =>
              simp only [hs, bind_eq_ok] at h
              obtain ⟨join, v, hc, hf⟩ := h
              exact .cases hv hs (by simp) (casesReplayed_of_ok hc) (fallbackReplayed_of_ok hf)

end SsaReplay.Replay
