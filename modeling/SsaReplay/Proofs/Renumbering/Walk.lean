import SsaReplay.Proofs.Renumbering.Graph
import SsaReplay.Replay.Expr

namespace SsaReplay.Replay

open SsaReplay.Graph (BasicBlock Branch Callee Cfg Exit Operation)
open SsaReplay.Yul (Expr Literal)

def LoopEdges.renumber (e : LoopEdges) (π : Renumbering) : LoopEdges :=
  ⟨e.first?.map fun edge => (π.block edge.1, π.block edge.2), e.bindings.map (·.renumber π)⟩

def LoopFrame.renumber (f : LoopFrame) (π : Renumbering) : LoopFrame :=
  ⟨π.block f.header, f.exits.renumber π, f.continues.renumber π, f.backEdges.map (·.renumber π)⟩

-- Two replays are at the same place, under other numbers. What they have found and done
-- so far is left open.
structure StateMirrors (π : Renumbering) (s s' : State) : Prop where
  scope : s'.scope? = s.scope?
  block : s'.block = π.block s.block
  op : s'.op = s.op
  bindings : s'.bindings = s.bindings.renumber π
  loops : s'.loops = s.loops.map (·.renumber π)

-- The same is found at the same place of the graph for the same function, whose numbers
-- are the ones that count.
structure FindingMirrors (ρ : Option FunctionId → Renumbering) (f f' : Finding) : Prop where
  owner : f'.site.owner? = f.site.owner?
  mismatch : f'.mismatch = f.mismatch.renumber (ρ f.site.owner?)
  location : f'.location = f.location.renumber (ρ f.site.owner?)

inductive HaltMirrors (ρ : Option FunctionId → Renumbering) : Halt → Halt → Prop
  | mismatch {f f' : Finding} (same : FindingMirrors ρ f f') :
      HaltMirrors ρ (.mismatch f) (.mismatch f')
  | noOpenLoop : HaltMirrors ρ .noOpenLoop .noOpenLoop

-- The graph at hand and all others are the same but for the numbers. Of the settings,
-- only those matter that the replay decides by.
structure ContextMirrors (ρ : Option FunctionId → Renumbering) (π : Renumbering)
    (ctx ctx' : Context) : Prop where
  own : ρ ctx.site.owner? = π
  owner : ctx'.site.owner? = ctx.site.owner?
  analysis : ctx'.analysis = ctx.analysis
  dialect : ctx'.dialect = ctx.dialect
  ownership : ctx'.settings.checksPhiOwnership = ctx.settings.checksPhiOwnership
  iterations : ctx'.settings.maxLoopIterations = ctx.settings.maxLoopIterations
  graph : GraphMirrors π ctx.graph ctx'.graph
  functions : ∀ f, Option.Rel (GraphMirrors (ρ (some f))) (ctx.flow.graphOf? f)
    (ctx'.flow.graphOf? f)

-- From the same place, two walks get through to the same place with the same result, or
-- both stop with the same finding.
def InStep {α β : Type} (ρ : Option FunctionId → Renumbering) (π : Renumbering) (k : α → β)
    (x : Walk α) (x' : Walk β) : Prop :=
  ∀ s s', StateMirrors π s s' →
    match x s, x' s' with
    | .ok a t, .ok a' t' => a' = k a ∧ StateMirrors π t t'
    | .error h _, .error h' _ => HaltMirrors ρ h h'
    | _, _ => False

namespace StateMirrors

variable {π : Renumbering} {s s' : State} {b : Bindings}

theorem log (h : StateMirrors π s s') (site site' : Site) (e e' : Event) :
    StateMirrors π (s.log site e) (s'.log site' e') :=
  ⟨h.scope, h.block, h.op, h.bindings, h.loops⟩

theorem set_bindings (h : StateMirrors π s s') :
    StateMirrors π { s with bindings := b } { s' with bindings := b.renumber π } :=
  ⟨h.scope, h.block, h.op, rfl, h.loops⟩

end StateMirrors

namespace InStep

variable {ρ : Option FunctionId → Renumbering} {π : Renumbering} {α β γ δ : Type} {k : α → β}

section Rules

variable {x : Walk α} {x' : Walk β} {q : γ → δ}

theorem pure (a : α) : InStep ρ π k (pure a) (pure (k a)) := fun _ _ hs => ⟨rfl, hs⟩

theorem bind {f : α → Walk γ} {f' : β → Walk δ} (h : InStep ρ π k x x')
    (hf : ∀ a, InStep ρ π q (f a) (f' (k a))) : InStep ρ π q (x >>= f) (x' >>= f') := by
  intro s s' hs
  have first := h s s' hs
  change match EStateM.bind x f s, EStateM.bind x' f' s' with
    | .ok a t, .ok a' t' => a' = q a ∧ StateMirrors π t t'
    | .error h _, .error h' _ => HaltMirrors ρ h h'
    | _, _ => False
  unfold EStateM.bind
  cases hx : x s with
  | ok a t =>
      cases hx' : x' s' with
      | ok a' t' =>
          rw [hx, hx'] at first
          obtain ⟨rfl, ht⟩ := first
          exact hf a t t' ht
      | error e' t' =>
          rw [hx, hx'] at first
          exact first.elim
  | error e t =>
      cases hx' : x' s' with
      | ok a' t' =>
          rw [hx, hx'] at first
          exact first.elim
      | error e' t' =>
          rw [hx, hx'] at first
          exact first

-- The same where the results are the same.
theorem bind_eq {x' : Walk α} {f : α → Walk γ} {f' : α → Walk δ} (h : InStep ρ π id x x')
    (hf : ∀ a, InStep ρ π q (f a) (f' a)) : InStep ρ π q (x >>= f) (x' >>= f') :=
  h.bind hf

theorem bind_get {f : State → Walk γ} {f' : State → Walk δ}
    (hf : ∀ s s', StateMirrors π s s' → InStep ρ π q (f s) (f' s')) :
    InStep ρ π q (get >>= f) (get >>= f') :=
  fun s s' hs => hf s s' hs s s' hs

theorem ite {c c' : Prop} [Decidable c] [Decidable c'] {y : Walk α} {y' : Walk β} (hc : c' ↔ c)
    (hx : InStep ρ π k x x') (hy : InStep ρ π k y y') :
    InStep ρ π k (if c then x else y) (if c' then x' else y') := by
  by_cases h : c
  · rw [if_pos h, if_pos (hc.mpr h)]
    exact hx
  · rw [if_neg h, if_neg (mt hc.mp h)]
    exact hy

theorem modify {f f' : State → State} (hf : ∀ s s', StateMirrors π s s' →
    StateMirrors π (f s) (f' s')) : InStep ρ π id (modify f) (modify f') :=
  fun s s' hs => ⟨rfl, hf s s' hs⟩

-- Where both stop, what is set right does not matter.
theorem closing {close close' : State → State} (h : InStep ρ π k x x')
    (hc : ∀ t t', StateMirrors π t t' → StateMirrors π (close t) (close' t')) :
    InStep ρ π k (closing close x) (closing close' x') := by
  intro s s' hs
  have inside := h s s' hs
  rw [closing_eq, closing_eq]
  cases hx : x s with
  | ok a t =>
      cases hx' : x' s' with
      | ok a' t' =>
          rw [hx, hx'] at inside
          exact ⟨inside.1, hc t t' inside.2⟩
      | error e' t' =>
          rw [hx, hx'] at inside
          exact inside.elim
  | error e t =>
      cases hx' : x' s' with
      | ok a' t' =>
          rw [hx, hx'] at inside
          exact inside.elim
      | error e' t' =>
          rw [hx, hx'] at inside
          exact inside

theorem record {ctx ctx' : Context} (e e' : Event) :
    InStep ρ π id (record ctx e) (record ctx' e') :=
  modify fun _ _ hs => hs.log _ _ e e'

theorem setBindings (b : Bindings) :
    InStep ρ π id (setBindings b) (setBindings (b.renumber π)) :=
  modify fun _ _ hs => hs.set_bindings

theorem noOpenLoop : InStep ρ π k (throw .noOpenLoop) (throw .noOpenLoop) :=
  fun _ _ _ => .noOpenLoop

theorem consume {ctx ctx' : Context} (op op' : Operation) :
    InStep ρ π id (consume ctx op) (consume ctx' op') := by
  refine bind_get fun s s' hs => bind_eq (record _ _) fun _ => modify fun t t' ht => ?_
  exact ⟨ht.scope, ht.block, congrArg (· + 1) ht.op, ht.bindings, ht.loops⟩

end Rules

variable {ctx ctx' : Context} (h : ContextMirrors ρ π ctx ctx')

include h

section Rejections

variable {m m' : Mismatch}

theorem reject {l l' : Location} (hm : m' = m.renumber π) (hl : l' = l.renumber π) :
    InStep ρ π k (reject ctx m l) (reject ctx' m' l') := by
  intro s s' hs
  refine HaltMirrors.mismatch ⟨h.owner, ?_, ?_⟩
  · rw [h.own, hm]
  · rw [h.own, hl]

theorem graphRef : ctx'.graphRef = ctx.graphRef := by
  unfold Context.graphRef
  rw [h.graph.function]

theorem rejectOperation (hm : m' = m.renumber π) :
    InStep ρ π k (rejectOperation ctx m) (rejectOperation ctx' m') := by
  refine bind_get fun s s' hs => reject h hm ?_
  unfold Context.operationAt
  rw [graphRef h, hs.block, hs.op]
  rfl

theorem rejectBlock (hm : m' = m.renumber π) :
    InStep ρ π k (rejectBlock ctx m) (rejectBlock ctx' m') := by
  refine bind_get fun s s' hs => reject h hm ?_
  unfold Context.blockAt
  rw [graphRef h, hs.block]
  rfl

theorem rejectAt {b b' : BlockId} (hm : m' = m.renumber π) (hb : b' = π.block b) :
    InStep ρ π k (Replay.reject ctx m (ctx.blockAt b))
      (Replay.reject ctx' m' (ctx'.blockAt b')) := by
  refine reject h hm ?_
  unfold Context.blockAt
  rw [graphRef h, hb]
  rfl

theorem orReject {o : Option α} {o' : Option β} (hm : m' = m.renumber π) (ho : o' = o.map k) :
    InStep ρ π k (orReject ctx m o) (orReject ctx' m' o') := by
  subst ho
  cases o with
  | none => exact rejectOperation h hm
  | some a => exact pure a

-- The graphs of a function are looked up under the same name.
theorem bind_graphOf {f : FunctionId} {p : Cfg → Walk α} {p' : Cfg → Walk β}
    (hm : m' = m.renumber π)
    (hp : ∀ g g', GraphMirrors (ρ (some f)) g g' → InStep ρ π k (p g) (p' g')) :
    InStep ρ π k (Replay.orReject ctx m (ctx.flow.graphOf? f) >>= p)
      (Replay.orReject ctx' m' (ctx'.flow.graphOf? f) >>= p') := by
  have hf := h.functions f
  generalize ctx.flow.graphOf? f = found at hf ⊢
  generalize ctx'.flow.graphOf? f = found' at hf ⊢
  intro s s' hs
  rcases hf with hg | _
  · exact hp _ _ hg s s' hs
  · exact rejectOperation (k := k) h hm s s' hs

end Rejections

section Edge

theorem bind_blockData {b : BlockId} {f : BasicBlock → Walk α} {f' : BasicBlock → Walk β}
    (hf : ∀ data data', ctx.graph.block? b = some data →
      ctx'.graph.block? (π.block b) = some data' → BlockMirrors π data data' →
        InStep ρ π k (f data) (f' data')) :
    InStep ρ π k (blockData ctx b >>= f) (blockData ctx' (π.block b) >>= f') := by
  intro s s' hs
  unfold blockData
  cases hd : ctx.graph.block? b with
  | none =>
      rw [h.graph.block_of_none hd]
      have absent : InStep ρ π k (Replay.reject ctx (.absentBlock b) (.graph ctx.graphRef))
          (Replay.reject ctx' (.absentBlock (π.block b)) (.graph ctx'.graphRef)) :=
        reject h rfl (by rw [graphRef h]; rfl)
      exact absent s s' hs
  | some data =>
      obtain ⟨data', hd', hm⟩ := h.graph.block_of_some hd
      rw [hd']
      exact hf data data' hd hd' hm s s' hs

theorem checkEdge (source target : BlockId) :
    InStep ρ π id (checkEdge ctx source target)
      (checkEdge ctx' (π.block source) (π.block target)) := by
  refine bind_blockData h fun start start' _ _ hstart => ?_
  refine bind_blockData h fun finish finish' _ _ hfinish => ?_
  refine ite ?_ (pure ()) (rejectAt h rfl rfl)
  rw [hstart.exit, targets_renumber, List.mem_map_of_injective π.block.injective,
    hfinish.entries]

theorem advance (source target : BlockId) (b : Bindings) :
    InStep ρ π id (advance ctx source target b)
      (advance ctx' (π.block source) (π.block target) (b.renumber π)) := by
  refine bind_eq (checkEdge h source target) fun _ => bind_eq (record _ _) fun _ => ?_
  exact modify fun s s' hs => ⟨hs.scope, rfl, rfl, rfl, hs.loops⟩

theorem carry (source target : BlockId) :
    InStep ρ π (·.renumber π) (carry ctx source target)
      (carry ctx' (π.block source) (π.block target)) := by
  refine bind_blockData h fun data data' hd hd' hm => ?_
  rw [h.graph.phis source target data data' hd hd']
  cases phiArguments ctx.graph source target data with
  | error m => exact rejectAt h rfl rfl
  | ok pairs =>
      refine bind_get fun s s' hs => ?_
      have after : s'.bindings.acrossEdge
          (phisFedBy (pairs.map fun p => (π.value p.1, π.value p.2))) data'.phis =
            (s.bindings.acrossEdge (phisFedBy pairs) data.phis).renumber π := by
        rw [hm.phis, hs.bindings]
        exact (Bindings.renumber_acrossEdge (phisFedBy_renumber π pairs)).symm
      dsimp only [List.map_map]
      rw [after]
      exact bind_eq (record _ _) fun _ => pure _

theorem merge (join : BlockId) (contributions : List Bindings) :
    InStep ρ π (·.renumber π) (merge ctx join contributions)
      (merge ctx' (π.block join) (contributions.map (·.renumber π))) := by
  unfold Replay.merge
  rw [Bindings.meet_renumber]
  cases Bindings.meet contributions with
  | error conflict => exact rejectAt h rfl rfl
  | ok merged => exact bind_eq (record _ _) fun _ => pure merged

theorem checkPhiOwnership (join : BlockId) (b : Bindings) :
    InStep ρ π id (checkPhiOwnership ctx join b)
      (checkPhiOwnership ctx' (π.block join) (b.renumber π)) := by
  refine ite (by rw [h.ownership]) ?_ (pure ())
  refine bind_blockData h fun data data' _ _ hm => ?_
  rw [hm.phis, List.find?_map]
  have same : ((fun phi => ((b.renumber π).holders phi).isEmpty) ∘ π.value) =
      fun phi => (b.holders phi).isEmpty := by
    funext phi
    exact congrArg List.isEmpty Bindings.holders_renumber
  rw [same]
  cases data.phis.find? (fun phi => (b.holders phi).isEmpty) with
  | none => exact pure ()
  | some phi => exact rejectAt h rfl rfl

theorem currentExit :
    InStep ρ π (Exit.renumber π) (currentExit ctx) (currentExit ctx') := by
  refine bind_get fun s s' hs => ?_
  rw [hs.block, hs.op]
  refine bind_blockData h fun data data' _ _ hm => ?_
  rw [hm.operations, hm.exit, List.length_map]
  exact ite Iff.rfl (rejectOperation h rfl) (pure _)

theorem leaveBy (demand : ExitDemand) {view : Exit → Option α} {view' : Exit → Option β}
    (hv : ∀ exit, view' (exit.renumber π) = (view exit).map k) :
    InStep ρ π k (leaveBy ctx demand view) (leaveBy ctx' demand view') := by
  refine bind (currentExit h) fun exit => bind_get fun s s' hs => ?_
  rw [hv]
  cases view exit with
  | none => exact rejectOperation h (by rw [hs.block]; rfl)
  | some a => exact bind_eq (record _ _) fun _ => pure a

theorem leaveByJump : InStep ρ π π.block (leaveByJump ctx) (leaveByJump ctx') :=
  leaveBy h .jump fun exit => by cases exit <;> rfl

theorem leaveByBranch : InStep ρ π (Branch.renumber π) (leaveByBranch ctx) (leaveByBranch ctx') :=
  leaveBy h .branch fun exit => by cases exit <;> rfl

theorem leaveByReturn :
    InStep ρ π (List.map π.value) (leaveByReturn ctx) (leaveByReturn ctx') :=
  leaveBy h .functionReturn fun exit => by cases exit <;> rfl

theorem leaveByMainExit : InStep ρ π id (leaveByMainExit ctx) (leaveByMainExit ctx') :=
  leaveBy h .mainExit fun exit => by cases exit <;> rfl

theorem leaveByTermination : InStep ρ π id (leaveByTermination ctx) (leaveByTermination ctx') :=
  leaveBy h .terminated fun exit => by cases exit <;> rfl

end Edge

section Expr

theorem resolve (name : String) : InStep ρ π id (resolve ctx name) (resolve ctx' name) := by
  have scopes : ctx'.scopes = ctx.scopes := congrArg Yul.Analysis.scopes h.analysis
  refine bind_get fun s s' hs => ?_
  rw [hs.scope, scopes]
  cases s.scope? with
  | none => exact rejectBlock h rfl
  | some scope =>
      dsimp only
      cases ctx.scopes.lookup scope name with
      | none => exact rejectBlock h rfl
      | some symbol => exact pure symbol

theorem resolveVariable (name : String) :
    InStep ρ π id (resolveVariable ctx name) (resolveVariable ctx' name) := by
  refine bind_eq (resolve h name) fun symbol => ?_
  cases symbol with
  | var x => exact pure x
  | func f => exact rejectBlock h rfl

theorem resolveFunction (name : String) :
    InStep ρ π id (resolveFunction ctx name) (resolveFunction ctx' name) := by
  refine bind_eq (resolve h name) fun symbol => ?_
  cases symbol with
  | func f => exact pure f
  | var x => exact rejectBlock h rfl

theorem readVariable (name : String) :
    InStep ρ π (·.renumber π) (readVariable ctx name) (readVariable ctx' name) := by
  refine bind_eq (resolveVariable h name) fun x => bind_get fun s s' hs => ?_
  refine orReject h rfl ?_
  rw [hs.bindings, Bindings.lookup_renumber]

theorem readLiteral (l : Literal) :
    InStep ρ π π.value (readLiteral ctx l) (readLiteral ctx' l) :=
  orReject h rfl (h.graph.literals l.value)

theorem readZero : InStep ρ π π.value (readZero ctx) (readZero ctx') :=
  orReject h rfl (h.graph.literals 0)

theorem reconcile (e : Expr) (candidates : ValueSet) (v : ValueId) :
    InStep ρ π id (reconcile ctx e candidates v)
      (reconcile ctx' e (candidates.renumber π) (π.value v)) := by
  have only : InStep ρ π id (Pure.pure (decide (candidates.only? = some v)) : Walk Bool)
      (Pure.pure (decide ((candidates.renumber π).only? = some (π.value v)))) := by
    simp only [ValueSet.only?_renumber]
    exact pure _
  cases e with
  | ident name =>
      refine bind_eq (resolveVariable h name) fun x => bind_get fun s s' hs => ?_
      dsimp only
      rw [hs.bindings, Bindings.lookup_renumber, Option.any_map, ← Bindings.renumber_narrow]
      refine ite ?_ (bind_eq (setBindings _) fun _ => pure true) (pure false)
      simp only [ValueSet.contains_renumber]
  | literal l => exact only
  | call name arguments => exact only

-- Operands with their candidates under other numbers.
theorem reconcileOperands (name : String) (i : Nat) (operands : List (Expr × ValueSet))
    (inputs : List ValueId) :
    InStep ρ π id (reconcileOperands ctx name i operands inputs)
      (reconcileOperands ctx' name i (operands.map fun p => (p.1, p.2.renumber π))
        (inputs.map π.value)) := by
  induction operands generalizing i inputs with
  | nil => exact pure ()
  | cons operand operands ih =>
      obtain ⟨e, candidates⟩ := operand
      cases inputs with
      | nil => exact pure ()
      | cons input inputs =>
          refine bind_eq (reconcile h e candidates input) fun fits => ?_
          exact ite Iff.rfl (ih (i + 1) inputs) (rejectOperation h rfl)

theorem checkCallee (name : String) (callee : Callee) (outputs : Nat) :
    InStep ρ π id (checkCallee ctx name callee outputs)
      (checkCallee ctx' name callee outputs) := by
  cases callee with
  | builtin b =>
      unfold Replay.checkCallee
      dsimp only
      rw [h.dialect]
      cases ctx.dialect.named? name with
      | none => exact rejectOperation h rfl
      | some builtin =>
          refine ite Iff.rfl (rejectOperation h rfl) ?_
          exact ite Iff.rfl (rejectOperation h rfl) (pure _)
  | function f canContinue =>
      unfold Replay.checkCallee
      dsimp only
      rw [h.dialect]
      refine ite Iff.rfl (rejectOperation h rfl) ?_
      refine bind_eq (resolveFunction h name) fun resolved => ?_
      refine ite Iff.rfl (rejectOperation h rfl) ?_
      refine bind_graphOf h rfl fun graph graph' hg => ?_
      rw [hg.returns]
      exact ite Iff.rfl (rejectOperation h rfl) (pure _)

theorem matchCall (name : String) (operands : List (Expr × ValueSet)) :
    InStep ρ π (Option.map (List.map (·.renumber π))) (matchCall ctx name operands)
      (matchCall ctx' name (operands.map fun p => (p.1, p.2.renumber π))) := by
  refine bind_get fun s s' hs => ?_
  rw [hs.block, hs.op]
  refine bind_blockData h fun data data' _ _ hm => ?_
  rw [hm.operations, List.getElem?_map, List.length_map]
  refine bind (orReject h rfl rfl) fun op => ?_
  dsimp only [Operation.renumber]
  simp only [List.length_map]
  refine ite Iff.rfl (rejectOperation h rfl) ?_
  refine bind_eq (reconcileOperands h name 0 operands op.inputs) fun _ => ?_
  refine bind_eq (checkCallee h name op.callee op.outputs.length) fun canContinue => ?_
  refine bind_eq (consume op _) fun _ => ite Iff.rfl ?_ ?_
  · have results : (op.outputs.map π.value).map ValueSet.single =
        (op.outputs.map ValueSet.single).map (·.renumber π) := by
      simp only [List.map_map, Function.comp_def, ValueSet.renumber_single]
    rw [results]
    exact pure (some _)
  · exact bind_eq (leaveByTermination h) fun _ => pure none

theorem oneValue (values? : Option (List ValueSet)) :
    InStep ρ π (Option.map (·.renumber π)) (oneValue ctx values?)
      (oneValue ctx' (values?.map (List.map (·.renumber π)))) := by
  match values? with
  | none => exact pure none
  | some [values] => exact pure (some values)
  | some [] => exact rejectOperation h rfl
  | some (_ :: _ :: rest) => exact rejectOperation h (by simp [Mismatch.renumber])

mutual
theorem replayExpr (e : Expr) :
    InStep ρ π (Option.map (List.map (·.renumber π))) (replayExpr ctx e) (replayExpr ctx' e) := by
  cases e with
  | ident name => exact bind (readVariable h name) fun values => pure (some [values])
  | literal l =>
      refine bind (readLiteral h l) fun v => ?_
      rw [← ValueSet.renumber_single]
      exact pure (some [ValueSet.single v])
  | call name arguments =>
      unfold Replay.replayExpr
      dsimp only
      rw [h.dialect]
      refine bind (replayArguments _ 0 arguments) fun operands? => ?_
      cases operands? with
      | none => exact pure none
      | some operands => exact matchCall h name operands
theorem replayArguments (skipped : Nat → Bool) (i : Nat) (arguments : List Expr) :
    InStep ρ π (Option.map (List.map fun p => (p.1, p.2.renumber π)))
      (replayArguments ctx skipped i arguments) (replayArguments ctx' skipped i arguments) := by
  cases arguments with
  | nil => exact pure (some [])
  | cons e rest =>
      refine bind (replayArguments skipped (i + 1) rest) fun operands? => ?_
      cases operands? with
      | none => exact pure none
      | some operands =>
          refine ite Iff.rfl (pure (some operands)) ?_
          refine bind (replayExpr e) fun values? => bind (oneValue h values?) fun value? => ?_
          cases value? with
          | none => exact pure none
          | some values => exact pure (some ((e, values) :: operands))
end

theorem replayOne (e : Expr) :
    InStep ρ π (Option.map (·.renumber π)) (replayOne ctx e) (replayOne ctx' e) :=
  bind (replayExpr h e) fun values? => oneValue h values?

end Expr

end InStep

end SsaReplay.Replay
