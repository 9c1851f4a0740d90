import SsaReplay.Proofs.Acceptance
import SsaReplay.Proofs.Monotonicity.Loop

namespace SsaReplay

namespace Replay

open SsaReplay.Graph (Cfg)
open SsaReplay.Yul (Definition Expr Stmt)

-- Values for several names, name by name.
abbrev ValuesBelow : List ValueSet → List ValueSet → Prop :=
  List.Forall₂ fun c C => ∀ v ∈ c, v ∈ C

namespace Follows

variable {ctx : Context}

theorem replayLoop {parts : LoopParts} (hbf : Frames True ctx parts.body)
    (hpf : Frames True ctx parts.post) (hb : Follows Eq parts.body parts.body)
    (hp : Follows Eq parts.post parts.post) :
    Follows Eq (replayLoop ctx parts) (replayLoop ctx parts) := by
  refine bind get fun s S hs => ?_
  intro u U r t hu h
  rw [hs.block]
  rcases iterate_mono hbf hpf hb hp hs.bindings ⟨hu.scope, hu.loops⟩ h with hun | ⟨T, hT, ht⟩
  · exact .inl hun
  · exact .inr ⟨r, T, hT, rfl, ht⟩

theorem replayFor {pre body post : Walk Bool} (condition : Expr) (postEmpty : Bool)
    (hbf : Frames True ctx body) (hqf : Frames True ctx post) (hp : Follows Eq pre pre)
    (hb : Follows Eq body body) (hq : Follows Eq post post) :
    Follows Eq (replayFor ctx pre condition body postEmpty post)
      (replayFor ctx pre condition body postEmpty post) := by
  refine bind_eq hp fun falls => ?_
  refine ite Iff.rfl (fun _ => ?_) fun _ => pure rfl
  refine bind get fun s S hs => ?_
  rw [hs.block]
  refine bind_eq leaveByJump fun header => ?_
  refine bind (carry s.block header) fun entry wider he => ?_
  refine bind_eq (advance s.block header he) fun _ => ?_
  cases condition with
  | literal l =>
      refine bind_eq (readLiteral l) fun _ => ?_
      exact ite Iff.rfl (fun _ => pure rfl) fun _ => replayLoop hbf hqf hb hq
  | ident name => exact replayLoop hbf hqf hb hq
  | call name arguments => exact replayLoop hbf hqf hb hq

theorem replayValues (count : Nat) (e : Expr) :
    Follows (Option.Rel ValuesBelow) (replayValues ctx count e) (replayValues ctx count e) := by
  refine bind (replayExpr e) ?_
  rintro _ _ (hv | _)
  · refine ite (by rw [hv.length_eq]) (fun _ => rejectOperation) fun _ => pure (.some ?_)
    exact hv.imp fun c C hc => hc.subset
  · exact pure .none

theorem replayBare (e : Expr) : Follows Eq (replayBare ctx e) (replayBare ctx e) := by
  refine bind (replayExpr e) ?_
  rintro _ _ (hv | _)
  · cases hv with
    | nil => exact pure rfl
    | cons => exact rejectOperation
  · exact pure rfl

theorem assignAll (names : List String) {values wider : List ValueSet}
    (hv : ValuesBelow values wider) :
    Follows Eq (assignAll ctx (names.zip values)) (assignAll ctx (names.zip wider)) := by
  induction hv generalizing names with
  | nil => cases names <;> exact pure rfl
  | @cons c C values wider hc _ ih =>
      cases names with
      | nil => exact pure rfl
      | cons name names =>
          refine bind_eq (resolveVariable name) fun x => ?_
          refine bind get fun s S hs => ?_
          exact bind_eq (setBindings (hs.bindings.assign x hc)) fun _ => ih names

theorem replayAssignment (names : List String) (e : Expr) :
    Follows Eq (replayAssignment ctx names e) (replayAssignment ctx names e) := by
  refine bind (replayValues names.length e) ?_
  rintro _ _ (hv | _)
  · exact bind_eq (assignAll names hv) fun _ => pure rfl
  · exact pure rfl

theorem defineAll (names : List String) {values wider : List ValueSet}
    (hv : ValuesBelow values wider) :
    Follows Eq (defineAll ctx (names.zip values)) (defineAll ctx (names.zip wider)) := by
  induction hv generalizing names with
  | nil => cases names <;> exact pure rfl
  | @cons c C values wider hc _ ih =>
      cases names with
      | nil => exact pure rfl
      | cons name names =>
          refine bind_eq (resolveVariable name) fun x => ?_
          refine bind get fun s S hs => ?_
          cases hd : s.bindings.define? x c with
          | none => exact rejectOperation
          | some b =>
              obtain ⟨B, hB, hb⟩ := hs.bindings.define? hc hd
              rw [hB]
              exact bind_eq (setBindings hb) fun _ => ih names

theorem initialValues (count : Nat) (value? : Option Expr) :
    Follows (Option.Rel ValuesBelow) (initialValues ctx count value?)
      (initialValues ctx count value?) := by
  cases value? with
  | some e => exact replayValues count e
  | none =>
      refine bind_eq readZero fun zero => pure (.some ?_)
      exact List.forall₂_same.mpr fun c _ v hv => hv

theorem replayLet (names : List String) (value? : Option Expr) :
    Follows Eq (replayLet ctx names value?) (replayLet ctx names value?) := by
  refine bind (initialValues names.length value?) ?_
  rintro _ _ (hv | _)
  · exact bind_eq (defineAll names hv) fun _ => pure rfl
  · exact pure rfl

theorem checkReturned (pairs : List (VariableId × ValueId)) :
    Follows Eq (checkReturned ctx pairs) (checkReturned ctx pairs) := by
  induction pairs with
  | nil => exact pure rfl
  | cons pair rest ih =>
      obtain ⟨x, v⟩ := pair
      refine bind get fun s S hs => ?_
      refine bind (orReject (hs.bindings.refines x)) fun held wider hsub => ?_
      by_cases hv : held.contains v = true
      · have hw : wider.contains v = true :=
          (ValueSet.contains_iff _ _).mpr (hsub v ((ValueSet.contains_iff _ _).mp hv))
        rw [if_pos hv, if_pos hw]
        exact bind_eq (setBindings (hs.bindings.narrow x v)) fun _ => ih
      · rw [if_neg hv]
        exact rejectOperation

theorem replayLeave : Follows Eq (replayLeave ctx) (replayLeave ctx) := by
  refine bind_eq leaveByReturn fun values => ?_
  refine ite Iff.rfl (fun _ => ?_) fun _ => ?_
  · exact bind get fun _ _ _ => rejectOperation
  · exact bind_eq (checkReturned _) fun _ => pure rfl

theorem bindSignature (pairs : List ((VariableId × ValueSet) × String)) :
    Follows Eq (bindSignature ctx pairs) (bindSignature ctx pairs) := by
  induction pairs with
  | nil => exact pure rfl
  | cons pair rest ih =>
      obtain ⟨⟨graphVar, values⟩, name⟩ := pair
      refine bind_eq (resolveVariable name) fun x => ?_
      refine ite Iff.rfl (fun _ => reject) fun _ => ?_
      refine bind get fun s S hs => ?_
      cases hd : s.bindings.define? x values with
      | none => exact reject
      | some b =>
          obtain ⟨B, hB, hb⟩ := hs.bindings.define? (fun _ hv => hv) hd
          rw [hB]
          exact bind_eq (setBindings hb) fun _ => ih

theorem bindReturns (returns : List String) :
    Follows Eq (bindReturns ctx returns) (bindReturns ctx returns) :=
  ite Iff.rfl (fun _ => pure rfl) fun _ => bind_eq readZero fun _ => bindSignature _

theorem replayFunction (d : Definition) {body : Walk Bool} (hb : Follows Eq body body) :
    Follows Eq (replayFunction ctx d body) (replayFunction ctx d body) := by
  refine bind_eq record fun _ => ?_
  refine bind_eq (modify fun s S hs => ⟨rfl, hs.block, hs.op, hs.bindings, hs.loops⟩) fun _ => ?_
  refine bind_eq (bindSignature _) fun _ => ?_
  refine bind_eq (bindReturns d.returns) fun _ => ?_
  refine bind_eq hb fun falls => ?_
  refine ite Iff.rfl (fun _ => ?_) fun _ => pure rfl
  exact bind_eq replayLeave fun _ => pure rfl

-- Another graph is replayed from its start, whatever is known here.
theorem apart (graph : Cfg) {act : Walk Unit} (ha : Follows Eq act act) :
    Follows Eq (apart graph act) (apart graph act) := by
  intro s S u t hs h
  obtain ⟨v, hv, rfl⟩ := apart_eq_ok.mp h
  have hstart : (s.apartOn graph).Below (S.apartOn graph) := ⟨rfl, rfl, rfl, .refl _, .nil⟩
  rcases ha _ _ _ _ hstart hv with hun | ⟨_, V, hV, rfl, -⟩
  · obtain ⟨f, w, hw, hcode⟩ := hun
    refine .inl ⟨f, { S with warnings := w.warnings, history := w.history }, ?_, hcode⟩
    unfold State.apartOn at hw
    unfold Replay.apart
    rw [hw]
  · exact .inr ⟨u, _, apart_eq_ok.mpr ⟨V, hV, rfl⟩, rfl, hs.scope, hs.block, hs.op, hs.bindings,
      hs.loops⟩

theorem replayDefinition (d : Definition) {body : Context → Walk Bool}
    (hb : ∀ inner, Follows Eq (body inner) (body inner)) :
    Follows Eq (replayDefinition ctx d body) (replayDefinition ctx d body) := by
  refine bind_eq (resolveFunction d.name) fun f => ?_
  cases ctx.flow.graphOf? f with
  | none => exact reject
  | some graph => exact ite Iff.rfl (fun _ => reject) fun _ => apart graph (replayFunction d (hb _))

theorem inScope (scope : ScopeId) {act : Walk Bool} (ha : Follows Eq act act) :
    Follows Eq (inScope scope act) (inScope scope act) := by
  refine bind get fun s S hs => bind_eq (modify fun t T ht => ?_) fun _ =>
    ha.closing fun t T ht => ?_
  · exact ⟨rfl, ht.block, ht.op, ht.bindings, ht.loops⟩
  · exact ⟨hs.scope, ht.block, ht.op, ht.bindings, ht.loops⟩

theorem inBlock (id : NodeId) {body : Walk Bool} (hb : Follows Eq body body) :
    Follows Eq (inBlock ctx id body) (inBlock ctx id body) := by
  unfold Replay.inBlock
  cases ctx.analysis.scopeOf? id with
  | none => exact rejectBlock
  | some scope => exact inScope scope hb

theorem warnUnreachable (id : NodeId) (rest : List Stmt) :
    Follows Eq (warnUnreachable ctx id rest) (warnUnreachable ctx id rest) := by
  refine ite Iff.rfl (fun _ => ?_) fun _ => pure rfl
  refine bind get fun s S hs => bind_eq record fun _ => modify fun u U hu => ?_
  exact ⟨hu.scope, hu.block, hu.op, hu.bindings, hu.loops⟩

theorem thenOthers (id : NodeId) (rest : List Stmt) {first others : Walk Bool}
    (hf : Follows Eq first first) (ho : Follows Eq others others) :
    Follows Eq (thenOthers ctx id rest first others) (thenOthers ctx id rest first others) := by
  refine bind_eq hf fun falls => ?_
  refine ite Iff.rfl (fun _ => ho) fun _ => ?_
  exact bind_eq (warnUnreachable id rest) fun _ => pure rfl

end Follows

-- More candidates do not take a success away. Beside it stands what a replay leaves
-- alone: a loop needs to find around it what was there before its passes.
theorem follows_compositional :
    Compositional True fun ctx body => Frames True ctx body ∧ Follows Eq body body where
  done ctx := ⟨framed_compositional.done ctx, .pure rfl⟩
  expr ctx e := ⟨framed_compositional.expr ctx e, .replayBare e⟩
  assign ctx names e := ⟨framed_compositional.assign ctx names e, .replayAssignment names e⟩
  letDecl ctx names value? :=
    ⟨framed_compositional.letDecl ctx names value?, .replayLet names value?⟩
  leave ctx := ⟨framed_compositional.leave ctx, .replayLeave⟩
  loopJump ctx way := ⟨framed_compositional.loopJump ctx way, .replayLoopJump way⟩
  cond ctx condition body hb :=
    ⟨framed_compositional.cond ctx condition body hb.1, .replayIf condition hb.2⟩
  switch hs ctx e arms ha :=
    ⟨framed_compositional.switch hs ctx e arms fun arm h => (ha arm h).1,
      .replaySwitch e fun arm h => (ha arm h).2⟩
  forLoop ctx pre condition body postEmpty post hp hb hq :=
    ⟨framed_compositional.forLoop ctx pre condition body postEmpty post hp.1 hb.1 hq.1,
      .replayFor condition postEmpty hb.1 hq.1 hp.2 hb.2 hq.2⟩
  block ctx id body hb := ⟨framed_compositional.block ctx id body hb.1, .inBlock id hb.2⟩
  definition ctx d others hs hd ho :=
    ⟨framed_compositional.definition ctx d others hs (fun inner => (hd inner).1) ho.1,
      .bind_eq (.replayDefinition d fun inner => (hd inner).2) fun _ => ho.2⟩
  next ctx id rest first others hf ho :=
    ⟨framed_compositional.next ctx id rest first others hf.1 ho.1,
      .thenOthers id rest hf.2 ho.2⟩

-- A statement that is replayed from some bindings is replayed from wider ones as well,
-- to the same place and with wider bindings there and on all edges noted, unless a loop
-- does not settle within the passes allowed.
theorem replayStmt_mono (ctx : Context) (st : Stmt) (s : State) (wider : Bindings)
    (below : s.bindings.Below wider) {r : Bool} {t : State} (h : replayStmt ctx st s = .ok r t) :
    Unsettled (replayStmt ctx st { s with bindings := wider }) ∨
      ∃ T, replayStmt ctx st { s with bindings := wider } = .ok r T ∧ t.Below T := by
  have frame : ∀ f : LoopFrame, f.Below f := fun f =>
    ⟨rfl, fun _ => ⟨rfl, List.forall₂_same.mpr fun b _ => .refl b⟩,
      List.forall₂_same.mpr fun b _ => .refl b⟩
  have start : s.Below { s with bindings := wider } :=
    ⟨rfl, rfl, rfl, below, List.forall₂_same.mpr fun f _ => frame f⟩
  have follows := (follows_compositional.stmt ctx st (.inl trivial)).2
  rcases follows _ _ _ _ start h with hun | ⟨_, T, hT, rfl, ht⟩
  · exact .inl hun
  · exact .inr ⟨T, hT, ht⟩

end Replay

namespace Counting

open Replay

-- The loop is about to be entered, and the size of the input is the count.
def beforeLoop : State :=
  { State.start graph with
    scope? := program.2.scopeOf? program.1.id, op := 1
    bindings := Bindings.empty.assign ⟨0⟩ (.single ⟨0⟩) }

-- The count may be the constant one as well.
def wider : Bindings := Bindings.empty.assign ⟨0⟩ (.ofList [⟨0⟩, ⟨1⟩])

def loop : Yul.Stmt := program.1.statements.getLastD .leave

theorem replayStmt_mono_here :
    ∃ r t, replayStmt (subject.context .default) loop beforeLoop = .ok r t ∧
      (Unsettled (replayStmt (subject.context .default) loop
        { beforeLoop with bindings := wider }) ∨
        ∃ T, replayStmt (subject.context .default) loop { beforeLoop with bindings := wider } =
          .ok r T ∧ t.Below T) := by
  have below : beforeLoop.bindings.Below wider := by
    refine (Bindings.Below.refl .empty).assign ⟨0⟩ fun v hv => ?_
    rw [(ValueSet.mem_single v _).mp hv]
    decide
  have replayed :
      (after? (replayStmt (subject.context .default) loop) beforeLoop).isSome = true := by
    decide +kernel
  obtain ⟨t, ht⟩ := Option.isSome_iff_exists.mp replayed
  have h := after?_eq_some.mp ht
  exact ⟨true, t, h, replayStmt_mono _ loop beforeLoop wider below h⟩

end Counting

end SsaReplay
