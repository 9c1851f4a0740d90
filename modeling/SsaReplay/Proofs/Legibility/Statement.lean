import SsaReplay.Proofs.Composition
import SsaReplay.Proofs.Legibility.Walk

namespace SsaReplay

namespace Replay

open SsaReplay.Graph (Cfg)
open SsaReplay.Yul (Definition Expr Literal Stmt)

variable {r : Reader} {ctx : Context} {depth : Nat}

namespace LoopFrame

variable {g : Cfg} {f : LoopFrame} {source target : BlockId}

theorem grounded_start (header : BlockId) : (start header).Grounded g := by
  intro way source target h
  cases way <;> exact absurd h (by simp [start, edges, LoopEdges.empty])

theorem Grounded.note (h : f.Grounded g) (way : LoopWay) (hs : g.Has source) (ht : g.Has target)
    (bindings : Bindings) : (f.note way source target bindings).Grounded g := by
  intro other source' target' he
  rcases first?_note he with hf | hnew
  · exact h other source' target' hf
  · obtain ⟨rfl, rfl⟩ := Prod.mk.inj hnew
    exact ⟨hs, ht⟩

-- Only where the noted edges lead matters, not the bindings along them.
theorem Grounded.congr {f' : LoopFrame} (h : f.Grounded g)
    (exits : f'.exits.first? = f.exits.first?)
    (continues : f'.continues.first? = f.continues.first?) : f'.Grounded g := by
  intro way
  cases way with
  | exits => exact exits ▸ h .exits
  | continues => exact continues ▸ h .continues

end LoopFrame

namespace Tells

section Loops

theorem innermost : Tells r ctx (depth + 1) innermost (LoopFrame.Grounded ctx.graph) := by
  refine bind get fun s hs => ?_
  have hlength := hs.nesting
  cases hl : s.loops with
  | nil =>
      rw [hl] at hlength
      exact absurd hlength (by simp)
  | cons f outer => exact pure (hs.frames f (hl ▸ List.mem_cons_self))

theorem setInnermost {frame : LoopFrame} (hf : frame.Grounded ctx.graph) :
    Tells r ctx (depth + 1) (setInnermost frame) fun _ => True := by
  intro s hs
  refine .bind (.get ?_)
  obtain ⟨here, nesting, frames⟩ := hs
  cases hl : s.loops with
  | nil =>
      rw [hl] at nesting
      exact absurd nesting (by simp)
  | cons f outer =>
      rw [hl] at nesting frames
      have outside := (List.forall_mem_cons.mp frames).2
      exact .modify id ⟨⟨here, nesting, List.forall_mem_cons.mpr ⟨hf, outside⟩⟩, trivial⟩

-- Inside there is one loop more. Afterwards its frame is the result.
theorem withLoop {header : BlockId} {act : Walk Unit}
    (ha : Tells r ctx (depth + 1) act fun _ => True) :
    Tells r ctx depth (withLoop header act) (LoopFrame.Grounded ctx.graph) := by
  intro s hs
  have entered : Footing ctx.graph (depth + 1) { s with loops := .start header :: s.loops } :=
    ⟨hs.here, congrArg Nat.succ hs.nesting,
      List.forall_mem_cons.mpr ⟨LoopFrame.grounded_start header, hs.frames⟩⟩
  refine .bind (.modify id (.closing (fun _ h => h) (.bind ((ha _ entered).mono fun _ t ht => ?_))))
  refine (innermost t ht.1).mono fun frame u hu => ⟨?_, hu.2⟩
  have nesting : u.loops.tail.length = depth := by
    rw [List.length_tail, hu.1.nesting, Nat.add_sub_cancel]
  exact ⟨hu.1.here, nesting, fun f h => hu.1.frames f (List.mem_of_mem_tail h)⟩

end Loops

variable (legible : ctx.Legible r)

include legible

section Branch

theorem replayIf (condition : Expr) {body : Walk Bool}
    (hb : Tells r ctx depth body fun _ => True) :
    Tells r ctx depth (replayIf ctx condition body) fun _ => True := by
  refine bind ((congruence legible).replayOne condition) fun values? _ => ?_
  cases values? with
  | none => exact pure trivial
  | some candidates =>
      refine bind (leaveByBranch legible) fun branch _ => ?_
      refine bind ((closed legible).reconcileCondition _ _ _) fun _ _ => bind get fun s _ => ?_
      refine bind (carry legible) fun skipping hzero => bind get fun u _ => ?_
      refine bind (advance legible) fun _ _ => bind hb fun falls _ => ite (fun _ => ?_) fun _ => ?_
      · refine bind (leaveByJump legible) fun target _ => ?_
        refine ite (fun _ => rejectOperation legible rfl) fun _ => bind get fun w _ => ?_
        refine bind (carry legible) fun running _ => bind (merge legible hzero) fun merged _ => ?_
        refine bind (checkPhiOwnership legible) fun _ _ => ?_
        exact bind (advance legible) fun _ _ => pure trivial
      · exact bind (advance legible) fun _ _ => pure trivial

theorem replayArm {body : Walk Bool} {join : SwitchJoin} (hj : Grounded ctx.graph join.edge?)
    (hb : Tells r ctx depth body fun _ => True) :
    Tells r ctx depth (replayArm ctx body join) fun next => Grounded ctx.graph next.edge? := by
  refine bind hb fun falls _ => ite (fun _ => bind get fun s hs => ?_) fun _ => pure hj
  refine bind ((closed legible).leaveToJoin (leaveByJump legible) join) fun target _ =>
    bind (carry legible) fun b ht => pure ?_
  intro source' target' he
  obtain ⟨rfl, rfl⟩ := Prod.mk.inj (Option.some.inj he)
  exact ⟨hs.here, ht⟩

theorem replayCase (e : Expr) (candidates : ValueSet) (value : Literal) {body : Walk Bool}
    {join : SwitchJoin} (hj : Grounded ctx.graph join.edge?)
    (hb : Tells r ctx depth body fun _ => True) :
    Tells r ctx depth (replayCase ctx e candidates value body join) fun next =>
      Grounded ctx.graph next.edge? := by
  have compared : Tells r ctx depth (Replay.replayComparison ctx e candidates value)
      fun _ => True :=
    (closed legible).replayComparison (fun _ => (blockData legible).forget) consume e _ _
  refine bind compared fun result _ => ?_
  refine bind (leaveByBranch legible) fun branch _ => ?_
  refine ite (fun _ => rejectOperation legible rfl) fun _ => bind get fun s _ => ?_
  refine bind (carry legible) fun otherwise _ => bind get fun u _ => ?_
  refine bind (advance legible) fun _ _ => bind (replayArm legible hj hb) fun next hnext => ?_
  exact bind (advance legible) fun _ _ => pure hnext

theorem replayCases (e : Expr) (candidates : ValueSet) {arms : List Arm} {join : SwitchJoin}
    (hj : Grounded ctx.graph join.edge?)
    (ha : ∀ arm ∈ arms, Tells r ctx depth arm.2 fun _ => True) :
    Tells r ctx depth (replayCases ctx e candidates arms join) fun last =>
      Grounded ctx.graph last.edge? := by
  induction arms generalizing join with
  | nil => exact pure hj
  | cons arm rest ih =>
      obtain ⟨value?, body⟩ := arm
      obtain ⟨hfirst, hrest⟩ := List.forall_mem_cons.mp ha
      cases value? with
      | none => exact rejectBlock legible rfl
      | some value =>
          exact bind (replayCase legible e candidates value hj hfirst) fun next hnext =>
            ih hnext hrest

theorem settleSwitch {join : SwitchJoin} (hj : Grounded ctx.graph join.edge?) :
    Tells r ctx depth (settleSwitch ctx join) fun _ => True := by
  unfold Replay.settleSwitch
  cases he : join.edge? with
  | none => exact pure trivial
  | some edge =>
      obtain ⟨source, target⟩ := edge
      refine bind (merge legible (hj source target he).2) fun merged _ => ?_
      refine bind (checkPhiOwnership legible) fun _ _ => bind get fun s _ => ?_
      refine ite (fun _ => ?_) fun _ => ?_
      · exact bind (advance legible) fun _ _ => pure trivial
      · exact bind (setBindings merged) fun _ _ => pure trivial

theorem replayFallback {default? : Option (Walk Bool)} {join : SwitchJoin}
    (hj : Grounded ctx.graph join.edge?)
    (hd : ∀ body ∈ default?, Tells r ctx depth body fun _ => True) :
    Tells r ctx depth (replayFallback ctx default? join) fun _ => True := by
  unfold Replay.replayFallback
  cases default? with
  | some body =>
      exact bind (replayArm legible hj (hd body rfl)) fun next hnext => settleSwitch legible hnext
  | none =>
      cases he : join.edge? with
      | none => exact pure trivial
      | some edge =>
          refine bind get fun s _ => ite (fun _ => settleSwitch legible (he ▸ hj)) fun _ => ?_
          exact bind (replayArm legible hj (pure trivial)) fun next hnext =>
            settleSwitch legible hnext

theorem replaySwitch (e : Expr) {arms : List Arm}
    (ha : ∀ arm ∈ arms, Tells r ctx depth arm.2 fun _ => True) :
    Tells r ctx depth (replaySwitch ctx e arms) fun _ => True := by
  refine bind ((congruence legible).replayOne e) fun values? _ => ?_
  cases values? with
  | none => exact pure trivial
  | some candidates =>
      rcases hsplit : splitDefault arms with ⟨cases, default?⟩
      obtain ⟨hcases, hdefault⟩ := mem_of_splitDefault hsplit
      have hlast : ∀ body ∈ default?, Tells r ctx depth body fun _ => True :=
        fun body h => ha _ (hdefault body h)
      cases cases with
      | nil =>
          cases default? with
          | none => exact pure trivial
          | some body => exact hlast body rfl
      | cons first others =>
          have unsettled : Grounded ctx.graph SwitchJoin.none.edge? :=
            fun _ _ h => absurd h (Option.some_ne_none _).symm
          refine bind (replayCases legible e candidates unsettled fun arm h => ?_) fun join hj => ?_
          · exact ha arm (hcases arm h)
          · exact replayFallback legible hj hlast

end Branch

section Loops

variable {source target header : BlockId}

theorem recordEdge (way : LoopWay) (b : Bindings) :
    Tells r ctx (depth + 1) (recordEdge ctx way source target b) fun _ => True := by
  refine bind (checkEdge legible) fun _ edge => bind innermost fun frame hf => ?_
  refine ite (fun _ => reject legible ?_ edge.1) fun _ => bind (record rfl) fun _ _ => ?_
  · cases way <;> rfl
  · exact setInnermost (hf.note way edge.1 edge.2 b)

theorem jumpInLoop (way : LoopWay) :
    Tells r ctx (depth + 1) (jumpInLoop ctx way) fun _ => True := by
  refine bind get fun s _ => bind (leaveByJump legible) fun target _ => ?_
  exact bind (carry legible) fun b _ => recordEdge legible way b

theorem replayLoopJump (way : LoopWay) :
    Tells r ctx depth (replayLoopJump ctx way) fun _ => True := by
  have outside : (Mismatch.outsideLoop way).Worded r := by cases way <;> rfl
  refine bind get fun s hs => ite (fun _ => rejectOperation legible outside) fun hopen => ?_
  cases depth with
  | zero => exact absurd (List.isEmpty_iff.mpr (List.length_eq_zero_iff.mp hs.nesting)) hopen
  | succ depth => exact bind (jumpInLoop legible way) fun _ _ => pure trivial

theorem replayLoopCondition (condition? : Option Expr) :
    Tells r ctx (depth + 1) (replayLoopCondition ctx condition?) fun _ => True := by
  cases condition? with
  | none => exact pure trivial
  | some e =>
      refine bind ((congruence legible).replayOne e) fun values? _ => ?_
      cases values? with
      | none => exact pure trivial
      | some candidates =>
          refine bind (leaveByBranch legible) fun branch _ => ?_
          refine bind ((closed legible).reconcileCondition _ _ _) fun _ _ => bind get fun s _ => ?_
          refine bind (carry legible) fun leaving _ => ?_
          refine bind (recordEdge legible .exits leaving) fun _ _ => bind get fun u _ => ?_
          exact bind (advance legible) fun _ _ => pure trivial

theorem replayPost {post : Walk Bool} (hp : Tells r ctx (depth + 1) post fun _ => True) :
    Tells r ctx (depth + 1) (replayPost ctx header post) fun _ => True := by
  refine bind hp fun falls _ => ite (fun _ => bind get fun s _ => ?_) fun _ => pure trivial
  refine bind (leaveByJump legible) fun target _ => ?_
  refine ite (fun _ => rejectOperation legible rfl) fun _ => bind (checkEdge legible) fun _ _ => ?_
  refine bind (carry legible) fun b _ => bind innermost fun frame hf => setInnermost ?_
  exact hf.congr rfl rfl

theorem replayContinues {postEmpty : Bool} {post : Walk Bool}
    (hp : Tells r ctx (depth + 1) post fun _ => True) :
    Tells r ctx (depth + 1) (replayContinues ctx header postEmpty post) fun _ => True := by
  refine bind innermost fun frame hf => ?_
  cases he : frame.continues.first? with
  | none => exact pure trivial
  | some edge =>
      obtain ⟨source, target⟩ := edge
      obtain ⟨hs, ht⟩ := hf .continues source target he
      refine ite (fun _ => ite (fun _ => setInnermost ?_) fun _ => ?_) fun _ => ?_
      · exact hf.congr rfl rfl
      · exact reject legible rfl hs
      · refine bind (setInnermost (hf.congr rfl rfl)) fun _ _ => ?_
        refine bind (merge legible ht) fun merged _ => ?_
        refine bind (checkPhiOwnership legible) fun _ _ => bind (advance legible) fun _ _ => ?_
        exact replayPost legible hp

theorem replayPass {parts : LoopParts} (hb : Tells r ctx (depth + 1) parts.body fun _ => True)
    (hp : Tells r ctx (depth + 1) parts.post fun _ => True) :
    Tells r ctx (depth + 1) (replayPass ctx header parts) fun _ => True := by
  refine bind (replayLoopCondition legible _) fun tested _ => ?_
  refine ite (fun _ => ?_) fun _ => pure trivial
  refine bind hb fun falls _ => ite (fun _ => ?_) fun _ => replayContinues legible hp
  exact bind (jumpInLoop legible .continues) fun _ _ => replayContinues legible hp

theorem leaveLoop {frame : LoopFrame} (hf : frame.Grounded ctx.graph) :
    Tells r ctx depth (leaveLoop ctx frame.exits) fun _ => True := by
  unfold Replay.leaveLoop
  cases he : frame.exits.first? with
  | none => exact pure trivial
  | some edge =>
      obtain ⟨source, target⟩ := edge
      refine bind (merge legible (hf .exits source target he).2) fun merged _ => ?_
      refine bind (checkPhiOwnership legible) fun _ _ => ?_
      exact bind (advance legible) fun _ _ => pure trivial

-- The header exists, so there is something to show however the passes come out.
theorem iterate {parts : LoopParts} (hb : Tells r ctx (depth + 1) parts.body fun _ => True)
    (hp : Tells r ctx (depth + 1) parts.post fun _ => True) (hh : ctx.graph.Has header)
    (warnings remaining iteration : Nat) (entry : Bindings) :
    Tells r ctx depth (iterate ctx header warnings parts remaining iteration entry)
      fun _ => True := by
  induction remaining generalizing iteration entry with
  | zero => exact reject legible rfl hh
  | succ remaining ih =>
      refine bind (modify (fun _ => rfl) fun s hs => ?_) fun _ _ => bind (record rfl) fun _ _ => ?_
      · exact ⟨hh, hs.nesting, hs.frames⟩
      · refine bind (withLoop (replayPass legible hb hp)) fun frame hf => ?_
        refine bind (merge legible hh) fun refined _ => ite (fun _ => ?_) fun _ => ih _ _
        exact bind (checkPhiOwnership legible) fun _ _ => leaveLoop legible hf

theorem replayLoop {parts : LoopParts} (hb : Tells r ctx (depth + 1) parts.body fun _ => True)
    (hp : Tells r ctx (depth + 1) parts.post fun _ => True) :
    Tells r ctx depth (replayLoop ctx parts) fun _ => True :=
  bind get fun _ hs => iterate legible hb hp hs.here _ _ _ _

theorem replayFor (condition : Expr) {pre body post : Walk Bool} {postEmpty : Bool}
    (hpre : Tells r ctx depth pre fun _ => True)
    (hb : Tells r ctx (depth + 1) body fun _ => True)
    (hp : Tells r ctx (depth + 1) post fun _ => True) :
    Tells r ctx depth (replayFor ctx pre condition body postEmpty post) fun _ => True := by
  refine bind hpre fun falls _ => ite (fun _ => bind get fun s _ => ?_) fun _ => pure trivial
  refine bind (leaveByJump legible) fun header _ => bind (carry legible) fun entry _ => ?_
  refine bind (advance legible) fun _ _ => ?_
  cases condition with
  | literal l =>
      refine bind ((closed legible).readLiteral l) fun _ _ =>
        ite (fun _ => pure trivial) fun _ => ?_
      exact replayLoop legible hb hp
  | ident name => exact replayLoop legible hb hp
  | call name arguments => exact replayLoop legible hb hp

end Loops

section Statements

theorem replayLeave : Tells r ctx depth (replayLeave ctx) fun _ => True :=
  (closed legible).replayLeave (leaveBy legible)

-- The body of a function starts at the entry of its own graph, outside of all loops.
theorem replayDefinition {d : Definition} {body : Context → Walk Bool}
    (hb : ∀ inner, inner.Legible r → Tells r inner 0 (body inner) fun _ => True) :
    Tells r ctx depth (replayDefinition ctx d body) fun _ => True := by
  refine (closed legible).replayDefinition d (y := body) fun f graph hg s hs => ?_
  have inner := legible.within hg
  have entry : graph.Has graph.entry := Option.isSome_iff_exists.mp inner.graph.entry
  have replayed := (closed inner).replayFunction d (record rfl) (fun _ => ?_) (leaveBy inner)
    (y := body (ctx.within f graph)) (hb _ inner) _ (Footing.apartOn entry s)
  · refine .apart id (fun _ h => h) (replayed.mono fun _ _ _ => trivial) fun _ _ => ⟨?_, trivial⟩
    exact ⟨hs.here, hs.nesting, hs.frames⟩
  · exact modify (fun _ => rfl) fun s hs => ⟨hs.here, hs.nesting, hs.frames⟩

theorem inBlock (id : NodeId) {body : Walk Bool} (hb : Tells r ctx depth body fun _ => True) :
    Tells r ctx depth (inBlock ctx id body) fun _ => True :=
  (closed legible).inBlock id (y := body) (fun _ => rejectBlock legible rfl) fun _ => inScope hb

theorem thenOthers (id : NodeId) (rest : List Stmt) {first others : Walk Bool}
    (hf : Tells r ctx depth first fun _ => True) (ho : Tells r ctx depth others fun _ => True) :
    Tells r ctx depth (thenOthers ctx id rest first others) fun _ => True :=
  (closed legible).thenOthers id rest (y := first) (v := others)
    (ite (fun _ => warnBlock legible rfl) fun _ => pure trivial) hf ho

end Statements

end Tells

end Replay

end SsaReplay
