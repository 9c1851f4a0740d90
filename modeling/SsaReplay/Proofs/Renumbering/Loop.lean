import SsaReplay.Proofs.Renumbering.Branch
import SsaReplay.Replay.Loop

namespace SsaReplay.Replay

open SsaReplay.Yul (Expr)

namespace LoopFrame

variable (f : LoopFrame) (π : Renumbering)

theorem edges_renumber (way : LoopWay) : (f.renumber π).edges way = (f.edges way).renumber π := by
  cases way <;> rfl

theorem renumber_setEdges (e : LoopEdges) (way : LoopWay) :
    (f.setEdges e way).renumber π = (f.renumber π).setEdges (e.renumber π) way := by
  cases way <;> rfl

end LoopFrame

-- The parts of one loop, for two replays in step.
structure PartsInStep (ρ : Option FunctionId → Renumbering) (π : Renumbering)
    (parts parts' : LoopParts) : Prop where
  condition : parts'.condition? = parts.condition?
  body : InStep ρ π id parts.body parts'.body
  postEmpty : parts'.postEmpty = parts.postEmpty
  post : InStep ρ π id parts.post parts'.post

namespace InStep

variable {ρ : Option FunctionId → Renumbering} {π : Renumbering} {ctx ctx' : Context}

theorem innermost : InStep ρ π (·.renumber π) innermost innermost := by
  refine bind_get fun s s' hs => ?_
  rw [hs.loops]
  cases s.loops with
  | nil => exact noOpenLoop
  | cons frame outer => exact pure frame

theorem setInnermost (frame : LoopFrame) :
    InStep ρ π id (setInnermost frame) (setInnermost (frame.renumber π)) := by
  refine bind_get fun s s' hs => ?_
  rw [hs.loops]
  cases s.loops with
  | nil => exact noOpenLoop
  | cons old outer =>
      exact modify fun t t' ht => ⟨ht.scope, ht.block, ht.op, ht.bindings, rfl⟩

theorem withLoop (header : BlockId) {act act' : Walk Unit} (ha : InStep ρ π id act act') :
    InStep ρ π (·.renumber π) (withLoop header act) (withLoop (π.block header) act') := by
  refine bind_eq (modify fun s s' hs => ?_) fun _ =>
    (bind_eq ha fun _ => innermost).closing fun t t' ht => ?_
  · exact ⟨hs.scope, hs.block, hs.op, hs.bindings, congrArg (_ :: ·) hs.loops⟩
  · refine ⟨ht.scope, ht.block, ht.op, ht.bindings, ?_⟩
    rw [ht.loops, List.map_tail]

theorem rewind (header : BlockId) (warnings warnings' : Nat) (entry : Bindings) :
    InStep ρ π id (rewind header warnings entry)
      (rewind (π.block header) warnings' (entry.renumber π)) :=
  modify fun _ _ hs => ⟨hs.scope, rfl, rfl, rfl, hs.loops⟩

variable (h : ContextMirrors ρ π ctx ctx')

include h

theorem recordEdge (way : LoopWay) (source target : BlockId) (b : Bindings) :
    InStep ρ π id (recordEdge ctx way source target b)
      (recordEdge ctx' way (π.block source) (π.block target) (b.renumber π)) := by
  refine bind_eq (checkEdge h source target) fun _ => bind innermost fun frame => ?_
  dsimp only
  rw [LoopFrame.edges_renumber]
  generalize frame.edges way = edges
  obtain ⟨first?, bindings⟩ := edges
  have first : (first?.map fun edge => (π.block edge.1, π.block edge.2)).getD
      (π.block source, π.block target) =
        (π.block (first?.getD (source, target)).1, π.block (first?.getD (source, target)).2) := by
    cases first? <;> rfl
  simp only [LoopEdges.renumber, first]
  refine ite π.block.injective.ne_iff (rejectAt h rfl rfl) ?_
  refine bind_eq (record _ _) fun _ => ?_
  have noted := frame.renumber_setEdges π ⟨some (first?.getD (source, target)), bindings ++ [b]⟩ way
  rw [LoopEdges.renumber, List.map_append, List.map_singleton] at noted
  exact noted ▸ setInnermost _

theorem jumpInLoop (way : LoopWay) : InStep ρ π id (jumpInLoop ctx way) (jumpInLoop ctx' way) := by
  refine bind_get fun s s' hs => ?_
  rw [hs.block]
  refine bind (leaveByJump h) fun target => ?_
  exact bind (carry h s.block target) fun b => recordEdge h way s.block target b

theorem replayLoopJump (way : LoopWay) :
    InStep ρ π id (replayLoopJump ctx way) (replayLoopJump ctx' way) := by
  refine bind_get fun s s' hs => ?_
  rw [hs.loops, List.isEmpty_map]
  exact ite Iff.rfl (rejectOperation h rfl) (bind_eq (jumpInLoop h way) fun _ => pure false)

theorem replayLoopCondition (condition? : Option Expr) :
    InStep ρ π id (replayLoopCondition ctx condition?) (replayLoopCondition ctx' condition?) := by
  cases condition? with
  | none => exact pure true
  | some e =>
      refine bind (replayOne h e) fun candidates? => ?_
      cases candidates? with
      | none => exact pure false
      | some candidates =>
          refine bind (leaveByBranch h) fun branch => ?_
          refine bind_eq (reconcileCondition h e candidates branch.condition) fun _ => ?_
          refine bind_get fun s s' hs => ?_
          rw [hs.block]
          refine bind (carry h s.block branch.zero) fun leaving => ?_
          refine bind_eq (recordEdge h .exits s.block branch.zero leaving) fun _ => ?_
          refine bind_get fun u u' hu => ?_
          rw [hu.bindings]
          exact bind_eq (advance h s.block branch.nonZero u.bindings) fun _ => pure true

theorem replayPost (header : BlockId) {post post' : Walk Bool} (hp : InStep ρ π id post post') :
    InStep ρ π id (replayPost ctx header post) (replayPost ctx' (π.block header) post') := by
  refine bind_eq hp fun falls => ite Iff.rfl ?_ (pure ())
  refine bind_get fun s s' hs => ?_
  rw [hs.block]
  refine bind (leaveByJump h) fun target => ?_
  refine ite π.block.injective.ne_iff (rejectOperation h rfl) ?_
  refine bind_eq (checkEdge h s.block header) fun _ => ?_
  refine bind (carry h s.block header) fun b => bind innermost fun frame => ?_
  have latched : LoopFrame.renumber { frame with backEdges := frame.backEdges ++ [b] } π =
      { frame.renumber π with backEdges := (frame.renumber π).backEdges ++ [b.renumber π] } := by
    rw [LoopFrame.renumber, List.map_append, List.map_singleton]
    rfl
  exact latched ▸ setInnermost _

theorem replayContinues (header : BlockId) (postEmpty : Bool) {post post' : Walk Bool}
    (hp : InStep ρ π id post post') :
    InStep ρ π id (replayContinues ctx header postEmpty post)
      (replayContinues ctx' (π.block header) postEmpty post') := by
  refine bind innermost fun frame => ?_
  obtain ⟨frameHeader, exits, ⟨first?, bindings⟩, backEdges⟩ := frame
  cases first? with
  | none => exact pure ()
  | some edge =>
      obtain ⟨source, target⟩ := edge
      refine ite π.block.injective.eq_iff ?_ ?_
      · exact ite Iff.rfl (setInnermost ⟨frameHeader, exits, ⟨some (source, target), []⟩, bindings⟩)
          (rejectAt h rfl rfl)
      · refine bind_eq (setInnermost
          ⟨frameHeader, exits, ⟨some (source, target), []⟩, backEdges⟩) fun _ => ?_
        refine bind (merge h target bindings) fun merged => ?_
        refine bind_eq (checkPhiOwnership h target merged) fun _ => ?_
        exact bind_eq (advance h source target merged) fun _ => replayPost h header hp

theorem replayPass (header : BlockId) {parts parts' : LoopParts}
    (hp : PartsInStep ρ π parts parts') :
    InStep ρ π id (replayPass ctx header parts) (replayPass ctx' (π.block header) parts') := by
  unfold Replay.replayPass
  rw [hp.condition, hp.postEmpty]
  refine bind_eq (replayLoopCondition h parts.condition?) fun tested => ite Iff.rfl ?_ (pure ())
  have continues := replayContinues h header parts.postEmpty hp.post
  refine bind_eq hp.body fun falls => ite Iff.rfl ?_ continues
  exact bind_eq (jumpInLoop h .continues) fun _ => continues

theorem leaveLoop (exits : LoopEdges) :
    InStep ρ π id (leaveLoop ctx exits) (leaveLoop ctx' (exits.renumber π)) := by
  obtain ⟨first?, bindings⟩ := exits
  cases first? with
  | none => exact pure false
  | some edge =>
      obtain ⟨source, target⟩ := edge
      refine bind (merge h target bindings) fun merged => ?_
      refine bind_eq (checkPhiOwnership h target merged) fun _ => ?_
      exact bind_eq (advance h source target merged) fun _ => pure true

-- Both replays need the same number of passes.
theorem iterate (header : BlockId) (warnings warnings' : Nat) {parts parts' : LoopParts}
    (hp : PartsInStep ρ π parts parts') (remaining iteration : Nat) (entry : Bindings) :
    InStep ρ π id (iterate ctx header warnings parts remaining iteration entry)
      (iterate ctx' (π.block header) warnings' parts' remaining iteration (entry.renumber π)) := by
  induction remaining generalizing iteration entry with
  | zero => exact rejectAt h (by rw [h.iterations]; rfl) rfl
  | succ remaining ih =>
      refine bind_eq (rewind header warnings warnings' entry) fun _ => ?_
      refine bind_eq (record _ _) fun _ => ?_
      refine bind (withLoop header (replayPass h header hp)) fun frame => ?_
      refine bind (merge h header (entry :: frame.backEdges)) fun refined => ?_
      refine ite ⟨Bindings.renumber_injective, fun he => he ▸ rfl⟩ ?_ (ih (iteration + 1) refined)
      exact bind_eq (checkPhiOwnership h header entry) fun _ => leaveLoop h frame.exits

theorem replayLoop {parts parts' : LoopParts} (hp : PartsInStep ρ π parts parts') :
    InStep ρ π id (replayLoop ctx parts) (replayLoop ctx' parts') := by
  refine bind_get fun s s' hs => ?_
  rw [hs.block, hs.bindings, h.iterations]
  exact iterate h s.block _ _ hp _ 0 s.bindings

theorem replayFor {pre pre' body body' post post' : Walk Bool} (hpre : InStep ρ π id pre pre')
    (hb : InStep ρ π id body body') (hp : InStep ρ π id post post') (condition : Expr)
    (postEmpty : Bool) :
    InStep ρ π id (replayFor ctx pre condition body postEmpty post)
      (replayFor ctx' pre' condition body' postEmpty post') := by
  refine bind_eq hpre fun falls => ite Iff.rfl ?_ (pure false)
  refine bind_get fun s s' hs => ?_
  rw [hs.block]
  refine bind (leaveByJump h) fun header => bind (carry h s.block header) fun entry => ?_
  refine bind_eq (advance h s.block header entry) fun _ => ?_
  cases condition with
  | literal l =>
      refine bind (readLiteral h l) fun _ => ite Iff.rfl (pure true) ?_
      exact replayLoop h ⟨rfl, hb, rfl, hp⟩
  | ident name => exact replayLoop h ⟨rfl, hb, rfl, hp⟩
  | call name arguments => exact replayLoop h ⟨rfl, hb, rfl, hp⟩

end InStep

end SsaReplay.Replay
