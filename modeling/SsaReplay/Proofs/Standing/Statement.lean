import SsaReplay.Proofs.Standing.Walk

namespace SsaReplay.Replay

open SsaReplay.Yul (Definition Expr)

-- A break or continue that is told the headers of the loops of its graph that enclose it, the
-- innermost first. It stands in order if just these loops are open.
def replayJumpIn (enclosing : List BlockId) (ctx : Context) (way : LoopWay) : Walk Bool := do
  match enclosing with
  | [] => rejectOperation ctx (.outsideLoop way)
  | header :: outer =>
      if (← get).standing.loops = header :: outer then
        jumpInLoop ctx way
        pure false
      else
        throw .noOpenLoop

-- A loop whose body and post block are told its header.
def replayLoopIn (ctx : Context) (parts : BlockId → LoopParts) : Walk Bool := do
  replayLoop ctx (parts (← get).block)

def replayForIn (ctx : Context) (pre : Walk Bool) (condition : Expr) (body : BlockId → Walk Bool)
    (postEmpty : Bool) (post : BlockId → Walk Bool) : Walk Bool := do
  if ← pre then
    let source := (← get).block
    let header ← leaveByJump ctx
    let entry ← carry ctx source header
    advance ctx source header entry
    match condition with
    | .literal l =>
        let _ ← readLiteral ctx l
        if l.isZero then pure true
        else replayLoopIn ctx fun header => ⟨none, body header, postEmpty, post header⟩
    | e => replayLoopIn ctx fun header => ⟨some e, body header, postEmpty, post header⟩
  else
    pure false

variable {may : Lapses} {ctx : Context} {here there : Standing}

theorem replayForIn_eq (pre : Walk Bool) (condition : Expr) (body post : BlockId → Walk Bool)
    (postEmpty : Bool) :
    replayForIn ctx pre condition body postEmpty post = replayForWith ctx pre condition
      fun condition? =>
        replayLoopIn ctx fun header => ⟨condition?, body header, postEmpty, post header⟩ := by
  cases condition <;> rfl

-- Inside a loop there is a frame for it.
theorem exists_frame_of_inLoop {header : BlockId} {s : State}
    (hs : s.standing = here.inLoop header) :
    ∃ frame outer, s.loops = frame :: outer ∧ frame.header = header ∧
      outer.map LoopFrame.header = here.loops := by
  have hloops : s.loops.map LoopFrame.header = header :: here.loops := congrArg Standing.loops hs
  exact List.map_eq_cons_iff.mp hloops

namespace Accords

section Loops

variable {α : Type} {header : BlockId}

-- The frame that is read is that of the innermost loop.
theorem innermost {f f' : LoopFrame → Walk α}
    (hf : ∀ frame, frame.header = header →
      Accords may (here.inLoop header) there (f frame) (f' frame)) :
    Accords may (here.inLoop header) there (innermost >>= f) (innermost >>= f') := by
  refine fun s hs hr => ?_
  obtain ⟨frame, outer, hl, hframe, -⟩ := exists_frame_of_inLoop hs
  have run : ∀ g : LoopFrame → Walk α, (Replay.innermost >>= g) s = g frame s := by
    intro g
    change EStateM.bind Replay.innermost g s = _
    simp only [EStateM.bind, innermost_eq_ok.mpr ⟨⟨outer, hl⟩, rfl⟩]
  rw [run, run]
  exact hf frame hframe s hs hr

theorem setInnermost {frame : LoopFrame} (hf : frame.header = header) :
    KeepsPlace may (here.inLoop header) (setInnermost frame) := by
  refine getting fun s hs => ?_
  obtain ⟨old, outer, hl, -, houter⟩ := exists_frame_of_inLoop hs
  rw [hl]
  refine modify (fun t ht => ?_) (fun _ => rfl) fun _ => List.prefix_rfl
  have inner : (frame :: outer).map LoopFrame.header = header :: here.loops := by
    rw [List.map_cons, hf, houter]
  exact congr (congrArg Standing.mk (congrArg Standing.scope? ht)) inner

-- Inside there is one loop more.
theorem withLoop {act act' : Walk Unit}
    (ha : Accords may (here.inLoop header) (here.inLoop header) act act') :
    Accords may here here (withLoop header act) (withLoop header act') := by
  have last : KeepsPlace may (here.inLoop header) (Replay.innermost >>= Pure.pure) :=
    innermost fun frame _ => pure frame
  rw [bind_pure] at last
  refine bind (modify (fun s hs => ?_) (fun _ => rfl) fun _ => List.prefix_rfl) fun _ =>
    (ha.bind fun _ => last).closing (fun s hs => ?_) (fun _ => rfl) fun _ => rfl
  · exact congr (congrArg Standing.mk (congrArg Standing.scope? hs))
      (congrArg (header :: ·) (congrArg Standing.loops hs))
  · refine congr (congrArg Standing.mk (congrArg Standing.scope? hs)) ?_
    rw [List.map_tail, show s.loops.map _ = _ from congrArg Standing.loops hs]
    rfl

end Loops

section Loop

variable {header : BlockId} {body post : Walk Bool} (placed : here.scope? = none → may.unscoped)

include placed

theorem looping :
    Looping ctx ctx (· = header)
      fun _ => Accords may (here.inLoop header) (here.inLoop header) where
  toRoutes := routes placed
  afterInnermost := innermost
  setInnermost := setInnermost
  noteEdge _ _ _ _ := record trivial

theorem iterating : Iterating ctx ctx (fun _ => Accords may here here) fun header _ =>
    Accords may (here.inLoop header) (here.inLoop header) where
  toRoutes := routes placed
  inner _ := ⟨_, looping placed⟩
  rewind _ _ _ := modify (fun _ hs => hs) (fun _ => rfl) fun _ => List.take_prefix _ _
  beginPass _ _ _ := record trivial
  withLoop := withLoop

-- Here the walk asks for no more than whether a loop is open at all.
theorem replayLoopJump (way : LoopWay) :
    Accords may here here (replayLoopJump ctx way) (replayJumpIn here.loops ctx way) := by
  obtain ⟨scope?, loops⟩ := here
  cases loops with
  | nil =>
      refine fun s hs hr => ?_
      have hnil : s.loops = [] := List.map_eq_nil_iff.mp (congrArg Standing.loops hs)
      have rejected : KeepsPlace may ⟨scope?, []⟩ (replayJumpIn [] ctx way) :=
        rejectOperation (by cases way <;> nofun)
      have runs : Replay.replayLoopJump ctx way s = replayJumpIn [] ctx way s := by
        change (if s.loops.isEmpty = true then _ else _ : Walk Bool) s = _
        rw [if_pos (by rw [hnil]; rfl)]
        rfl
      rw [runs]
      exact rejected s hs hr
  | cons header outer =>
      refine getting fun s hs => ?_
      have hloops : s.standing.loops = header :: outer := congrArg Standing.loops hs
      have opened : ¬s.loops.isEmpty = true := by
        intro h
        rw [List.isEmpty_iff] at h
        exact absurd (hloops.symm.trans (congrArg (List.map LoopFrame.header) h)) nofun
      have inner : Looping ctx ctx (· = header) fun _ =>
          Accords may (Standing.inLoop ⟨scope?, outer⟩ header) (.inLoop ⟨scope?, outer⟩ header) :=
        looping placed
      rw [if_neg opened, if_pos hloops]
      exact inner.bind (inner.jumpInLoop way) fun _ => inner.pure false

theorem replayLoop (condition? : Option Expr) (postEmpty : Bool)
    {body' post' : BlockId → Walk Bool}
    (hb : ∀ header, Accords may (here.inLoop header) (here.inLoop header) body (body' header))
    (hq : ∀ header, Accords may (here.inLoop header) (here.inLoop header) post (post' header)) :
    Accords may here here (replayLoop ctx ⟨condition?, body, postEmpty, post⟩)
      (replayLoopIn ctx fun header => ⟨condition?, body' header, postEmpty, post' header⟩) :=
  fun s hs hr => (iterating placed).iterate rfl s.warnings.length condition? postEmpty (hb s.block)
    (hq s.block) ctx.settings.maxLoopIterations 0 s.bindings s hs hr

theorem replayFor (condition : Expr) (postEmpty : Bool) {pre pre' : Walk Bool}
    {body' post' : BlockId → Walk Bool} (hpre : Accords may here here pre pre')
    (hb : ∀ header, Accords may (here.inLoop header) (here.inLoop header) body (body' header))
    (hq : ∀ header, Accords may (here.inLoop header) (here.inLoop header) post (post' header)) :
    Accords may here here (replayFor ctx pre condition body postEmpty post)
      (replayForIn ctx pre' condition body' postEmpty post') := by
  rw [replayFor_eq, replayForIn_eq]
  exact (routes placed).replayForWith condition hpre fun condition? =>
    replayLoop placed condition? postEmpty hb hq

end Loop

section Statements

-- A block may be entered from where there is no scope yet.
theorem inBlock (id : NodeId) {body body' : Walk Bool}
    (known : ctx.analysis.scopeOf? id = none → may.unscoped)
    (hb : ∀ scope, Accords may ⟨some scope, here.loops⟩ ⟨some scope, here.loops⟩ body body') :
    Accords may here here (inBlock ctx id body) (inBlock ctx id body') := by
  unfold Replay.inBlock
  cases hscope : ctx.analysis.scopeOf? id with
  | none => exact rejectBlock fun _ => known hscope
  | some scope => exact inScope (hb scope)

-- The signature is bound where the body has its scope.
theorem replayFunction (inner : Context) (d : Definition) {f : FunctionId} {scope? : Option ScopeId}
    (owned : inner.site.owner? = some f) (opened : inner.analysis.scopeOf? d.body.id = scope?)
    (known : scope? = none → may.unscoped) {body body' : Walk Bool}
    (hb : Accords may ⟨scope?, []⟩ ⟨scope?, []⟩ body body') :
    Accords may ⟨none, []⟩ ⟨scope?, []⟩ (replayFunction inner d body)
      (replayFunction inner d body') := by
  subst opened
  have bound : Routes inner inner fun _ => Accords may
      ⟨inner.analysis.scopeOf? d.body.id, []⟩ ⟨inner.analysis.scopeOf? d.body.id, []⟩ :=
    routes known
  have left := bound.replayLeave (leaveByReturn fun h => absurd (owned.symm.trans h) nofun)
  refine bind (record trivial) fun _ => bind (modify (fun s hs => ?_) (fun _ => rfl) fun _ =>
    List.prefix_rfl) fun _ => bind (bound.bindSignature _) fun _ => bind (bound.bindReturns _)
      fun _ => bound.bind hb fun falls =>
        ite (bind left fun _ => pure ()) (pure ())
  exact congrArg (Standing.mk _) (congrArg Standing.loops hs)

-- The body of a function starts outside of all loops.
theorem replayDefinition (placed : here.scope? = none → may.unscoped) {d : Definition}
    {body body' : Context → Walk Bool}
    (known : ctx.analysis.scopeOf? d.body.id = none → may.unscoped)
    (hb : ∀ f graph scope?, Accords may ⟨scope?, []⟩ ⟨scope?, []⟩ (body (ctx.within f graph))
      (body' (ctx.within f graph))) :
    Accords may here here (replayDefinition ctx d body) (replayDefinition ctx d body') :=
  (routes placed).replayDefinition d fun f graph _ =>
    apart (replayFunction (ctx.within f graph) d rfl rfl known (hb f graph _))

end Statements

end Accords

end SsaReplay.Replay
