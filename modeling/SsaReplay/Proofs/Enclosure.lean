import SsaReplay.Proofs.Convergence.Loop
import SsaReplay.Proofs.Congruence.Loop

namespace SsaReplay

namespace Replay

open SsaReplay.Graph (Cfg)
open SsaReplay.Yul (Block Definition Expr Stmt)

-- The loops are those from before. Only about the innermost may more be known.
inductive SameLoops : List LoopFrame → List LoopFrame → Prop
  | nil : SameLoops [] []
  | cons {old new : LoopFrame} {outer : List LoopFrame} (header : new.header = old.header) :
      SameLoops (old :: outer) (new :: outer)

namespace SameLoops

variable {f : LoopFrame} {around outer old new : List LoopFrame}

theorem refl (loops : List LoopFrame) : SameLoops loops loops := by
  cases loops with
  | nil => exact .nil
  | cons f outer => exact .cons rfl

theorem tail (h : SameLoops old new) : new.tail = old.tail := by
  cases h <;> rfl

theorem eq_nil (h : SameLoops [] new) : new = [] := by
  cases h
  rfl

theorem cons_iff :
    SameLoops (f :: outer) new ↔ ∃ g, new = g :: outer ∧ g.header = f.header := by
  constructor
  · intro h
    cases h with
    | cons header => exact ⟨_, rfl, header⟩
  · rintro ⟨g, rfl, header⟩
    exact .cons header

theorem of_cons (h : SameLoops (f :: outer) new) : ∃ g, new = g :: outer ∧ g.header = f.header :=
  cons_iff.mp h

end SameLoops

theorem LoopsExtend.length {old new : List LoopFrame} (h : LoopsExtend old new) :
    new.length = old.length := by
  cases h <;> rfl

-- However the walk ends, the invariant holds again, and a loop was not asked for in vain.
def Maintains {α : Type} (inv : State → Prop) (x : Walk α) : Prop :=
  ∀ s, ComesTo inv (· ≠ .noOpenLoop) x s fun _ _ => True

-- A walk inside some loops comes back to the same loops.
def Nests {α : Type} (around : List LoopFrame) (x : Walk α) : Prop :=
  Maintains (fun t => SameLoops around t.loops) x

-- A walk that does so wherever it starts.
def WellNested {α : Type} (x : Walk α) : Prop := ∀ around, Nests around x

-- It also leaves what is known of the innermost loop alone.
def Balanced {α : Type} (x : Walk α) : Prop := ∀ loops, Maintains (fun t => t.loops = loops) x

-- A walk inside a loop with this header, wherever the loop stands.
def Inside {α : Type} (header : BlockId) (x : Walk α) : Prop :=
  ∀ outer, Nests (.start header :: outer) x

variable {α β : Type} {inv : State → Prop} {ctx : Context} {around outer : List LoopFrame}
  {f : LoopFrame} {header : BlockId}

namespace Maintains

variable {x : Walk α}

theorem pure (a : α) : Maintains inv (pure a : Walk α) := fun _ => .pure trivial

theorem bind {f : α → Walk β} (hx : Maintains inv x) (hf : ∀ a, Maintains inv (f a)) :
    Maintains inv (x >>= f) := fun s => .bind ((hx s).mono fun a t _ => hf a t)

theorem ite {c : Prop} [Decidable c] {y : Walk α} (hx : Maintains inv x) (hy : Maintains inv y) :
    Maintains inv (if c then x else y) := fun s => .ite (fun _ => hx s) fun _ => hy s

theorem modify {f : State → State} (h : ∀ s, inv s → inv (f s)) :
    Maintains inv (modify f : Walk Unit) := fun s => .modify (h s) trivial

-- What is read from the state can be relied on.
theorem afterGet {f : State → Walk α} (h : ∀ s, inv s → Maintains inv (f s)) :
    Maintains inv (get >>= f) := fun s hs => h s hs s hs

theorem reject (m : Mismatch) (l : Location) (h : ∀ s e, inv s → inv (s.log ctx.site e)) :
    Maintains inv (reject ctx m l : Walk α) :=
  bind (modify fun s hs => h s _ hs) fun _ _ => .throw nofun

end Maintains

-- What lasts from these loops on lasts from those that stand in for them, too.
theorem Balanced.wellNested {x : Walk α} (h : Balanced x) : WellNested x := by
  intro around s hs
  have whole := h s.loops s rfl
  have same : ∀ t : State, t.loops = s.loops → SameLoops around t.loops := fun t ht => ht ▸ hs
  cases hr : x s with
  | ok a t =>
      rw [hr] at whole
      exact ⟨same t whole.1, trivial⟩
  | error e t =>
      rw [hr] at whole
      exact ⟨same t whole.1, whole.2⟩

namespace Nests

theorem rejectBlock (m : Mismatch) : Nests around (rejectBlock ctx m : Walk α) :=
  Maintains.afterGet fun _ _ => Maintains.reject _ _ fun _ _ hs => hs

theorem unmoved : Unmoved ctx fun _ x _ => Nests around x where
  pure := Maintains.pure
  bind := Maintains.bind
  get _ := .get trivial
  move _ loops _ _ := Maintains.modify fun s hs => (loops s).symm ▸ hs
  record _ := Maintains.modify fun _ hs => hs
  reject _ := Maintains.reject _ _ fun _ _ hs => hs

theorem resolve (name : String) : Nests around (resolve ctx name) :=
  resolve_of_get (R := fun _ x _ => Nests around x)
    (fun h => Maintains.afterGet fun s hs => h s hs) Maintains.pure (fun _ _ _ => rejectBlock _)
    (fun _ _ => rejectBlock _) name

theorem afterInnermost {k : LoopFrame → Walk α}
    (h : ∀ frame, frame.header = f.header → Nests (f :: outer) (k frame)) :
    Nests (f :: outer) (innermost >>= k) := by
  intro s hs
  obtain ⟨frame, hl, header⟩ := hs.of_cons
  rw [bind_of_ok (innermost_eq_ok.mpr ⟨⟨outer, hl⟩, rfl⟩)]
  exact h frame header s hs

theorem innermost : Nests (f :: outer) innermost := by
  rw [← bind_pure Replay.innermost]
  exact afterInnermost fun frame _ => .pure frame

theorem setInnermost {frame : LoopFrame} (h : frame.header = f.header) :
    Nests (f :: outer) (setInnermost frame) := by
  intro s hs
  obtain ⟨old, hl, -⟩ := hs.of_cons
  rw [setInnermost_eq_ok (u := ()).mpr ⟨old, outer, hl, rfl⟩]
  exact ⟨.cons h, trivial⟩

end Nests

namespace Inside

-- Of the entry of a loop, only the header tells it from others.
theorem nests {x : Walk α} (h : Inside f.header x) : Nests (f :: outer) x := by
  have same : (fun t : State => SameLoops (f :: outer) t.loops) =
      fun t => SameLoops (.start f.header :: outer) t.loops := by
    funext t
    exact propext (by rw [SameLoops.cons_iff, SameLoops.cons_iff]; rfl)
  rw [Nests, same]
  exact h outer

theorem unmoved : Unmoved ctx fun _ x _ => Inside header x :=
  .all (R := fun outer _ x _ => Nests (.start header :: outer) x) fun _ => Nests.unmoved

theorem looping : Looping ctx ctx (· = header) fun _ x _ => Inside header x where
  toRoutes := unmoved.routes fun name _ => Nests.resolve name
  afterInnermost hk outer := Nests.afterInnermost fun frame hf => hk frame hf outer
  setInnermost hf _ := Nests.setInnermost hf
  noteEdge _ _ _ _ := unmoved.record rfl

end Inside

-- What a pass puts on top of the loops is taken off again.
theorem Balanced.withLoop {act : Walk Unit} (h : ∀ outer, Nests (.start header :: outer) act) :
    Balanced (withLoop header act) := by
  intro loops s hs
  have whole : Nests (.start header :: loops) (do act; innermost) :=
    .bind (h loops) fun _ => Nests.innermost
  have inside := whole { s with loops := .start header :: s.loops } (hs ▸ .refl _)
  have run : Replay.withLoop header act s = Replay.closing
    (fun s => { s with loops := s.loops.tail }) (do act; innermost)
    { s with loops := .start header :: s.loops } := rfl
  rw [run, closing_eq]
  cases hr : (do act; innermost : Walk LoopFrame) { s with loops := .start header :: s.loops } with
  | ok frame t =>
      rw [hr] at inside
      exact ⟨inside.1.tail, trivial⟩
  | error e t =>
      rw [hr] at inside
      exact ⟨inside.1.tail, inside.2⟩

-- The replay of a function starts without any loop, and ends so.
theorem Balanced.apart {graph : Cfg} {act : Walk Unit} (h : Nests [] act) :
    Balanced (apart graph act) := by
  intro loops s hs
  have inside := h (s.apartOn graph) .nil
  unfold State.apartOn at inside
  unfold Replay.apart
  cases hr : act { State.start graph with warnings := s.warnings, history := s.history } with
  | ok u t => exact ⟨hs, trivial⟩
  | error e t =>
      rw [hr] at inside
      exact ⟨hs, inside.2⟩

namespace WellNested

variable {body : Walk Bool}

theorem unmoved : Unmoved ctx fun _ x _ => WellNested x :=
  .all (R := fun around _ x _ => Nests around x) fun _ => Nests.unmoved

theorem routes : Routes ctx ctx fun _ x _ => WellNested x :=
  unmoved.routes fun name _ => Nests.resolve name

theorem iterating :
    Iterating ctx ctx (fun _ x _ => WellNested x) fun header _ x _ => Inside header x where
  toRoutes := routes
  inner _ := ⟨_, Inside.looping⟩
  rewind _ _ _ _ := Maintains.modify fun _ hs => hs
  beginPass _ _ _ := unmoved.record rfl
  withLoop ha := (Balanced.withLoop ha).wellNested

-- A jump is only made where a loop is open.
theorem replayLoopJump (way : LoopWay) : WellNested (replayLoopJump ctx way) := by
  intro around
  refine Maintains.afterGet fun s hs => ?_
  cases around with
  | nil =>
      rw [hs.eq_nil, List.isEmpty_nil, if_pos rfl]
      exact Nests.unmoved.rejectOperation (by cases way <;> nofun)
  | cons f outer =>
      refine Maintains.ite (Nests.unmoved.rejectOperation (by cases way <;> nofun)) ?_
      exact Maintains.bind (Inside.looping.jumpInLoop way).nests fun _ => .pure false

theorem replayDefinition (d : Definition) {body : Context → Walk Bool}
    (hb : ∀ inner, WellNested (body inner)) : WellNested (replayDefinition ctx d body) := by
  refine routes.replayDefinition d (y := body) fun f graph _ =>
    (Balanced.apart ?_).wellNested
  have inner : Unmoved (ctx.within f graph) fun _ x _ => Nests [] x := Nests.unmoved
  have closed := inner.closed Nests.resolve
  refine closed.replayFunction d (inner.record rfl) (fun _ => ?_) ?_
    (y := body (ctx.within f graph))
    (hb _ [])
  · exact Maintains.modify fun _ hs => hs
  · exact inner.leaveBy fun _ _ _ _ => Maintains.modify fun _ hs => hs

theorem inBlock (id : NodeId) (hb : WellNested body) : WellNested (inBlock ctx id body) := by
  refine routes.inBlock id (y := body) (fun _ _ => Nests.rejectBlock _) fun scope around => ?_
  refine Maintains.afterGet fun _ _ => Maintains.bind (Maintains.modify fun _ h => h) fun _ s => ?_
  exact .closing (fun _ h => h) ((hb around s).mono fun _ _ _ => trivial)

theorem warnUnreachable (id : NodeId) (rest : List Stmt) :
    WellNested (warnUnreachable ctx id rest) := fun _ =>
  .ite (Maintains.afterGet fun _ _ => .bind (.modify fun _ h => h) fun _ => .modify fun _ h => h)
    (.pure ())

end WellNested

theorem wellNested_compositional : Compositional True fun _ => WellNested where
  done _ _ := Maintains.pure true
  expr _ e := WellNested.routes.replayBare e
  assign _ names e := WellNested.routes.replayAssignment names e
  letDecl _ names value? := WellNested.routes.replayLet names value?
  leave _ := WellNested.routes.replayLeave <|
    WellNested.unmoved.leaveBy fun _ _ _ _ _ => Maintains.modify fun _ hs => hs
  loopJump _ way := .replayLoopJump way
  cond _ condition body hb := WellNested.routes.replayIf condition (y := body) hb
  switch _ _ e _ ha := WellNested.routes.replaySwitch e (armsAlike_self ha)
  forLoop _ pre condition body _ post hp hb hq :=
    WellNested.iterating.replayFor rfl condition _ (v := pre) hp (y := body) (fun _ _ => hb _)
      (q := post) fun _ _ => hq _
  block _ id _ hb := .inBlock id hb
  definition _ d _ _ hd ho := fun around =>
    Maintains.bind (WellNested.replayDefinition d hd around) fun _ => ho around
  next _ id rest first others hf ho := WellNested.routes.thenOthers id rest
    (WellNested.warnUnreachable id rest) (y := first) hf (v := others) ho

theorem WellNested.ofStmt (ctx : Context) (a : Stmt) : WellNested (replayStmt ctx a) :=
  wellNested_compositional.stmt ctx a (.inl trivial)

-- A pass over a loop of the program, with an entry of its own on top of the loops.
theorem Inside.ofPass (ctx : Context) (header : BlockId) (condition? : Option Expr) (body : Block)
    (postEmpty : Bool) (post : Block) :
    Inside header (replayPass ctx header (.ofBlocks ctx condition? body postEmpty post)) := by
  have blocks : ∀ b, Inside header (replayBlock ctx b) := fun b _ =>
    wellNested_compositional.ofBlock ctx b (.inl trivial) _
  exact Inside.looping.replayPass condition? postEmpty (y := replayBlock ctx body) (blocks body)
    (q := replayBlock ctx post) (blocks post)

-- The whole program is a block.
theorem run_ne_noOpenLoop (subject : Subject) (settings : Settings) :
    (subject.run settings).halt? ≠ some .noOpenLoop := by
  have body := wellNested_compositional.ofBlock (subject.context settings) subject.program
    (.inl trivial) []
  have whole : Nests [] (replayMain (subject.context settings) subject.program) :=
    Maintains.bind (Nests.unmoved.record rfl) fun _ => Maintains.bind body fun _ =>
      .ite (Nests.unmoved.leaveBy fun _ _ _ _ => Maintains.modify fun _ hs => hs) (.pure ())
  unfold Subject.run
  cases run : replayMain (subject.context settings) subject.program
      (State.start subject.flow.main) with
  | ok u t => exact nofun
  | error e t => exact fun lost => (whole _).of_error .nil run (Option.some.inj lost)

-- A statement that is replayed leaves the scope and the loops around it alone, apart from
-- edges that it adds to those of the innermost one. However a pass over a loop ends, the entry
-- of that loop is on top of the loops from before, and it is this entry that is taken off.
-- There always is a loop where one is asked for.
theorem respects_loops (ctx : Context) (a : Stmt) (s : State) :
    (∀ falls t, replayStmt ctx a s = .ok falls t →
      t.scope? = s.scope? ∧ t.loops.length = s.loops.length ∧ LoopsExtend s.loops t.loops) ∧
    SameLoops s.loops (ending (replayStmt ctx a) s).loops ∧
    (∀ t, replayStmt ctx a s ≠ .error .noOpenLoop t) ∧
    ∀ header condition? body postEmpty post,
      let pass := replayPass ctx header (.ofBlocks ctx condition? body postEmpty post)
      (∃ own, own.header = header ∧
        (ending pass { s with loops := .start header :: s.loops }).loops = own :: s.loops) ∧
      (ending (withLoop header pass) s).loops = s.loops ∧
      ∀ t, withLoop header pass s ≠ .error .noOpenLoop t := by
  have whole := WellNested.ofStmt ctx a s.loops s
  refine ⟨fun falls t run => ?_, whole.at_end (.refl _), fun t run => ?_, ?_⟩
  · have framed := framed_compositional.stmt ctx a (.inl trivial) run
    exact ⟨framed.scope, framed.loops.length, framed.loops⟩
  · exact whole.of_error (.refl _) run rfl
  · intro header condition? body postEmpty post
    have inside := Inside.ofPass ctx header condition? body postEmpty post
    have around := Balanced.withLoop inside s.loops s
    have top := (inside s.loops { s with loops := .start header :: s.loops }).at_end (.refl _)
    refine ⟨?_, around.at_end rfl, fun t run => around.of_error rfl run rfl⟩
    obtain ⟨own, loops, same⟩ := top.of_cons
    exact ⟨own, same, loops⟩

end Replay

namespace Counting

open Replay

-- The start of the graph as if there were two loops around it, and the end of its block.
def inLoops : State := { State.start graph with loops := [.start ⟨1⟩, .start ⟨4⟩] }

def leaving : State := { inLoops with op := 1 }

-- The program has a loop of its own, of which nothing is left. A jump out of the loop is noted.
theorem respects_loops_here :
    (∃ t, replayStmt (subject.context .default) (.block subject.program) inLoops = .ok true t ∧
      t.scope? = none ∧ t.loops.length = 2 ∧ LoopsExtend inLoops.loops t.loops) ∧
    ∃ t, replayStmt (subject.context .default) .breakLoop leaving = .ok false t ∧
      (t.loops.head?.bind fun f => f.exits.first?) = some (⟨0⟩, ⟨1⟩) ∧
      LoopsExtend leaving.loops t.loops := by
  have replayed : (after? (replayStmt (subject.context .default) (.block subject.program))
      inLoops).isSome = true := by decide +kernel
  have noted : (match replayStmt (subject.context .default) .breakLoop leaving with
    | .ok falls t => !falls && (t.loops.head?.bind fun f => f.exits.first?) == some (⟨0⟩, ⟨1⟩)
    | .error _ _ => false) = true := by decide +kernel
  obtain ⟨t, ht⟩ := Option.isSome_iff_exists.mp replayed
  have run := after?_eq_some.mp ht
  refine ⟨⟨t, run, (respects_loops _ _ _).1 true t run⟩, ?_⟩
  cases run : replayStmt (subject.context .default) .breakLoop leaving with
  | error e t => simp [run] at noted
  | ok falls t =>
      obtain ⟨rfl, edge⟩ : falls = false ∧ _ := by simpa [run] using noted
      exact ⟨t, rfl, edge, ((respects_loops _ _ _).1 false t run).2.2⟩

end Counting

end SsaReplay
