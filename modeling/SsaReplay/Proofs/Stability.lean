import SsaReplay.Proofs.Monotonicity.Statement
import SsaReplay.Proofs.Steps

namespace SsaReplay

namespace Replay

open SsaReplay.Yul (Block Expr Literal)

-- The history tells of an edge on which the bindings get out of a loop.
def ExitTold (site : Site) (header target : BlockId) (told : List Entry) (b : Bindings) : Prop :=
  ∃ source before, ⟨site, .carried source target before b⟩ ∈ told ∧
    ⟨site, .loopEdge .exits header source target⟩ ∈ told

-- The exits of a loop are edges that the history tells of, all to one target.
structure LoopFrame.ExitsFrom (f : LoopFrame) (site : Site) (header : BlockId)
    (told : List Entry) : Prop where
  loop : f.header = header
  first : f.exits.first? = none ↔ f.exits.bindings = []
  told : ∀ edge, f.exits.first? = some edge →
    ∀ b ∈ f.exits.bindings, ExitTold site header edge.2 told b

-- The exits of the innermost loop have all been found since the earlier history.
def ExitsSince (ctx : Context) (header : BlockId) (earlier : List Entry) (s : State) : Prop :=
  ∃ told, s.history = told ++ earlier ∧
    ∀ frame outer, s.loops = frame :: outer → frame.ExitsFrom ctx.site header told

-- Going on, no other exits are found than those that are told.
def TellsExits (ctx : Context) (s t : State) : Prop :=
  ∀ header earlier, ExitsSince ctx header earlier s → ExitsSince ctx header earlier t

structure ExitTelling (ctx : Context) (body : Walk Bool) : Prop where
  framed : Frames True ctx body
  tells : ∀ {s r t}, body s = .ok r t → TellsExits ctx s t

-- What an accepted loop rests on: a mapping at its header with which a pass succeeds and
-- which all ways back to the header bear out. The loop is left as this pass says.
structure Sustained (ctx : Context) (parts : LoopParts) (s : State) (r : Bool) (t : State)
    (mapping : Bindings) (before : State) (frame : LoopFrame) (after : State) : Prop where
  refines : mapping.Refines s.bindings
  inhabited : ∀ x held, mapping.lookup x = some held → ∃ v, v ∈ held
  start : before.block = s.block ∧ before.op = 0 ∧ before.bindings = mapping
  surroundings : before.scope? = s.scope? ∧ before.loops = s.loops
  pass : withLoop s.block (replayPass ctx s.block parts) before = .ok frame after
  backEdges : ∀ b ∈ frame.backEdges, mapping.Refines b
  falls : r = true ↔ frame.exits.bindings ≠ []
  left : r = true → t.op = 0 ∧ Bindings.meet frame.exits.bindings = .ok t.bindings ∧
    ∃ told, after.history = told ++ before.history ∧
      ∀ b ∈ frame.exits.bindings, ExitTold ctx.site s.block t.block told b

variable {ctx : Context} {s t u : State}

theorem ExitTold.mono {site : Site} {header target : BlockId} {told more : List Entry}
    {b : Bindings} (h : ExitTold site header target told b) (hm : ∀ e ∈ told, e ∈ more) :
    ExitTold site header target more b := by
  obtain ⟨source, before, hc, he⟩ := h
  exact ⟨source, before, hm _ hc, hm _ he⟩

namespace LoopFrame.ExitsFrom

variable {f g : LoopFrame} {site : Site} {header : BlockId} {told more : List Entry}

theorem start : (LoopFrame.start header).ExitsFrom site header told :=
  ⟨rfl, by simp [LoopFrame.start, LoopEdges.empty], by simp [LoopFrame.start, LoopEdges.empty]⟩

theorem mono (h : f.ExitsFrom site header told) (exits : g.exits = f.exits)
    (same : g.header = f.header) (hm : ∀ e ∈ told, e ∈ more) : g.ExitsFrom site header more := by
  refine ⟨same.trans h.loop, exits ▸ h.first, fun edge he b hb => ?_⟩
  rw [exits] at he hb
  exact (h.told edge he b hb).mono hm

theorem note {source target : BlockId} {b : Bindings} (h : f.ExitsFrom site header told)
    (agrees : ((f.edges .exits).first?.getD (source, target)).2 = target)
    (new : ExitTold site header target told b) :
    (f.note .exits source target b).ExitsFrom site header told := by
  have noted : (f.note .exits source target b).exits =
      ⟨some (f.exits.first?.getD (source, target)), f.exits.bindings ++ [b]⟩ := rfl
  refine ⟨(note_header _ _ _ _ _).trans h.loop, by simp [noted], fun found hfound b' hb' => ?_⟩
  rw [noted] at hfound hb'
  obtain rfl := Option.some.inj hfound
  rcases List.mem_append.mp hb' with hb' | hb'
  · cases hfirst : f.exits.first? with
    | none =>
        have hnone := h.first.mp hfirst
        exact absurd (hnone ▸ hb') List.not_mem_nil
    | some edge => exact h.told edge hfirst b' hb'
  · obtain rfl := List.mem_singleton.mp hb'
    have ht : (f.exits.first?.getD (source, target)).2 = target := agrees
    exact ht.symm ▸ new

end LoopFrame.ExitsFrom

namespace TellsExits

theorem refl (s : State) : TellsExits ctx s s := fun _ _ h => h

theorem trans (h : TellsExits ctx s t) (k : TellsExits ctx t u) : TellsExits ctx s u :=
  fun header earlier hs => k header earlier (h header earlier hs)

-- Steps that find no exit of the innermost loop.
theorem of_exits (history : s.history <:+ t.history)
    (exits : ∀ frame outer, t.loops = frame :: outer → ∃ f o, s.loops = f :: o ∧
      frame.exits = f.exits ∧ frame.header = f.header) : TellsExits ctx s t := by
  rintro header earlier ⟨told, hs, hf⟩
  obtain ⟨more, hmore⟩ := history
  refine ⟨more ++ told, by rw [← hmore, hs, List.append_assoc], fun frame outer hl => ?_⟩
  obtain ⟨f, o, ho, hexits, hheader⟩ := exits frame outer hl
  exact (hf f o ho).mono hexits hheader fun e he => List.mem_append_right more he

theorem of_loops (history : s.history <:+ t.history) (loops : t.loops = s.loops) :
    TellsExits ctx s t :=
  of_exits history fun frame outer hl => ⟨frame, outer, loops ▸ hl, rfl, rfl⟩

theorem log (h : TellsExits ctx s t) (e : Event) : TellsExits ctx s (t.log ctx.site e) :=
  h.trans (of_loops (List.suffix_cons _ _) rfl)

theorem follow (h : TellsExits ctx s t) (source target : BlockId) (b : Bindings) :
    TellsExits ctx s (t.follow ctx.site source target b) :=
  h.trans (of_loops (List.suffix_cons _ _) rfl)

theorem bindings (h : TellsExits ctx s t) (b : Bindings) :
    TellsExits ctx s { t with bindings := b } :=
  h.trans (of_loops List.suffix_rfl rfl)

end TellsExits

theorem Stays.tellsExits (h : Stays True ctx s t) : TellsExits ctx s t :=
  .of_loops h.history.suffix h.loops

theorem tellsExits_stepwise : Stepwise ctx (TellsExits ctx) where
  trans first second := first.trans second
  silent _ loops history := .of_loops (history ▸ List.suffix_rfl) loops
  log s _ _ := (TellsExits.refl s).log _
  call matched := matched.stays.tellsExits
  compared compared := compared.stays.tellsExits
  returned left := by
    cases left with
    | mk exit count held => exact ((TellsExits.refl _).log _).bindings _

theorem ExitTelling.steps {body : Walk Bool} (h : ExitTelling ctx body) :
    Steps (TellsExits ctx) body :=
  fun _ _ _ run => h.tells run

theorem Steps.exitTelling {body : Walk Bool} (h : Steps (TellsExits ctx) body)
    (framed : Frames True ctx body) : ExitTelling ctx body :=
  ⟨framed, fun run => h _ _ _ run⟩

section Loop

-- An edge that is recorded right after the bindings were carried along it.
theorem EdgeRecorded.tellsExits {way : LoopWay} {source target : BlockId} {before b : Bindings}
    (h : EdgeRecorded ctx way source target b
      (s.log ctx.site (.carried source target before b)) t) : TellsExits ctx s t := by
  rintro header earlier ⟨told, hs, hf⟩
  cases h with
  | @mk frame outer opened edge agrees =>
      let more : List Entry := ⟨ctx.site, .loopEdge way frame.header source target⟩ ::
        ⟨ctx.site, .carried source target before b⟩ :: told
      refine ⟨more, congrArg (fun h => _ :: _ :: h) hs, fun g o hl => ?_⟩
      obtain ⟨rfl, rfl⟩ := List.cons.inj hl
      have known : frame.ExitsFrom ctx.site header more := (hf frame outer opened).mono rfl rfl
        fun e he => List.mem_cons_of_mem _ (List.mem_cons_of_mem _ he)
      obtain rfl := known.loop
      cases way with
      | continues => exact known.mono rfl rfl fun _ he => he
      | exits =>
          refine known.note agrees ⟨source, before, ?_, List.mem_cons_self⟩
          exact List.mem_cons_of_mem _ List.mem_cons_self

theorem LoopJumped.tellsExits {way : LoopWay} (h : LoopJumped ctx way s t) :
    TellsExits ctx s t := by
  cases h with
  | mk exit carries recorded => exact ((TellsExits.refl s).log _).trans recorded.tellsExits

theorem ConditionReplayed.tellsExits {condition? : Option Expr} {r : Bool}
    (h : ConditionReplayed ctx s condition? r t) : TellsExits ctx s t := by
  cases h with
  | untested => exact .refl s
  | stuck value => exact (replayOne_stays value).tellsExits
  | tested tested recorded into =>
      cases tested with
      | mk value exit fits zero =>
          have found := ((replayOne_stays value).tellsExits.log _).trans fits.stays.tellsExits
          exact (found.trans recorded.tellsExits).follow _ _ _

theorem PostReplayed.tellsExits {header : BlockId} {post : Walk Bool}
    (hp : ExitTelling ctx post) (h : PostReplayed ctx header post s t) : TellsExits ctx s t := by
  cases h with
  | stopped run => exact hp.tells run
  | @latched bindings frame outer w run exit edge carries opened =>
      refine (hp.tells run).trans (.of_exits ⟨[_, _], rfl⟩ fun f o hl => ?_)
      obtain ⟨rfl, rfl⟩ := List.cons.inj hl
      exact ⟨frame, outer, opened, rfl, rfl⟩

theorem ContinuesReplayed.tellsExits {header : BlockId} {postEmpty : Bool} {post : Walk Bool}
    (hp : ExitTelling ctx post) (h : ContinuesReplayed ctx header postEmpty post s t) :
    TellsExits ctx s t := by
  cases h with
  | nowhere opened noEdge => exact .refl s
  | direct opened found empty =>
      refine .of_exits List.suffix_rfl fun f o hl => ?_
      obtain ⟨rfl, rfl⟩ := List.cons.inj hl
      exact ⟨_, _, opened, rfl, rfl⟩
  | @post frame outer source target merged _ opened found elsewhere meets owned edge run =>
      have taken : TellsExits ctx s { s with
          loops := { frame with continues := ⟨some (source, target), []⟩ } :: outer } := by
        refine .of_exits List.suffix_rfl fun f o hl => ?_
        obtain ⟨rfl, rfl⟩ := List.cons.inj hl
        exact ⟨_, _, opened, rfl, rfl⟩
      exact ((taken.log _).follow _ _ _).trans (run.tellsExits hp)

theorem PassReplayed.tellsExits {header : BlockId} {parts : LoopParts}
    (hb : ExitTelling ctx parts.body) (hp : ExitTelling ctx parts.post)
    (h : PassReplayed ctx header parts s t) : TellsExits ctx s t := by
  cases h with
  | stuck condition => exact condition.tellsExits
  | stopped condition body continues =>
      exact (condition.tellsExits.trans (hb.tells body)).trans (continues.tellsExits hp)
  | fallen condition body jump continues =>
      have fallen := (condition.tellsExits.trans (hb.tells body)).trans jump.tellsExits
      exact fallen.trans (continues.tellsExits hp)

theorem LoopLeft.tellsExits {exits : LoopEdges} {r : Bool} (h : LoopLeft ctx exits s r t) :
    TellsExits ctx s t := by
  cases h with
  | never noEdge => exact .refl s
  | left found meets owned edge => exact ((TellsExits.refl s).log _).follow _ _ _

-- The exits of a loop inside are none of the loop around it.
theorem IterateReplayed.tellsExits {header : BlockId} {warnings iteration : Nat}
    {parts : LoopParts} {entry : Bindings} {r : Bool} (hb : ExitTelling ctx parts.body)
    (hp : ExitTelling ctx parts.post)
    (h : IterateReplayed ctx header warnings parts iteration entry s r t) :
    TellsExits ctx s t := by
  have passed : ∀ {warnings iteration : Nat} {entry : Bindings} {frame : LoopFrame} {s u : State},
      LoopPassed ctx header warnings parts iteration entry s frame u → TellsExits ctx s u :=
    fun pass => .of_loops (pass.framed hb.framed hp.framed).history.suffix
      (pass.loops_eq hb.framed hp.framed)
  induction h with
  | settled pass stable owned left => exact ((passed pass).log _).trans left.tellsExits
  | again pass refines next ih => exact ((passed pass).log _).trans ih

theorem ForReplayed.tellsExits {pre : Walk Bool} {condition : Expr} {body : Walk Bool}
    {postEmpty : Bool} {post : Walk Bool} {r : Bool} (hpre : ExitTelling ctx pre)
    (hb : ExitTelling ctx body) (hp : ExitTelling ctx post)
    (h : ForReplayed ctx pre condition body postEmpty post s r t) : TellsExits ctx s t := by
  cases h with
  | stuck run => exact hpre.tells run
  | never run exit carries edge constant literal zero =>
      exact (((hpre.tells run).log _).log _).follow _ _ _
  | loop run exit carries edge unlessZero iterate =>
      have looped := iterate.tellsExits hb hp
      exact ((((hpre.tells run).log _).log _).follow _ _ _).trans looped

end Loop

theorem exitTelling_compositional : Compositional True ExitTelling where
  done ctx := (tellsExits_stepwise.pure true).exitTelling (framed_compositional.done ctx)
  expr ctx e :=
    (tellsExits_stepwise.routes.replayBare e).exitTelling (framed_compositional.expr ctx e)
  assign ctx names e := (tellsExits_stepwise.routes.replayAssignment names e).exitTelling
    (framed_compositional.assign ctx names e)
  letDecl ctx names value? := (tellsExits_stepwise.routes.replayLet names value?).exitTelling
    (framed_compositional.letDecl ctx names value?)
  leave ctx := tellsExits_stepwise.replayLeave.exitTelling (framed_compositional.leave ctx)
  loopJump ctx way := ⟨framed_compositional.loopJump ctx way, fun h =>
    (replayLoopJump_eq_ok h).1.tellsExits⟩
  cond ctx condition body hb :=
    (tellsExits_stepwise.routes.replayIf condition (y := body) hb.steps).exitTelling
      (framed_compositional.cond ctx condition body hb.framed)
  switch hs ctx e arms ha :=
    (tellsExits_stepwise.routes.replaySwitch e (armsAlike_self fun arm hm =>
      (ha arm hm).steps)).exitTelling (framed_compositional.switch hs ctx e arms fun arm hm =>
        (ha arm hm).framed)
  forLoop ctx pre condition body postEmpty post hpre hb hp :=
    ⟨framed_compositional.forLoop ctx pre condition body postEmpty post hpre.framed hb.framed
      hp.framed, fun h => (forReplayed_of_ok h).tellsExits hpre hb hp⟩
  block ctx id body hb := ⟨framed_compositional.block ctx id body hb.framed, fun {s _ _} h => by
    obtain ⟨scope, u, -, hu, rfl⟩ := inBlock_eq_ok.mp h
    have opened : TellsExits ctx s { s with scope? := some scope } :=
      .of_loops List.suffix_rfl rfl
    exact (opened.trans (hb.tells hu)).trans (.of_loops List.suffix_rfl rfl)⟩
  definition ctx d others hs hd ho := ⟨framed_compositional.definition ctx d others hs
    (fun inner => (hd inner).framed) ho.framed, fun {s _ _} h => by
    obtain ⟨_, u, hu, ht⟩ := bind_eq_ok.mp h
    obtain ⟨warnings, more, rfl, -⟩ := (definitionReplayed_of_ok hu).apart
    have defined : TellsExits ctx s { s with warnings, history := more ++ s.history } :=
      .of_loops ⟨more, rfl⟩ rfl
    exact defined.trans (ho.tells ht)⟩
  next ctx id rest first others hf ho :=
    (tellsExits_stepwise.routes.thenOthers id rest (tellsExits_stepwise.warnUnreachable id rest)
      (y := first) hf.steps (v := others) ho.steps).exitTelling
        (framed_compositional.next ctx id rest first others hf.framed ho.framed)

-- Back at the header for another pass.
def State.atHeader (s : State) (site : Site) (header : BlockId) (warnings iteration : Nat)
    (entry : Bindings) : State :=
  { s with
    block := header, op := 0, bindings := entry
    warnings := s.warnings.take warnings
    history := ⟨site, .loopPass header iteration entry⟩ :: s.history }

theorem State.atHeader_start (s : State) {site : Site} {header : BlockId}
    {warnings iteration : Nat} {entry : Bindings} :
    (s.atHeader site header warnings iteration entry).block = header ∧
      (s.atHeader site header warnings iteration entry).op = 0 ∧
        (s.atHeader site header warnings iteration entry).bindings = entry :=
  ⟨rfl, rfl, rfl⟩

section Iterate

variable {parts : LoopParts} {frame : LoopFrame} {header : BlockId} {mapping : Bindings}

-- The loop is noted anew in every pass, so its exits stem from this pass.
theorem exitsFrom_of_pass (hb : ExitTelling ctx parts.body) (hp : ExitTelling ctx parts.post)
    (h : withLoop header (replayPass ctx header parts) s = .ok frame t) :
    ∃ told, t.history = told ++ s.history ∧ frame.ExitsFrom ctx.site header told := by
  obtain ⟨u, outer, hpass, hl, rfl⟩ := withLoop_eq_ok.mp h
  obtain ⟨told, hhistory, hexits⟩ := (passReplayed_of_ok hpass).tellsExits hb hp header s.history
    ⟨[], rfl, fun f o hf => (List.cons.inj hf).1 ▸ .start⟩
  exact ⟨told, hhistory, hexits frame outer hl⟩

theorem passOver_eq_ok {warnings iteration : Nat} {entry : Bindings} :
    passOver ctx header warnings parts iteration entry s = .ok frame t ↔
      withLoop header (replayPass ctx header parts)
        (s.atHeader ctx.site header warnings iteration entry) = .ok frame t := by
  simp only [passOver, rewind, bind_eq_ok, modify_eq_ok, record_eq_ok]
  constructor
  · rintro ⟨_, _, rfl, _, _, rfl, run⟩
    exact run
  · intro run
    exact ⟨(), _, rfl, (), _, rfl, run⟩

-- What the mapping at a header is narrowed to binds each variable to some value.
theorem inhabited_of_meet {first merged : Bindings} {rest : List Bindings}
    (h : Bindings.meet (first :: rest) = .ok merged) {x : VariableId} {held : ValueSet}
    (hx : merged.lookup x = some held) : ∃ v, v ∈ held := by
  simp only [Bindings.meet] at h
  split at h
  · exact absurd h (by simp)
  · next hc =>
    obtain rfl := Except.ok.inj h
    exact List.isEmpty_eq_false_iff_exists_mem.mp (Bindings.conflict?_eq_none.mp hc x held hx)

-- The mapping that the passes come to is one that the last of them keeps.
theorem sustained_of_iterate (hb : ExitTelling ctx parts.body) (hp : ExitTelling ctx parts.post)
    {base : State} {warnings remaining iteration : Nat} {entry : Bindings} {r : Bool}
    (refines : entry.Refines base.bindings) (scope : s.scope? = base.scope?)
    (loops : s.loops = base.loops)
    (h : iterate ctx base.block warnings parts remaining iteration entry s = .ok r t) :
    ∃ mapping before frame after, Sustained ctx parts base r t mapping before frame after := by
  induction remaining generalizing iteration entry s with
  | zero => exact absurd h reject_ne_ok
  | succ remaining ih =>
      obtain ⟨frame, u, refined, hpass, hmeet, h⟩ := iterate_succ_eq_ok.mp h
      rcases h with ⟨rfl, h⟩ | ⟨-, h⟩
      · have run := passOver_eq_ok.mp hpass
        simp only [settle, bind_eq_ok, checkPhiOwnership_eq_ok] at h
        obtain ⟨_, _, ⟨-, rfl⟩, h⟩ := h
        obtain ⟨told, hhistory, exits⟩ := exitsFrom_of_pass hb hp run
        refine ⟨refined, _, frame, u, refines, fun x held => inhabited_of_meet hmeet,
          s.atHeader_start, ⟨scope, loops⟩, run,
          fun b hmem => Bindings.refines_of_meet hmeet (List.mem_cons_of_mem _ hmem), ?_, ?_⟩
        · cases loopLeft_of_ok h with
          | never noEdge => simp [exits.first.mp noEdge]
          | left found => simp [← exits.first.not, found]
        · rintro rfl
          cases loopLeft_of_ok h with
          | left found meets owned edge =>
              exact ⟨rfl, meets, told, hhistory, exits.told _ found⟩
      · have pass := loopPassed_of_ok hpass
        have hscope := (pass.framed hb.framed hp.framed).scope
        have hloops := pass.loops_eq hb.framed hp.framed
        have narrower := Bindings.refines_of_meet hmeet List.mem_cons_self
        refine ih (narrower.trans refines) ?_ ?_ h
        · exact hscope.trans scope
        · exact hloops.trans loops

end Iterate

-- Whatever a loop does, with a condition or without, if it is accepted there is a mapping
-- at its header that one pass over it keeps. What is known behind the loop is known from
-- this pass alone.
theorem sustained_of_replayLoop {condition? : Option Expr} {body post : Block} {postEmpty r : Bool}
    (h : replayLoop ctx ⟨condition?, replayBlock ctx body, postEmpty, replayBlock ctx post⟩ s =
      .ok r t) :
    ∃ mapping before frame after,
      Sustained ctx ⟨condition?, replayBlock ctx body, postEmpty, replayBlock ctx post⟩ s r t
        mapping before frame after := by
  simp only [replayLoop, bind_eq_ok, get_eq_ok] at h
  obtain ⟨_, _, ⟨rfl, rfl⟩, h⟩ := h
  have telling := fun b => exitTelling_compositional.ofBlock ctx b (.inl trivial)
  exact sustained_of_iterate (telling body) (telling post) (.refl _) rfl rfl h

end Replay

namespace Counting

open Replay

-- The loop is entered: the count is the size of the input, or the phi of the header.
def atHeader : State :=
  { State.start graph with
    scope? := program.2.scopeOf? program.1.id, block := ⟨1⟩
    bindings := Bindings.empty.assign ⟨0⟩ (.ofList [⟨0⟩, ⟨2⟩]) }

def loopPost : Yul.Block := loop.post

def loopBody : Yul.Block := loop.body

def loopParts : LoopParts :=
  ⟨some (.ident "n"), replayBlock (subject.context .default) loopBody, false,
    replayBlock (subject.context .default) loopPost⟩

-- After the first pass only the phi is left, and with it the second pass is stable.
theorem sustained_here :
    ∃ t, replayLoop (subject.context .default) loopParts atHeader = .ok true t ∧
      t.bindings.lookup ⟨0⟩ = some (.single ⟨2⟩) ∧ ∃ mapping before frame after,
        Sustained (subject.context .default) loopParts atHeader true t mapping before frame
          after := by
  have replayed : (after? (replayLoop (subject.context .default) loopParts) atHeader).any
      (fun t => t.bindings.lookup ⟨0⟩ = some (.single ⟨2⟩)) = true := by decide +kernel
  obtain ⟨t, ht, hlookup⟩ := (Option.any_eq_true _ _).mp replayed
  have h := after?_eq_some.mp ht
  exact ⟨t, h, of_decide_eq_true hlookup, sustained_of_replayLoop h⟩

end Counting

end SsaReplay
