import SsaReplay.Proofs.Returns
import SsaReplay.Proofs.Standing.Statement

namespace SsaReplay

open SsaReplay.Yul (Block Case Stmt)

-- Whether a `leave` stands outside of every function in it.
mutual
def Yul.Block.leaves : Block → Bool
  | .mk _ statements => Yul.stmtsLeave statements
def Yul.Stmt.leaves : Stmt → Bool
  | .leave => true
  | .cond _ body => body.leaves
  | .switch _ cases => Yul.casesLeave cases
  | .forLoop pre _ post body => pre.leaves || post.leaves || body.leaves
  | .block body => body.leaves
  | _ => false
def Yul.stmtsLeave : List Stmt → Bool
  | [] => false
  | s :: rest => s.leaves || Yul.stmtsLeave rest
def Yul.casesLeave : List Case → Bool
  | [] => false
  | .mk _ body :: rest => body.leaves || Yul.casesLeave rest
end

theorem Yul.Block.mem_subBlocks (b : Block) : b ∈ b.subBlocks := by
  cases b with
  | mk id statements => exact List.mem_cons_self

namespace Replay

-- A replay that is told, statement by statement, which loops of the same graph enclose it, by
-- their headers and the innermost first. A function body starts with none, whatever loops its
-- definition stands in; the pre block of a loop is not inside of it.
mutual
def replayStmtIn : List BlockId → Context → Stmt → Walk Bool
  | _, ctx, .expr e => replayBare ctx e
  | _, ctx, .assign names e => replayAssignment ctx names e
  | _, ctx, .letDecl names value? => replayLet ctx names value?
  | _, ctx, .funDef name parameters returns body => do
      replayDefinition ctx ⟨name, parameters, returns, body⟩
        (fun inner => replayBlockIn [] inner body)
      pure true
  | enclosing, ctx, .cond condition body =>
      replayIf ctx condition (replayBlockIn enclosing ctx body)
  | enclosing, ctx, .switch e cases => replaySwitch ctx e (replayArmsIn enclosing ctx cases)
  | enclosing, ctx, .forLoop (.mk id pre) condition post body =>
      inBlock ctx id
        (replayForIn ctx
          (inTurn (replayDefinitionsIn enclosing ctx pre) (replayOthersIn enclosing ctx id pre))
          condition (fun header => replayBlockIn (header :: enclosing) ctx body)
          post.statements.isEmpty (fun header => replayBlockIn (header :: enclosing) ctx post))
  | enclosing, ctx, .breakLoop => replayJumpIn enclosing ctx .exits
  | enclosing, ctx, .continueLoop => replayJumpIn enclosing ctx .continues
  | _, ctx, .leave => replayLeave ctx
  | enclosing, ctx, .block body => replayBlockIn enclosing ctx body
def replayBlockIn : List BlockId → Context → Block → Walk Bool
  | enclosing, ctx, .mk id statements =>
      inBlock ctx id
        (inTurn (replayDefinitionsIn enclosing ctx statements)
          (replayOthersIn enclosing ctx id statements))
def replayDefinitionsIn : List BlockId → Context → List Stmt → Walk Unit
  | _, _, [] => pure ()
  | enclosing, ctx, s :: rest => do
      if s.isFunDef then
        let _ ← replayStmtIn enclosing ctx s
        replayDefinitionsIn enclosing ctx rest
      else
        replayDefinitionsIn enclosing ctx rest
def replayOthersIn : List BlockId → Context → NodeId → List Stmt → Walk Bool
  | _, _, _, [] => pure true
  | enclosing, ctx, id, s :: rest => do
      if s.isFunDef then
        replayOthersIn enclosing ctx id rest
      else if ← replayStmtIn enclosing ctx s then
        replayOthersIn enclosing ctx id rest
      else
        warnUnreachable ctx id rest
        pure false
def replayArmsIn : List BlockId → Context → List Case → List Arm
  | _, _, [] => []
  | enclosing, ctx, .mk value? body :: rest =>
      (value?, replayBlockIn enclosing ctx body) :: replayArmsIn enclosing ctx rest
end

def replayMainIn (ctx : Context) (program : Block) : Walk Unit := do
  record ctx (.entered none)
  if ← replayBlockIn [] ctx program then
    leaveByMainExit ctx
  else
    pure ()

-- Where the parts of a program stand in order. Its blocks have scopes unless they may be
-- without, and it leaves the main graph by a return only if it may.
structure Orderly (may : Lapses) (ctx : Context) (blocks : List Block) (leaves : Bool) : Prop where
  opened : ∀ b ∈ blocks, ctx.analysis.scopeOf? b.id = none → may.unscoped
  returning : ctx.site.owner? = none → leaves = true → may.returning

variable {may : Lapses} {ctx : Context} {here : Standing}

namespace Orderly

variable {blocks : List Block} {leaves : Bool}

-- A part has fewer blocks, and leaves only where the whole does.
theorem part {blocks' : List Block} {leaves' : Bool} (h : Orderly may ctx blocks leaves)
    (hb : ∀ b ∈ blocks', b ∈ blocks) (hl : leaves' = true → leaves = true) :
    Orderly may ctx blocks' leaves' :=
  ⟨fun b hmem => h.opened b (hb b hmem), fun ho hleaves => h.returning ho (hl hleaves)⟩

-- Inside a function, a `leave` is in order.
theorem within {leaves' : Bool} (h : Orderly may ctx blocks leaves) (f : FunctionId)
    (graph : Graph.Cfg) : Orderly may (ctx.within f graph) blocks leaves' :=
  ⟨h.opened, fun ho => absurd ho nofun⟩

variable {s : Stmt} {rest : List Stmt}

theorem first (h : Orderly may ctx (Yul.stmtsBlocks (s :: rest)) (Yul.stmtsLeave (s :: rest))) :
    Orderly may ctx (Yul.stmtBlocks s) s.leaves :=
  h.part (fun _ hb => List.mem_append_left _ hb) fun hl => by simp [Yul.stmtsLeave, hl]

theorem behind (h : Orderly may ctx (Yul.stmtsBlocks (s :: rest)) (Yul.stmtsLeave (s :: rest))) :
    Orderly may ctx (Yul.stmtsBlocks rest) (Yul.stmtsLeave rest) :=
  h.part (fun _ hb => List.mem_append_right _ hb) fun hl => by simp [Yul.stmtsLeave, hl]

end Orderly

namespace Accords

theorem inTurn {first first' : Walk Unit} {others others' : Walk Bool}
    (hf : Accords may here here first first') (ho : Accords may here here others others') :
    Accords may here here (inTurn first others) (inTurn first' others') :=
  hf.bind fun _ => ho

-- The recursion is that of the replay. The loops that are open around a statement are the
-- ones that enclose it.
mutual
theorem stmt (ctx : Context) (here : Standing) {s : Stmt}
    (placed : here.scope? = none → may.unscoped)
    (orderly : Orderly may ctx (Yul.stmtBlocks s) s.leaves) :
    Accords may here here (replayStmt ctx s) (replayStmtIn here.loops ctx s) := by
  cases s with
  | expr e => exact (routes placed).replayBare e
  | assign names e => exact (routes placed).replayAssignment names e
  | letDecl names value? => exact (routes placed).replayLet names value?
  | funDef name parameters returns body =>
      refine bind (replayDefinition placed ?_ fun f graph scope? => ?_) fun _ => pure true
      · exact orderly.opened body body.mem_subBlocks
      · exact ofBlock (ctx.within f graph) ⟨scope?, []⟩ (orderly.within f graph)
  | cond condition body =>
      exact (routes placed).replayIf condition (ofBlock ctx here (orderly.part (fun _ h => h) id))
  | switch e cases =>
      exact (routes placed).replaySwitch e (ofArms ctx here (orderly.part (fun _ h => h) id))
  | forLoop pre condition post body =>
      cases pre with
      | mk id statements =>
          have inPre : Orderly may ctx (Yul.stmtsBlocks statements) (Yul.stmtsLeave statements) :=
            orderly.part (fun b h => by simp [Yul.stmtBlocks, Yul.Block.subBlocks, h])
              fun h => by simp [Yul.Stmt.leaves, Yul.Block.leaves, h]
          have inPost : Orderly may ctx post.subBlocks post.leaves :=
            orderly.part (fun b h => by simp [Yul.stmtBlocks, h])
              fun h => by simp [Yul.Stmt.leaves, h]
          have inBody : Orderly may ctx body.subBlocks body.leaves :=
            orderly.part (fun b h => by simp [Yul.stmtBlocks, h])
              fun h => by simp [Yul.Stmt.leaves, h]
          have known : ctx.analysis.scopeOf? id = none → may.unscoped :=
            orderly.opened (.mk id statements) (by simp [Yul.stmtBlocks, Yul.Block.subBlocks])
          refine inBlock id known fun scope => ?_
          have placed : some scope = none → may.unscoped := nofun
          refine replayFor placed condition _ ?_ ?_ ?_
          · exact inTurn (definitions ctx _ placed inPre) (others ctx _ id placed inPre)
          · exact fun header => ofBlock ctx (Standing.inLoop _ header) inBody
          · exact fun header => ofBlock ctx (Standing.inLoop _ header) inPost
  | breakLoop => exact replayLoopJump placed .exits
  | continueLoop => exact replayLoopJump placed .continues
  | leave =>
      exact (routes placed).replayLeave (leaveByReturn fun ho => orderly.returning ho rfl)
  | block body => exact ofBlock ctx here (orderly.part (fun _ h => h) id)
theorem ofBlock (ctx : Context) (here : Standing) {b : Block}
    (orderly : Orderly may ctx b.subBlocks b.leaves) :
    Accords may here here (replayBlock ctx b) (replayBlockIn here.loops ctx b) := by
  cases b with
  | mk id statements =>
      have inside : Orderly may ctx (Yul.stmtsBlocks statements) (Yul.stmtsLeave statements) :=
        orderly.part (fun b h => List.mem_cons_of_mem _ h) fun h => h
      have known : ctx.analysis.scopeOf? id = none → may.unscoped :=
        orderly.opened (.mk id statements) (Yul.Block.mem_subBlocks _)
      refine inBlock id known fun scope => ?_
      exact inTurn (definitions ctx ⟨some scope, here.loops⟩ nofun inside)
        (others ctx ⟨some scope, here.loops⟩ id nofun inside)
theorem definitions (ctx : Context) (here : Standing) {statements : List Stmt}
    (placed : here.scope? = none → may.unscoped)
    (orderly : Orderly may ctx (Yul.stmtsBlocks statements) (Yul.stmtsLeave statements)) :
    Accords may here here (replayDefinitions ctx statements)
      (replayDefinitionsIn here.loops ctx statements) := by
  cases statements with
  | nil => exact pure ()
  | cons s rest =>
      have next := definitions ctx here placed orderly.behind
      have first := stmt ctx here placed orderly.first
      exact ite (bind first fun _ => next) next
theorem others (ctx : Context) (here : Standing) (id : NodeId) {statements : List Stmt}
    (placed : here.scope? = none → may.unscoped)
    (orderly : Orderly may ctx (Yul.stmtsBlocks statements) (Yul.stmtsLeave statements)) :
    Accords may here here (replayOthers ctx id statements)
      (replayOthersIn here.loops ctx id statements) := by
  cases statements with
  | nil => exact pure true
  | cons s rest =>
      have next := others ctx here id placed orderly.behind
      exact ite next ((routes placed).thenOthers id rest (ite (warnBlock nofun) (pure ()))
        (stmt ctx here placed orderly.first) next)
theorem ofArms (ctx : Context) (here : Standing) {cases : List Case}
    (orderly : Orderly may ctx (Yul.casesBlocks cases) (Yul.casesLeave cases)) :
    ArmsAlike (Accords may here here) (replayArms ctx cases)
      (replayArmsIn here.loops ctx cases) := by
  cases cases with
  | nil => exact .nil
  | cons c rest =>
      cases c with
      | mk value? body =>
          have inBody : Orderly may ctx body.subBlocks body.leaves :=
            orderly.part (fun b h => List.mem_append_left _ h) fun h => by simp [Yul.casesLeave, h]
          have behind : Orderly may ctx (Yul.casesBlocks rest) (Yul.casesLeave rest) :=
            orderly.part (fun b h => List.mem_append_right _ h) fun h => by simp [Yul.casesLeave, h]
          exact .cons ⟨rfl, ofBlock ctx here inBody⟩ (ofArms ctx here behind)
end

theorem main (main : ctx.site.owner? = none) {program : Block}
    (orderly : Orderly may ctx program.subBlocks program.leaves) :
    Accords may ⟨none, []⟩ ⟨none, []⟩ (replayMain ctx program) (replayMainIn ctx program) :=
  bind (record trivial) fun _ => (ofBlock ctx ⟨none, []⟩ orderly).bind fun _ =>
    ite (leaveByMainExit main) (pure ())

end Accords

-- The edge of a jump is noted on the innermost of the loops that enclose it.
inductive JumpNoted (ctx : Context) (way : LoopWay) (enclosing : List BlockId) (s t : State) :
    Prop
  | mk {frame : LoopFrame} {outer : List LoopFrame} {target : BlockId} {bindings : Bindings}
      (opened : s.loops = frame :: outer)
      (encloses : enclosing = frame.header :: outer.map LoopFrame.header)
      (noted : t.loops = frame.note way s.block target bindings :: outer)
      (told : ⟨ctx.site, .loopEdge way frame.header s.block target⟩ ∈ t.history)

theorem jumpNoted_of_ok {enclosing : List BlockId} {way : LoopWay} {s t : State} {r : Bool}
    (h : replayJumpIn enclosing ctx way s = .ok r t) : JumpNoted ctx way enclosing s t := by
  cases enclosing with
  | nil => exact absurd h rejectOperation_ne_ok
  | cons header outer =>
      simp only [replayJumpIn, bind_eq_ok, get_eq_ok, ite_eq_ok, pure_eq_ok] at h
      obtain ⟨_, _, ⟨rfl, rfl⟩, ⟨hloops, _, _, hj, -, rfl⟩ | ⟨-, h⟩⟩ := h
      · cases loopJumped_of_ok hj with
        | mk exit carries recorded =>
            cases recorded with
            | @mk frame outer opened edge agrees =>
                refine .mk opened ?_ rfl List.mem_cons_self
                exact hloops.symm.trans (congrArg (List.map LoopFrame.header) opened)
      · cases h

theorem loops_of_definition {d : Yul.Definition} {body : Context → Walk Bool} {s t : State}
    {u : Unit} (h : replayDefinition ctx d body s = .ok u t) : t.loops = s.loops := by
  cases definitionReplayed_of_ok h with
  | mk => rfl

end Replay

open Replay

namespace Subject

variable {s : Subject} {settings : Settings} {may : Lapses}

-- A whole run is told by the loops that enclose its statements, and all it tells is in order.
theorem accords (orderly : Orderly may (s.context settings) s.program.subBlocks s.program.leaves) :
    replayMainIn (s.context settings) s.program (State.start s.flow.main) =
        replayMain (s.context settings) s.program (State.start s.flow.main) ∧
      (∀ e ∈ (s.run settings).history, e.Regular may) ∧
      (∀ f ∈ (s.run settings).warnings, f.Regular may) ∧
      ∀ f, (s.run settings).fatal? = some f → f.Regular may := by
  obtain ⟨same, told⟩ := Accords.main rfl orderly (State.start s.flow.main) rfl
    ⟨List.forall_mem_nil _, List.forall_mem_nil _⟩
  refine ⟨same, ?_⟩
  unfold run
  cases hm : replayMain (s.context settings) s.program (State.start s.flow.main) with
  | ok u t =>
      rw [hm] at told
      refine ⟨fun e he => told.2.history e (List.mem_reverse.mp he), told.2.warnings, ?_⟩
      exact fun f hf => absurd hf nofun
  | error h t =>
      rw [hm] at told
      obtain ⟨ht, found, rfl, regular⟩ := told
      refine ⟨fun e he => ht.history e (List.mem_reverse.mp he), ht.warnings, fun f hf => ?_⟩
      obtain rfl := Option.some.inj hf
      exact regular

end Subject

-- In an accepted run no function is left by the exit of a main graph, and a main program with
-- no `leave` outside of its functions is not left by a return. The run is one in which every
-- break and continue is told which loops of its graph enclose it, a function body being told
-- of none from outside, and notes its edge on the innermost of them.
theorem exits_of_accepted {s : Subject} {settings : Settings}
    (accepted : judge s settings = .accepted) :
    (∃ t, replayMainIn (s.context settings) s.program (State.start s.flow.main) = .ok () t ∧
      (s.run settings).history = t.history.reverse) ∧
    (∀ enclosing ctx way before r after,
      replayJumpIn enclosing ctx way before = .ok r after →
        JumpNoted ctx way enclosing before after) ∧
    (∀ ctx d body before u after,
      replayDefinition ctx d body before = .ok u after → after.loops = before.loops) ∧
    ∀ e ∈ (s.run settings).history,
      (∀ b, e.event = .left b .mainExit → e.site.owner? = none) ∧
      ∀ b values, e.event = .left b (.functionReturn values) → e.site.owner? = none →
        s.program.leaves = true := by
  have orderly : Orderly ⟨True, s.program.leaves = true⟩ (s.context settings)
      s.program.subBlocks s.program.leaves := ⟨fun _ _ _ => trivial, fun _ h => h⟩
  obtain ⟨same, regular, -⟩ := Subject.accords orderly
  obtain ⟨t, hrun, hhistory⟩ := Subject.replayMain_of_accepted accepted
  refine ⟨⟨t, same.trans hrun, hhistory⟩, fun _ _ _ _ _ _ => jumpNoted_of_ok,
    fun _ _ _ _ _ _ => loops_of_definition, fun e he => ?_⟩
  have told := regular e he
  unfold Entry.Regular at told
  refine ⟨fun b hb => ?_, fun b values hb => ?_⟩
  · rw [hb] at told
    exact told
  · rw [hb] at told
    exact told

-- A loop whose body defines a function with a loop of its own, calls it, and ends there.
namespace Nesting

open SsaReplay.Graph (Cfg Construction)

def draft : List Yul.Draft :=
  [.forLoop [] (.call "calldatasize" []) []
    [.funDef "f" [] [] [.forLoop [] (.literal (.number 1)) [] [.breakLoop]],
      .expr (.call "f" []), .breakLoop]]

def main : Cfg :=
  Cfg.ofSteps none [.block, .block, .block, .exit (.jump ⟨1⟩), .moveTo ⟨1⟩,
    .operation (.builtin ⟨23⟩) [] 1, .exit (.branch ⟨⟨0⟩, ⟨2⟩, ⟨3⟩⟩), .moveTo ⟨2⟩,
    .operation (.function ⟨0⟩ true) [] 0, .exit (.jump ⟨3⟩), .moveTo ⟨3⟩, .exit .mainExit]

def callee : Cfg :=
  Cfg.ofSteps (some ⟨0⟩) [.literal 1, .block, .block, .exit (.jump ⟨1⟩), .moveTo ⟨1⟩,
    .exit (.jump ⟨2⟩), .moveTo ⟨2⟩, .exit (.functionReturn [])]

def subject : Subject :=
  ⟨(Yul.laidOut draft).1, (Yul.laidOut draft).2, .evm, ⟨main, [(⟨0⟩, callee)]⟩⟩

theorem accepted : judge subject .default = .accepted := by decide +kernel

theorem exits_here :
    judge subject .default = .accepted ∧ subject.program.leaves = false ∧
      (∃ t, replayMainIn (subject.context .default) subject.program (State.start main) =
        .ok () t ∧ (subject.run .default).history = t.history.reverse) ∧
      ∀ e ∈ (subject.run .default).history,
        (∀ b, e.event = .left b .mainExit → e.site.owner? = none) ∧
        ∀ b values, e.event = .left b (.functionReturn values) → e.site.owner? ≠ none := by
  obtain ⟨told, -, -, exits⟩ := exits_of_accepted accepted
  have inside : subject.program.leaves = false := by decide +kernel
  refine ⟨accepted, inside, told, fun e he => ⟨(exits e he).1, fun b values hb ho => ?_⟩⟩
  exact absurd ((exits e he).2 b values hb ho) (inside ▸ Bool.false_ne_true)

end Nesting

-- A program that is nothing but a `leave`, and a main graph that returns.
namespace Returning

open SsaReplay.Graph (Cfg)

def draft : List Yul.Draft := [.leave]

def main : Cfg := Cfg.ofSteps none [.exit (.functionReturn [])]

def subject : Subject := ⟨(Yul.laidOut draft).1, (Yul.laidOut draft).2, .evm, ⟨main, []⟩⟩

-- The program is accepted, and leaves its main graph by a return.
theorem return_taken :
    Yul.program? draft = .ok (subject.program, subject.analysis) ∧
      judge subject .default = .accepted ∧
        ∃ e ∈ (subject.run .default).history, e.site.owner? = none ∧
          ∃ b values, e.event = .left b (.functionReturn values) := by
  have taken : (subject.run .default).history.any (fun e =>
      e.site.owner?.isNone && e.event.returns) = true := by decide +kernel
  refine ⟨Yul.program?_eq_laidOut (by decide +kernel), by decide +kernel, ?_⟩
  obtain ⟨e, he, hevent⟩ := List.any_eq_true.mp taken
  obtain ⟨howner, hreturns⟩ := Bool.and_eq_true_iff.mp hevent
  exact ⟨e, he, Option.isNone_iff_eq_none.mp howner, Event.returns_iff.mp hreturns⟩

end Returning

end SsaReplay
