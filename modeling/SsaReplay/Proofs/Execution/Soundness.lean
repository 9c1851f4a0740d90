import SsaReplay.Proofs.Execution.Leave
import SsaReplay.Proofs.Execution.Loop

namespace SsaReplay

open SsaReplay.Execution
open SsaReplay.Graph (Cfg)
open SsaReplay.Replay
open SsaReplay.Yul (Block Definition Stmt)

namespace Execution

namespace Setup

variable {x : Setup} {s t : State} {memory : Memory} {c : Config} {scope? : Option ScopeId}

theorem simulates_done : x.Simulates scope? (pure true) fun memory => some (.next, memory) where
  framed := framed_compositional.done x.ctx
  runs h _ memory c ha := by
    obtain ⟨rfl, rfl⟩ := pure_eq_ok.mp h
    exact ⟨.next, memory, rfl, .next rfl .refl ha⟩

-- Of a list of statements, the definitions are replayed before the others.
theorem simulates_definitions {others : Walk Bool} {action : Action} (statements : List Stmt)
    (free : Yul.stmtsSwitchFree statements = true) (ho : x.Simulates scope? others action) :
    x.Simulates scope? (inTurn (replayDefinitions x.ctx statements) others) action := by
  induction statements with
  | nil => exact ho
  | cons s rest ih =>
      simp only [Yul.stmtsSwitchFree, Bool.and_eq_true] at free
      cases s with
      | funDef name parameters returns body =>
          rw [Compositional.replayDefinitions_funDef]
          exact simulates_definition (d := ⟨name, parameters, returns, body⟩) free.1 (ih free.2)
      | _ => exact ih free.2

-- The recursion is that of the program.
mutual
theorem simulates_stmt (hx : x.Orderly) (n : Nat) (scope? : Option ScopeId) (s : Stmt)
    (free : s.switchFree = true) :
    x.Simulates scope? (replayStmt x.ctx s) (x.machine.exec (n + 1) scope? s) := by
  cases s with
  | expr e => exact simulates_bare hx (n + 1) e
  | assign names e => exact simulates_assign hx (n + 1) names e
  | letDecl names value? => exact simulates_let hx (n + 1) names value?
  | funDef name parameters returns body =>
      exact simulates_definition (d := ⟨name, parameters, returns, body⟩) free simulates_done
  | cond condition body =>
      exact simulates_cond hx (n + 1) condition fun inner => simulates_block hx n inner body free
  | switch e cases => exact absurd free (by simp [Stmt.switchFree])
  | forLoop pre condition post body =>
      cases pre with
      | mk id statements =>
          simp only [Stmt.switchFree, Block.switchFree, Bool.and_eq_true] at free
          rw [replayStmt]
          exact simulates_inBlock fun inner => simulates_for hx
            (simulates_definitions statements free.1.1
              (simulates_all hx n inner id statements free.1.1))
            (simulates_block hx n inner body free.2) (simulates_block hx n inner post free.1.2) n
  | breakLoop => exact simulates_break hx (n + 1)
  | continueLoop => exact simulates_continue hx (n + 1)
  | leave => exact simulates_leave (n + 1)
  | block body => exact simulates_block hx n scope? body free
theorem simulates_block (hx : x.Orderly) (n : Nat) (scope? : Option ScopeId) (b : Block)
    (free : b.switchFree = true) :
    x.Simulates scope? (replayBlock x.ctx b) (x.machine.execBlock (n + 1) b) := by
  cases b with
  | mk id statements =>
      exact simulates_inBlock fun inner => simulates_definitions statements free
        (simulates_all hx n inner id statements free)
theorem simulates_all (hx : x.Orderly) (n : Nat) (scope? : Option ScopeId) (id : NodeId)
    (statements : List Stmt) (free : Yul.stmtsSwitchFree statements = true) :
    x.Simulates scope? (replayOthers x.ctx id statements)
      (x.machine.execAll (n + 1) scope? statements) := by
  cases statements with
  | nil => exact simulates_done
  | cons s rest =>
      simp only [Yul.stmtsSwitchFree, Bool.and_eq_true] at free
      have hr := simulates_all hx n scope? id rest free.2
      rw [replayOthers, Machine.execAll]
      split
      · next hdef =>
        cases s with
        | funDef name parameters returns body => exact hr
        | _ => exact absurd hdef (by simp [Stmt.isFunDef])
      · exact simulates_thenOthers hx (simulates_stmt hx n scope? s free.1) hr
end

-- The words that a function is called with are what its parameters start with.
theorem standsFor_arguments (hx : x.Orderly) (hc : x.Reached c)
    (hl : x.graph.arguments.length = x.arguments.length) :
    List.Forall₂ (StandsFor c.env) (x.graph.arguments.map fun a => .single a.2) x.arguments := by
  refine List.forall₂_map_left_iff.mpr (List.forall₂_iff_get.mpr ⟨hl, fun i hi hj v hv => ?_⟩)
  obtain rfl := (ValueSet.mem_single _ _).mp hv
  exact hx.argument hc (List.getElem?_eq_getElem hi) (List.getElem?_eq_getElem hj)

theorem assignAll_of_signature {b b' : Bindings} {sets : List (VariableId × ValueSet)}
    {names : List String} {words : List Word} {env : ValueId → Option Word}
    (h : SignatureBound x.ctx scope? b (sets.zip names) b') (ha : b.Agrees memory.words env)
    (hs : List.Forall₂ (StandsFor env) (sets.map Prod.snd) words) :
    ∃ memory', x.machine.assignAll scope? (names.zip words) memory = some memory' ∧
      b'.Agrees memory'.words env ∧ memory'.calls = memory.calls := by
  have hzip : ∀ (sets : List (VariableId × ValueSet)) (names : List String),
      (sets.zip names).map (fun p => (p.2, p.1.2)) = names.zip (sets.map Prod.snd) := by
    intro sets
    induction sets with
    | nil => simp
    | cons set sets ih =>
        intro names
        cases names with
        | nil => rfl
        | cons name names => simp [ih]
  exact assignAll_of_assigned (hzip sets names ▸ h.assigned) ha hs

-- Return variables start with zero, and are the ones that the graph returns.
theorem assignAll_of_returns (hx : x.Orderly) (hc : x.Reached c) {b b' : Bindings}
    {names : List String} (h : ReturnsBound x.ctx scope? names b b')
    (hl : x.graph.returns.length = names.length) (ha : b.Agrees memory.words c.env) :
    (∃ memory', x.machine.assignAll scope? (names.zip (List.replicate names.length 0)) memory =
        some memory' ∧ b'.Agrees memory'.words c.env ∧ memory'.calls = memory.calls) ∧
      List.Forall₂ (fun name y => x.machine.var? scope? name = some y) names
        x.graph.returns := by
  cases h with
  | none noReturns =>
      have noReturns : x.graph.returns = [] := noReturns
      rw [noReturns] at hl ⊢
      obtain rfl := List.length_eq_zero_iff.mp hl.symm
      exact ⟨⟨memory, rfl, ha, rfl⟩, .nil⟩
  | @zero v _ found bound =>
      refine ⟨assignAll_of_signature bound ha ?_, ?_⟩
      · have hsets : (x.ctx.graph.returns.map (·, ValueSet.single v)).map Prod.snd =
            List.replicate names.length (.single v) := by
          rw [List.map_map, ← hl]
          exact List.map_const' ..
        rw [hsets]
        exact standsFor_zeros hx hc found names.length
      · change List.Forall₂ _ names x.ctx.graph.returns
        change x.ctx.graph.returns.length = names.length at hl
        exact (bound.resolved hl).imp fun name y hy => var?_eq_some.mpr hy

-- Code that is run next to its graph, from the entry on.
theorem runs_body_of_graph (hx : x.Orderly) (n : Nat) {body : Block}
    (free : body.switchFree = true) {r : Bool} (run : replayBlock x.ctx body s = .ok r t)
    (hb : s.block = x.graph.entry) (ho : s.op = 0) (hl : s.loops = []) (hm : memory.calls = [])
    (ha : s.bindings.Agrees memory.words (x.graph.given x.arguments)) :
    ∃ flow memory', x.machine.execBlock (n + 1) body memory = some (flow, memory') ∧
      flow ≠ .broken ∧ flow ≠ .continued ∧
        x.Outcome (x.graph.first x.arguments) r t memory' flow := by
  have hsim := simulates_block hx n s.scope? body free
  have outside : t.loops = [] := (hl ▸ (hsim.framed run).loops).eq_nil
  have aligned : x.Aligned s memory (x.graph.first x.arguments) :=
    ⟨.refl, hb.symm, ho.symm, hm.symm, ha⟩
  obtain ⟨flow, memory', he, hout⟩ := hsim.runs run rfl aligned
  have inside : ∀ {way : LoopWay}, ¬x.Escapes way (x.graph.first x.arguments) t.loops memory' := by
    intro way escapes
    cases escapes with
    | mk opened => exact absurd (outside.symm.trans opened) (by simp)
  refine ⟨flow, memory', he, ?_, ?_, hout⟩
  · rintro rfl
    cases hout with
    | broken escapes => exact inside escapes
  · rintro rfl
    cases hout with
    | continued escapes => exact inside escapes

theorem runs_main (hx : x.Orderly) (n : Nat) {program : Block}
    (free : program.switchFree = true) (leaves : program.leaveFree = true)
    (h : replayMain x.ctx program (State.start x.ctx.graph) = .ok () t) :
    ∃ e calls, x.machine.runMain program (n + 1) = some (e, calls) ∧
      x.graph.Finishes x.oracle (x.graph.first x.arguments) e calls := by
  obtain ⟨falls, v, hb, ends⟩ := replayMain_of_ok h
  have uncalled : Memory.empty.calls = [] := rfl
  obtain ⟨flow, memory', he, hbroken, hcontinued, ho⟩ :=
    runs_body_of_graph hx n free hb rfl rfl rfl uncalled Bindings.agrees_empty
  have hrun : x.machine.runMain program (n + 1) = Machine.mainEnd flow memory' := by
    simp only [Machine.runMain, Option.bind_eq_bind, he, Option.bind_some]
  cases ho with
  | next falls reaches aligned =>
      rcases ends with ⟨-, exit, -⟩ | ⟨rfl, -⟩
      · refine ⟨.exited, memory'.calls, hrun, _, reaches, ?_⟩
        rw [aligned.step?_eq exit, Cfg.leave?, aligned.calls]
      · exact absurd falls (by simp)
  | broken => exact absurd rfl hbroken
  | continued => exact absurd rfl hcontinued
  | left => exact absurd rfl (x.machine.neverLeaves_execBlock (n + 1) program leaves _ _ _ he)
  | stopped finishes => exact ⟨.terminated, memory'.calls, hrun, finishes⟩

-- What the return variables hold in the end is what the graph returns.
theorem functionEnd_of_returns {d : Definition} {flow : Flow} {words : List Word}
    (named : List.Forall₂
      (fun name y => x.machine.var? (x.ctx.analysis.scopeOf? d.body.id) name = some y) d.returns
      x.graph.returns)
    (hf : flow = .next ∨ flow = .left) (hw : x.Returns memory words) :
    x.machine.functionEnd d flow memory = some (.returned words, memory.calls) := by
  have hs : x.machine.analysis.scopeOf? d.body.id = x.ctx.analysis.scopeOf? d.body.id := rfl
  have returned : (d.returns.mapM fun name => (x.machine.var?
      (x.ctx.analysis.scopeOf? d.body.id) name).bind memory.words) = some words := by
    refine mapM_eq_some_of_forall₂ ?_
    refine List.forall₂_iff_get.mpr ⟨named.length_eq.trans hw.length_eq, fun i hi hj => ?_⟩
    have hy := (List.forall₂_iff_get.mp named).2 i hi (named.length_eq ▸ hi)
    have hz := (List.forall₂_iff_get.mp hw).2 i (named.length_eq ▸ hi) hj
    rw [hy, Option.bind_some, hz]
  rcases hf with rfl | rfl <;>
    simp only [Machine.functionEnd, hs, Option.bind_eq_bind, returned, Option.bind_some]

theorem runs_function (hx : x.Orderly) (n : Nat) {d : Definition}
    (free : d.body.switchFree = true) (h : DefinitionRun x.ctx d s t)
    (hc : x.arguments.length = d.parameters.length) :
    ∃ e calls, x.machine.runFunction d x.arguments (n + 1) = some (e, calls) ∧
      x.graph.Finishes x.oracle (x.graph.first x.arguments) e calls := by
  obtain ⟨outer, rfl⟩ := h.starts
  have hfirst : x.Reached (x.graph.first x.arguments) := .refl
  cases functionReplayed_of_ok h.run with
  | @mk bound all falls u _ parameters returns run ends =>
      have stand := standsFor_arguments hx hfirst (h.parameters.trans hc.symm)
      have blank : Bindings.empty.Agrees Memory.empty.words (x.graph.given x.arguments) :=
        Bindings.agrees_empty
      obtain ⟨started, hstarted, hbound, hcalls⟩ :=
        assignAll_of_signature parameters blank (by rwa [List.map_map])
      obtain ⟨⟨begun, hbegun, hall, hcalls'⟩, hnames⟩ :=
        assignAll_of_returns hx hfirst returns h.returns hbound
      obtain ⟨flow, memory', he, hbroken, hcontinued, ho⟩ := runs_body_of_graph hx n free run rfl
        rfl rfl (hcalls'.trans hcalls) hall
      have hs : x.machine.analysis.scopeOf? d.body.id = x.ctx.analysis.scopeOf? d.body.id := rfl
      have hrun : x.machine.runFunction d x.arguments (n + 1) =
          x.machine.functionEnd d flow memory' := by
        simp only [Machine.runFunction, Option.bind_eq_bind, hs, hstarted, hbegun, he,
          Option.bind_some]
      cases ho with
      | next falls reaches aligned =>
          rcases ends with ⟨hf, -⟩ | ⟨-, left⟩
          · exact absurd (falls.symm.trans hf) (by simp)
          · cases (Outcome.of_functionLeft left aligned : x.Outcome _ true u memory' .left) with
            | left hw finishes =>
                have hend := functionEnd_of_returns hnames (.inl rfl) hw
                exact ⟨.returned _, memory'.calls, hrun.trans hend, finishes.before reaches⟩
      | broken => exact absurd rfl hbroken
      | continued => exact absurd rfl hcontinued
      | left hw finishes =>
          have hend := functionEnd_of_returns hnames (.inr rfl) hw
          exact ⟨.returned _, memory'.calls, hrun.trans hend, finishes⟩
      | stopped finishes => exact ⟨.terminated, memory'.calls, hrun, finishes⟩

-- Enough passes for every loop are one.
theorem eventually_of_runs {run : Nat → Option (Ending × List Call)}
    (h : ∀ n, ∃ e calls, run (n + 1) = some (e, calls) ∧
      x.graph.Finishes x.oracle (x.graph.first x.arguments) e calls) :
    ∃ ending, Eventually run ending ∧
      Eventually (x.graph.run x.oracle x.arguments) ending := by
  obtain ⟨e, calls, -, hfinishes⟩ := h 0
  have hgraph := Cfg.runFrom_of_finishes hfinishes
  refine ⟨(e, calls), ⟨1, fun m hm => ?_⟩, hgraph⟩
  obtain ⟨n, rfl⟩ := Nat.exists_eq_add_of_le' hm
  obtain ⟨e', calls', hrun, hfinishes'⟩ := h n
  rw [hrun, (Cfg.runFrom_of_finishes hfinishes').unique hgraph]

end Setup

end Execution

-- Where the blocks of an accepted graph can be put into an order, running it does what its
-- code does: it makes the same calls, whatever they answer, and comes to the same end.
theorem run_eq_of_accepted (s : Subject) (settings : Settings)
    (h : judge s settings = .accepted) (free : s.program.switchFree = true)
    (leaves : s.program.leaveFree = true) (site : Site) (d? : Option Definition)
    (entered : ⟨site, .entered d?⟩ ∈ (s.run settings).history) (built : site.graph.Built)
    (rank : BlockId → Nat) (ranked : site.graph.Ranked rank) (oracle : Oracle)
    (arguments : List Word) (count : ∀ d ∈ d?, arguments.length = d.parameters.length)
    (conforms : site.graph.Conforms s.dialect oracle arguments) :
    ∃ ending,
      Eventually (Machine.run ⟨s.analysis, s.dialect, oracle⟩ s.program d? arguments) ending ∧
        Eventually (site.graph.run oracle arguments) ending := by
  obtain ⟨t, hrun, hhistory⟩ := Subject.replayMain_of_accepted h
  rw [hhistory] at entered
  let x : Setup := ⟨(s.context settings).on site, oracle, arguments, rank⟩
  have hx : x.Orderly := ⟨built.placed, ranked, conforms⟩
  rcases told_of_main (.inr free) hrun (List.mem_reverse.mp entered) with
    ⟨rfl, hd⟩ | ⟨-, d, before, after, new, hfree, hdef, -, -, -, hd⟩
  · obtain rfl := hd d? rfl
    exact Setup.eventually_of_runs (x := x) fun n => Setup.runs_main hx n free leaves hrun
  · obtain rfl := hd d? rfl
    exact Setup.eventually_of_runs (x := x) fun n =>
      Setup.runs_function hx n (hfree.resolve_left not_false) hdef (count d rfl)

-- A loop that is left in its first pass, and a condition behind it.
namespace Breaking

open SsaReplay.Graph (ConstructionStep)

def draft : List Yul.Draft :=
  [.letDecl ["n"] (some (.call "calldatasize" [])),
    .forLoop [] (.literal (.number 1)) []
      [.expr (.call "sstore" [.ident "n", .literal (.number 1)]), .breakLoop],
    .cond (.ident "n") [.expr (.call "sstore" [.ident "n", .ident "n"])]]

def steps : List ConstructionStep :=
  [.operation (.builtin ⟨23⟩) [] 1, .literal 1, .block, .block, .block, .block, .exit (.jump ⟨1⟩),
    .moveTo ⟨1⟩, .operation (.builtin ⟨29⟩) [⟨0⟩, ⟨1⟩] 0, .exit (.jump ⟨2⟩),
    .moveTo ⟨2⟩, .exit (.branch ⟨⟨0⟩, ⟨3⟩, ⟨4⟩⟩),
    .moveTo ⟨3⟩, .operation (.builtin ⟨29⟩) [⟨0⟩, ⟨0⟩] 0, .exit (.jump ⟨4⟩),
    .moveTo ⟨4⟩, .exit .mainExit]

def graph : Cfg := Cfg.ofSteps none steps

def program : Yul.Block × Yul.Analysis := Yul.laidOut draft

def subject : Subject := ⟨program.1, program.2, .evm, ⟨graph, []⟩⟩

-- The input has five bytes, and stores have no results.
def oracle : Oracle := fun _ call => some (if call.target = .builtin ⟨23⟩ then [5] else [])

-- The code and the graph make the same three calls, the latest first.
example : ∀ run ∈
    [Machine.run ⟨subject.analysis, subject.dialect, oracle⟩ subject.program none [] 2,
      graph.run oracle [] 12],
    run = some (.exited,
      [⟨.builtin ⟨29⟩, [5, 5]⟩, ⟨.builtin ⟨29⟩, [5, 1]⟩, ⟨.builtin ⟨23⟩, []⟩]) := by
  decide +kernel

theorem built : graph.Built := Graph.Cfg.built_of_steps (by decide +kernel)

theorem ranked : graph.Ranked (·.index) := by
  have hall : graph.blocks.toList.zipIdx.all
      (fun p => p.1.exit.targets.all fun target => p.2 < target.index) = true := by
    decide +kernel
  rintro a b ⟨data, hd, hb⟩
  have hmem : (data, a.index) ∈ graph.blocks.toList.zipIdx :=
    List.mk_mem_zipIdx_iff_getElem?.mpr (by rwa [Array.getElem?_toList])
  exact of_decide_eq_true (List.all_eq_true.mp (List.all_eq_true.mp hall _ hmem) b hb)

theorem conforms : graph.Conforms .evm oracle [] := by
  have hall : graph.blocks.toList.all (fun data => data.operations.all fun op =>
      op.callee.continues .evm &&
        op.outputs.length == if op.callee.target = .builtin ⟨23⟩ then 1 else 0) = true := by
    decide +kernel
  intro c data op operands _ hd ho _
  have hmem : data ∈ graph.blocks.toList := Array.mem_toList_iff.mpr (Array.mem_of_getElem? hd)
  have hop := List.all_eq_true.mp (List.all_eq_true.mp hall _ hmem) op (List.mem_of_getElem? ho)
  obtain ⟨hcontinues, hlength⟩ := Bool.and_eq_true_iff.mp hop
  rw [if_pos hcontinues]
  refine ⟨_, rfl, ?_⟩
  rw [beq_iff_eq.mp hlength]
  split <;> rfl

theorem run_eq_here :
    judge subject .default = .accepted ∧ subject.program.switchFree = true ∧
      subject.program.leaveFree = true ∧
        ∃ ending,
          Eventually (Machine.run ⟨subject.analysis, subject.dialect, oracle⟩ subject.program none
              []) ending ∧
            Eventually ((subject.context .default).site.graph.run oracle []) ending := by
  have accepted : judge subject .default = .accepted := by decide +kernel
  have free : subject.program.switchFree = true := by decide +kernel
  have leaves : subject.program.leaveFree = true := by decide +kernel
  have hgraph : (subject.context .default).site.graph = graph := rfl
  exact ⟨accepted, free, leaves, run_eq_of_accepted subject .default accepted free leaves
    (subject.context .default).site none (Subject.mainEntered_of_accepted accepted)
    (hgraph ▸ built) (·.index) (hgraph ▸ ranked) oracle [] (fun _ hd => nomatch hd)
    (hgraph ▸ conforms)⟩

end Breaking

end SsaReplay
