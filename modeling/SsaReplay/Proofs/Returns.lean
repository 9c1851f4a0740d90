import SsaReplay.Proofs.Callees
import SsaReplay.Proofs.Movement

namespace SsaReplay

open SsaReplay.Graph (BasicBlock Cfg)

-- Exits lead from the entry of the graph to a block that returns from the function.
def Graph.Cfg.Returns (g : Cfg) : Prop :=
  ∃ b data values, g.Reachable b ∧ g.block? b = some data ∧ data.exit = .functionReturn values

namespace Replay

-- A replay for the function comes to a return of the graph, at a leave statement or at
-- the end of the body.
def Returned (history : List Entry) (f : FunctionId) : Prop :=
  ∃ site b values, site.owner? = some f ∧ ⟨site, .left b (.functionReturn values)⟩ ∈ history

def Event.returns : Event → Bool
  | .left _ (.functionReturn _) => true
  | _ => false

theorem Event.returns_iff {e : Event} :
    e.returns = true ↔ ∃ b values, e = .left b (.functionReturn values) := by
  fun_cases Event.returns e <;> simp_all

instance (history : List Entry) (f : FunctionId) : Decidable (Returned history f) :=
  decidable_of_iff (∃ e ∈ history, e.site.owner? = some f ∧ e.event.returns = true) <| by
    constructor
    · rintro ⟨⟨site, event⟩, he, ho, hr⟩
      obtain ⟨b, values, rfl⟩ := Event.returns_iff.mp hr
      exact ⟨site, b, values, ho, he⟩
    · rintro ⟨site, b, values, ho, he⟩
      exact ⟨_, he, ho, rfl⟩

variable {ctx : Context} {history : List Entry} {t : State}

-- A block that is entered is left by its exit.
theorem Told.left {e : Entry} {b : BlockId} {data : BasicBlock} (h : Told True ctx history e)
    (he : e.Enters e.site b) (hd : e.site.graph.block? b = some data) :
    ⟨e.site, .left b data.exit⟩ ∈ history := by
  obtain ⟨before, after, hsplit, found, during, rest, hf, rfl, -⟩ := h.complete.2 b he
  obtain rfl := Option.some.inj (hd.symm.trans hf)
  rw [← List.mem_reverse, hsplit]
  simp

-- What is replayed for a function is replayed for one of its definitions, against the
-- graph that the program has for it.
theorem told_of_owner {program : Yul.Block} {v : Unit} (main : ctx.site.owner? = none)
    (h : replayMain ctx program (State.start ctx.graph) = .ok v t) {e : Entry}
    (he : e ∈ t.history) {f : FunctionId} (ho : e.site.owner? = some f) :
    Told True ctx t.history e ∧ ctx.flow.graphOf? f = some e.site.graph := by
  rcases told_of_main (.inl trivial) h he with ⟨hs, -⟩ | ⟨-, told⟩
  · rw [hs, main] at ho
    exact absurd ho (by simp)
  · refine ⟨told, ?_⟩
    obtain ⟨d, before, after, new, -, run, -⟩ := told
    obtain ⟨g, hg, defined⟩ := run.graph
    obtain rfl := Option.some.inj (ho.symm.trans hg)
    exact defined

-- A replay of a definition begins with its graph being entered.
theorem DefinitionRun.entered {d : Yul.Definition} {before after : State}
    (h : DefinitionRun ctx d before after) : ⟨ctx.site, .entered (some d)⟩ ∈ after.history := by
  obtain ⟨start, hs, hr⟩ := h.graphReplayed
  exact (hr.grown (.inl trivial)).mem (hs.history ▸ List.mem_cons_self)

-- Once a definition of the function is replayed, what can be reached in the graph
-- decides whether a return is come to.
theorem returned_iff {program : Yul.Block} {v : Unit} (main : ctx.site.owner? = none)
    (h : replayMain ctx program (State.start ctx.graph) = .ok v t) {d : Yul.Definition}
    {site : Site} {before after : State} {f : FunctionId} (ho : site.owner? = some f)
    (run : DefinitionRun (ctx.on site) d before after) (kept : after.history <:+ t.history) :
    Returned t.history f ↔ site.graph.Returns := by
  obtain ⟨g, hg, defined⟩ := run.graph
  obtain rfl := Option.some.inj (ho.symm.trans hg)
  constructor
  · rintro ⟨other, b, values, howner, hleft⟩
    obtain ⟨-, hgraph⟩ := told_of_owner main h hleft howner
    have same : other.graph = site.graph := Option.some.inj (hgraph.symm.trans defined)
    obtain ⟨_, reachable, data, hd, hx⟩ := (backed_of_main h).of_mem hleft
    exact same ▸ ⟨b, data, values, reachable, hd, hx⟩
  · rintro ⟨b, data, values, reachable, hd, hx⟩
    obtain ⟨start, hs, hr⟩ := run.graphReplayed
    obtain ⟨e, he, hb⟩ := (hr.complete hs kept).1 b reachable
    obtain rfl : e.site = site := hb.1
    obtain ⟨told, -⟩ := told_of_owner main h (List.mem_reverse.mp he) ho
    exact ⟨e.site, b, values, ho, hx ▸ told.left hb hd⟩

end Replay

open Replay

-- In an accepted run, a call that is marked as one that never returns is the last of its
-- block, which ends there. The definition of the function is replayed, and comes to a
-- return exactly when one can be reached in the graph of the function, whatever the mark.
theorem returned_iff_of_accepted {draft : List Yul.Draft} {program : Yul.Block}
    {analysis : Yul.Analysis} (laid : Yul.program? draft = .ok (program, analysis))
    {dialect : Yul.Dialect} {flow : Graph.ControlFlow} {settings : Settings}
    (accepted : judge ⟨program, analysis, dialect, flow⟩ settings = .accepted) {site : Site}
    {b : BlockId} {i : Nat} {op : Graph.Operation} {bindings : Bindings}
    (consumed : ⟨site, .consumed b i op bindings⟩ ∈
      (Subject.run ⟨program, analysis, dialect, flow⟩ settings).history)
    {f : FunctionId} (marked : op.callee = .function f false) :
    (∃ data, site.graph.block? b = some data ∧ data.operations.length = i + 1 ∧
      data.exit = .terminated) ∧
      ∃ d inner, program.DefinesFunction analysis d f ∧ inner.owner? = some f ∧
        flow.graphOf? f = some inner.graph ∧
          ⟨inner, .entered (some d)⟩ ∈
            (Subject.run ⟨program, analysis, dialect, flow⟩ settings).history ∧
              (Returned (Subject.run ⟨program, analysis, dialect, flow⟩ settings).history f ↔
                inner.graph.Returns) := by
  obtain ⟨t, hrun, hhistory⟩ := Subject.replayMain_of_accepted accepted
  rw [hhistory, List.mem_reverse] at consumed
  obtain ⟨_, -, data, hd, -, last⟩ := (backed_of_main hrun).of_mem consumed
  refine ⟨⟨data, hd, last f marked⟩, ?_⟩
  obtain ⟨d, inner, before, after, hdefines, ho, run, kept⟩ :=
    answered_of_main (Yul.Layout.scoped_of_program laid) hrun consumed
      ⟨b, i, op, bindings, false, rfl, marked⟩
  obtain ⟨g, hg, defined⟩ := run.graph
  obtain rfl := Option.some.inj (ho.symm.trans hg)
  refine ⟨d, inner, hdefines, ho, defined, ?_, ?_⟩
  · rw [hhistory, List.mem_reverse]
    exact kept.mem run.entered
  · have settled := returned_iff rfl hrun ho run kept
    rw [hhistory]
    simpa only [Returned, List.mem_reverse] using settled

-- A call of a function that does nothing, and a store behind it. The graph marks the call
-- as one that never returns, and has no store.
namespace Stranded

def draft : List Yul.Draft :=
  [.funDef "f" [] [] [], .expr (.call "f" []),
    .expr (.call "sstore" [.literal (.number 0), .literal (.number 0)])]

def main : Cfg :=
  Cfg.ofSteps none [.literal 0, .operation (.function ⟨0⟩ false) [] 0, .exit .terminated]

def callee : Cfg := Cfg.ofSteps (some ⟨0⟩) [.exit (.functionReturn [])]

def program : Yul.Block × Yul.Analysis := Yul.laidOut draft

def subject : Subject := ⟨program.1, program.2, .evm, ⟨main, [(⟨0⟩, callee)]⟩⟩

theorem laid : Yul.program? draft = .ok (program.1, program.2) :=
  Yul.program?_eq_laidOut (by decide +kernel)

theorem accepted : judge subject .default = .accepted := by decide +kernel

theorem exists_marked : ∃ site b i op bindings,
    ⟨site, .consumed b i op bindings⟩ ∈ (subject.run .default).history ∧
      op.callee = .function ⟨0⟩ false := by
  obtain ⟨site, b, i, op, bindings, he, hop⟩ := exists_consumed (subject.run .default).history
    (fun op => op.callee = .function ⟨0⟩ false) (by decide +kernel)
  exact ⟨site, b, i, op, bindings, he, of_decide_eq_true hop⟩

-- The program is accepted, although the function comes back from the call that is marked.
theorem callee_returns :
    Yul.program? draft = .ok program ∧ judge subject .default = .accepted ∧
      (∃ site b i op bindings,
        ⟨site, .consumed b i op bindings⟩ ∈ (subject.run .default).history ∧
          op.callee = .function ⟨0⟩ false) ∧
        Returned (subject.run .default).history ⟨0⟩ := by
  have returned : Returned (subject.run .default).history ⟨0⟩ := by decide +kernel
  exact ⟨laid.trans (congrArg Except.ok (Prod.eta program)), accepted, exists_marked, returned⟩

theorem returned_iff_here :
    judge subject .default = .accepted ∧ ∃ site b i op bindings,
      ⟨site, .consumed b i op bindings⟩ ∈ (subject.run .default).history ∧
        op.callee = .function ⟨0⟩ false ∧
        (∃ data, site.graph.block? b = some data ∧ data.operations.length = i + 1 ∧
          data.exit = .terminated) ∧
          ∃ d inner, program.1.DefinesFunction program.2 d ⟨0⟩ ∧ inner.owner? = some ⟨0⟩ ∧
            subject.flow.graphOf? ⟨0⟩ = some inner.graph ∧
              ⟨inner, .entered (some d)⟩ ∈ (subject.run .default).history ∧
                (Returned (subject.run .default).history ⟨0⟩ ↔ inner.graph.Returns) := by
  obtain ⟨site, b, i, op, bindings, consumed, marked⟩ := exists_marked
  exact ⟨accepted, site, b, i, op, bindings, consumed, marked,
    returned_iff_of_accepted laid accepted consumed marked⟩

end Stranded

end SsaReplay
