import Mathlib.Logic.Equiv.Basic
import SsaReplay.Proofs.Acceptance
import SsaReplay.Proofs.Renumbering.Statement
import SsaReplay.Proofs.Structural

namespace SsaReplay

open Replay

-- The graphs of a flow are rearranged, each under numbers of its own.
structure Graph.ControlFlow.Rearranged (ρ : Option FunctionId → Renumbering)
    (c c' : Graph.ControlFlow) : Prop where
  main : c.main.Rearranged (ρ none) c'.main
  functions : List.Forall₂ (fun p p' => p'.1 = p.1 ∧ p.2.Rearranged (ρ (some p.1)) p'.2)
    c.functions c'.functions

variable {ρ : Option FunctionId → Renumbering}

theorem Graph.ControlFlow.Rearranged.graphOf? {c c' : Graph.ControlFlow} (h : c.Rearranged ρ c')
    (f : FunctionId) :
    Option.Rel (GraphMirrors (ρ (some f))) (c.graphOf? f) (c'.graphOf? f) := by
  have functions := h.functions
  unfold ControlFlow.graphOf?
  generalize c.functions = graphs at functions ⊢
  generalize c'.functions = graphs' at functions ⊢
  induction functions with
  | nil => exact .none
  | @cons p p' rest rest' here others ih =>
      obtain ⟨hname, hgraph⟩ := here
      rw [List.lookup_cons, List.lookup_cons, hname]
      cases hf : f == p.1 with
      | false => exact ih
      | true => exact .some (beq_iff_eq.mp hf ▸ mirrors_of_rearranged hgraph)

namespace Subject

variable {s : Subject} {flow' : Graph.ControlFlow}

theorem context_mirrors (settings : Settings) (h : s.flow.Rearranged ρ flow') :
    ContextMirrors ρ (ρ none) (s.context settings) ({ s with flow := flow' }.context settings) :=
  ⟨rfl, rfl, rfl, rfl, rfl, rfl, mirrors_of_rearranged h.main, h.graphOf?⟩

-- Both runs get to their ends, or both stop with the same finding.
theorem halt_mirrors (settings : Settings) (h : s.flow.Rearranged ρ flow') :
    Option.Rel (HaltMirrors ρ) (s.run settings).halt?
      (({ s with flow := flow' } : Subject).run settings).halt? := by
  have inStep := InStep.replayMain (context_mirrors settings h) s.program
    (State.start s.flow.main) (State.start flow'.main)
    ⟨rfl, (mirrors_of_rearranged h.main).entry, rfl, rfl, rfl⟩
  unfold run
  generalize replayMain (s.context settings) s.program (State.start s.flow.main) = r at inStep ⊢
  generalize replayMain ({ s with flow := flow' }.context settings) s.program
    (State.start flow'.main) = r' at inStep ⊢
  match r, r' with
  | .ok () t, .ok () t' => exact .none
  | .error e t, .error e' t' => exact .some inStep
  | .ok () t, .error e' t' => exact inStep.elim
  | .error e t, .ok () t' => exact inStep.elim

end Subject

-- However the values and blocks of the graphs are numbered, and in whatever order the
-- blocks have their entries, a program is accepted or refused with the same code, at the
-- same place of the graph that was replayed then.
theorem verdict_of_rearranged {s : Subject} {settings : Settings} {flow' : Graph.ControlFlow}
    {report report' : Report} (rearranged : s.flow.Rearranged ρ flow')
    (h : validate? s settings = some report)
    (h' : validate? { s with flow := flow' } settings = some report') :
    (report.isOk = true ∧ report'.isOk = true) ∨
      ∃ f d d', (s.run settings).fatal? = some f ∧
        report.fatal? = some d ∧ report'.fatal? = some d' ∧
        d.primary = f.location ∧ d'.code = d.code ∧
        d'.primary = d.primary.renumber (ρ f.site.owner?) := by
  have halts := Subject.halt_mirrors settings rearranged
  cases Subject.reported h with
  | passed halt fatal =>
      cases Subject.reported h' with
      | passed halt' fatal' => exact .inl ⟨Report.isOk_iff.mpr fatal, Report.isOk_iff.mpr fatal'⟩
      | stopped halt' fatal' diagnosed' =>
          rw [halt, halt'] at halts
          cases halts
  | @stopped f d halt fatal diagnosed =>
      cases Subject.reported h' with
      | passed halt' fatal' =>
          rw [halt, halt'] at halts
          cases halts
      | @stopped f' d' halt' fatal' diagnosed' =>
          rw [halt, halt'] at halts
          obtain ⟨⟨same⟩⟩ := halts
          refine .inr ⟨f, d, d', ?_, fatal, fatal', diagnosed.primary, ?_, ?_⟩
          · rw [Run.fatal?, halt]
          · rw [diagnosed'.code, same.mismatch, Mismatch.code_renumber, diagnosed.code]
          · rw [diagnosed'.primary, same.location, diagnosed.primary]

-- After an `if` that may have changed the variable, its changed value is stored in any case.
namespace Misread

open SsaReplay.Graph (Cfg)

def graph : Cfg :=
  Cfg.ofSteps none [.literal 0, .operation (.builtin ⟨23⟩) [] 1, .literal 1, .block, .block,
    .exit (.branch ⟨⟨1⟩, ⟨1⟩, ⟨2⟩⟩), .moveTo ⟨1⟩, .exit (.jump ⟨2⟩), .moveTo ⟨2⟩, .phi ⟨2⟩,
    .operation (.builtin ⟨29⟩) [⟨0⟩, ⟨2⟩] 0, .exit .mainExit, .phiArguments ⟨3⟩ [⟨0⟩, ⟨2⟩]]

def subject : Subject := { Unfed.subject with flow := ⟨graph, []⟩ }

-- The join comes before the body of the `if`, and the phi before the value it may have.
def others : Renumbering := ⟨Equiv.swap ⟨2⟩ ⟨3⟩, Equiv.swap ⟨1⟩ ⟨2⟩⟩

def flow : Graph.ControlFlow := ⟨(graph.renumber others).reorder ⟨1⟩ [1, 0], []⟩

theorem permutes : graph.Permutes others := by
  have values : graph.values.size = 4 := by decide +kernel
  have blocks : graph.blocks.size = 3 := by decide +kernel
  constructor
  · intro v
    simp only [others, Equiv.swap_apply_def, values]
    grind
  · intro b
    simp only [others, Equiv.swap_apply_def, blocks]
    grind

theorem reorderable : ∃ data, (graph.renumber others).Reorderable ⟨1⟩ data [1, 0] := by
  refine ⟨((graph.renumber others).block? ⟨1⟩).getD .empty, by rfl, by decide +kernel,
    by decide +kernel, fun phi hphi => ?_, fun c other hc ho phi _ hphi => ?_⟩
  · obtain rfl : phi = ⟨2⟩ := by
      have only : (((graph.renumber others).block? ⟨1⟩).getD .empty).phis = [⟨2⟩] := by
        decide +kernel
      exact List.mem_singleton.mp (only ▸ hphi)
    exact ⟨⟨1⟩, [⟨0⟩, ⟨3⟩], by rfl, by decide +kernel⟩
  · have without : ∀ i : Fin 3, i ≠ 1 →
        ((graph.renumber others).block? ⟨i⟩).all (·.phis.isEmpty) = true := by decide +kernel
    have size : (graph.renumber others).blocks.size = 3 := by decide +kernel
    obtain ⟨hi, -⟩ := Array.getElem?_eq_some_iff.mp ho
    have empty := without ⟨c.index, size ▸ hi⟩ fun he => hc (by
      cases c
      exact congrArg BlockId.mk (congrArg Fin.val he))
    rw [show (⟨c.index⟩ : BlockId) = c from rfl, ho, Option.all_some,
      List.isEmpty_iff] at empty
    exact List.not_mem_nil (empty ▸ hphi)

theorem rearranged : subject.flow.Rearranged (fun _ => others) flow := by
  obtain ⟨data, hdata⟩ := reorderable
  exact ⟨.reordered (.renumbered permutes) hdata, .nil⟩

theorem verdict_here :
    subject.flow.Rearranged (fun _ => others) flow ∧ ∃ report report' d d',
      validate? subject .default = some report ∧
      validate? { subject with flow := flow } .default = some report' ∧
      report.fatal? = some d ∧ d.code = .operandMismatch ∧ d.primary = .operation .main ⟨2⟩ 0 ∧
      report'.fatal? = some d' ∧ d'.code = .operandMismatch ∧
      d'.primary = .operation .main ⟨1⟩ 0 := by
  have failed : ((validate? subject .default).bind Report.fatal?).map
      (fun d => (d.code, d.primary)) = some (.operandMismatch, .operation .main ⟨2⟩ 0) := by
    decide +kernel
  have told : (validate? { subject with flow := flow } .default).isSome = true := by
    decide +kernel
  obtain ⟨d, hd, hfound⟩ := Option.map_eq_some_iff.mp failed
  obtain ⟨report, h, hfatal⟩ := Option.bind_eq_some_iff.mp hd
  obtain ⟨report', h'⟩ := Option.isSome_iff_exists.mp told
  obtain ⟨hcode, hprimary⟩ := Prod.mk.inj hfound
  rcases verdict_of_rearranged rearranged h h' with ⟨ok, -⟩ | ⟨f, found, d', -, hf, hd', -, same⟩
  · exact absurd (hfatal.symm.trans (Report.isOk_iff.mp ok)) (Option.some_ne_none d)
  · obtain rfl := Option.some.inj (hfatal.symm.trans hf)
    refine ⟨rearranged, report, report', d, d', h, h', hfatal, hcode, hprimary, hd',
      same.1.trans hcode, same.2.trans ?_⟩
    rw [hprimary]
    simp [Location.renumber, others]

end Misread

end SsaReplay
