import SsaReplay.Graph.Construction
import SsaReplay.Proofs.Frame
import SsaReplay.Proofs.Reporting
import SsaReplay.Yul.Draft

namespace SsaReplay

open SsaReplay.Graph (Exit)
open SsaReplay.Yul (Definition)

namespace Replay

-- The replay of a graph is about to begin.
structure Begins (ctx : Context) (d? : Option Definition) (base : List Entry) (s : State) :
    Prop where
  block : s.block = ctx.graph.entry
  op : s.op = 0
  loops : s.loops = []
  history : s.history = ⟨ctx.site, .entered d?⟩ :: base

-- The program of a graph is replayed to where it stops, or off its end, where the graph
-- has to end as well.
inductive GraphReplayed (ctx : Context) (body : Yul.Block) (s : State) : List Entry → Prop
  | stopped {t : State} (run : replayBlock ctx body s = .ok false t) :
      GraphReplayed ctx body s t.history
  | ended {t : State} {exit : Exit} (run : replayBlock ctx body s = .ok true t)
      (atExit : AtExit ctx t exit) (noTargets : exit.targets = []) :
      GraphReplayed ctx body s (⟨ctx.site, .left t.block exit⟩ :: t.history)

variable {switches : Prop} {ctx : Context} {s t : State}

theorem replayMain_of_ok {program : Yul.Block} {u : Unit}
    (h : replayMain ctx program s = .ok u t) :
    ∃ falls v, replayBlock ctx program (s.log ctx.site (.entered none)) = .ok falls v ∧
      (falls = true ∧ AtExit ctx v .mainExit ∧ v.log ctx.site (.left v.block .mainExit) = t ∨
        falls = false ∧ v = t) := by
  simp only [replayMain, bind_eq_ok, record_eq_ok, ite_eq_ok, leaveByMainExit_eq_ok,
    pure_eq_ok] at h
  obtain ⟨_, _, rfl, falls, v, hb, h⟩ := h
  refine ⟨falls, v, hb, ?_⟩
  rcases h with ⟨rfl, hx, rfl⟩ | ⟨hf, -, rfl⟩
  · exact .inl ⟨rfl, hx, rfl⟩
  · exact .inr ⟨by simpa using hf, rfl⟩

theorem graphReplayed_of_main {program : Yul.Block}
    (h : replayMain ctx program (State.start ctx.graph) = .ok () t) :
    ∃ start, Begins ctx none [] start ∧ GraphReplayed ctx program start t.history := by
  obtain ⟨falls, v, hb, h⟩ := replayMain_of_ok h
  refine ⟨(State.start ctx.graph).log ctx.site (.entered none), ⟨rfl, rfl, rfl, rfl⟩, ?_⟩
  rcases h with ⟨rfl, hx, rfl⟩ | ⟨rfl, rfl⟩
  · exact .ended hb hx rfl
  · exact .stopped hb

theorem GraphReplayed.grown {body : Yul.Block} {final : List Entry}
    (hs : switches ∨ body.switchFree = true) (h : GraphReplayed ctx body s final) :
    Grown switches ctx s.history final := by
  cases h with
  | stopped run => exact (replayBlock_framed hs run).history
  | ended run atExit noTargets => exact (replayBlock_framed hs run).history.step _ (by nofun)

theorem mainEntered_of_main {program : Yul.Block}
    (h : replayMain ctx program (State.start ctx.graph) = .ok () t) :
    ⟨ctx.site, .entered none⟩ ∈ t.history := by
  obtain ⟨start, hs, hr⟩ := graphReplayed_of_main h
  exact (hr.grown (.inl trivial)).mem (hs.history ▸ List.mem_cons_self)

-- What the history of a whole run consists of.
theorem told_of_main {program : Yul.Block} (hf : switches ∨ program.switchFree = true)
    (h : replayMain ctx program (State.start ctx.graph) = .ok () t) {e : Entry}
    (he : e ∈ t.history) :
    (e.site = ctx.site ∧ ∀ d?, e.event = .entered d? → d? = none) ∨
      (ctx.site.depth < e.site.depth ∧ Told switches ctx t.history e) := by
  obtain ⟨start, hs, hr⟩ := graphReplayed_of_main h
  obtain ⟨more, hm, hall⟩ := hr.grown hf
  rw [hm, hs.history] at he
  rcases List.mem_append.mp he with he | he
  · exact (hall e he).imp_left fun ⟨hsite, hne⟩ => ⟨hsite, fun d? hd => absurd hd (hne d?)⟩
  · obtain rfl := List.mem_singleton.mp he
    exact .inl ⟨rfl, fun d? hd => (Event.entered.inj hd).symm⟩

theorem DefinitionRun.graphReplayed {d : Definition} (h : DefinitionRun ctx d s t) :
    ∃ start, Begins ctx (some d) s.history start ∧ GraphReplayed ctx d.body start t.history := by
  obtain ⟨outer, rfl⟩ := h.starts
  cases functionReplayed_of_ok h.run with
  | @mk bound all falls u _ parameters returns run ends =>
      refine ⟨(outer.apartOn ctx.graph).inFunction ctx d all, ⟨rfl, rfl, rfl, rfl⟩, ?_⟩
      rcases ends with ⟨rfl, rfl⟩ | ⟨rfl, left⟩
      · exact .stopped run
      · cases left with
        | mk exit count held => exact .ended run exit rfl

end Replay

open Replay

namespace Subject

variable {s : Subject} {settings : Settings}

theorem isOk_of_accepted (h : judge s settings = .accepted) :
    ∃ report, validate? s settings = some report ∧ report.isOk = true := by
  unfold judge at h
  cases hr : validate? s settings with
  | none =>
      rw [hr] at h
      exact absurd h (by decide)
  | some report =>
      rw [hr] at h
      refine ⟨report, rfl, ?_⟩
      unfold Report.isOk
      cases he : report.hasErrors with
      | false => rfl
      | true => simp [he] at h

-- A report without errors means that the replay got to its end.
theorem replayMain_of_accepted (h : judge s settings = .accepted) :
    ∃ t, replayMain (s.context settings) s.program (State.start s.flow.main) = .ok () t ∧
      (s.run settings).history = t.history.reverse := by
  have hhalt : (s.run settings).halt? = none := by
    obtain ⟨report, hr, ok⟩ := isOk_of_accepted h
    cases Subject.reported hr with
    | passed halt _ => exact halt
    | stopped _ fatal _ => exact absurd (fatal.symm.trans (Report.isOk_iff.mp ok)) (by simp)
  unfold run at hhalt ⊢
  cases hm : replayMain (s.context settings) s.program (State.start s.flow.main) with
  | ok u t =>
      exact ⟨t, rfl, rfl⟩
  | error e t =>
      rw [hm] at hhalt
      simp at hhalt

theorem mainEntered_of_accepted (h : judge s settings = .accepted) :
    ⟨(s.context settings).site, .entered none⟩ ∈ (s.run settings).history := by
  obtain ⟨t, hrun, hhistory⟩ := replayMain_of_accepted h
  rw [hhistory]
  exact List.mem_reverse.mpr (mainEntered_of_main hrun)

-- Whatever is replayed for a definition is deeper in.
theorem site_eq_of_depth (h : judge s settings = .accepted) {e : Entry}
    (he : e ∈ (s.run settings).history) (hd : e.site.depth = 0) :
    e.site = (s.context settings).site := by
  obtain ⟨t, hrun, hhistory⟩ := replayMain_of_accepted h
  rw [hhistory, List.mem_reverse] at he
  rcases told_of_main (.inl trivial) hrun he with ⟨hs, -⟩ | ⟨hlt, -⟩
  · exact hs
  · exact absurd hlt (hd ▸ Nat.not_lt_zero _)

end Subject

-- A loop that counts down from the size of the input and stores on its way.
namespace Counting

open SsaReplay.Graph (Cfg)

def draft : List Yul.Draft :=
  [.letDecl ["n"] (some (.call "calldatasize" [])),
    .forLoop [] (.ident "n") [.assign ["n"] (.call "sub" [.ident "n", .literal (.number 1)])]
      [.expr (.call "sstore" [.ident "n", .ident "n"])]]

def graph : Cfg :=
  Cfg.ofSteps none [.operation (.builtin ⟨23⟩) [] 1, .literal 1, .block, .block, .block, .block,
    .exit (.jump ⟨1⟩), .moveTo ⟨1⟩, .phi ⟨1⟩, .exit (.branch ⟨⟨2⟩, ⟨2⟩, ⟨4⟩⟩), .moveTo ⟨2⟩,
    .operation (.builtin ⟨29⟩) [⟨2⟩, ⟨2⟩] 0, .exit (.jump ⟨3⟩), .moveTo ⟨3⟩,
    .operation (.builtin ⟨1⟩) [⟨2⟩, ⟨1⟩] 1, .exit (.jump ⟨1⟩), .phiArguments ⟨2⟩ [⟨0⟩, ⟨3⟩],
    .moveTo ⟨4⟩, .exit .mainExit]

def program : Yul.Block × Yul.Analysis := Yul.laidOut draft

def subject : Subject := ⟨program.1, program.2, .evm, ⟨graph, []⟩⟩

theorem accepted : judge subject .default = .accepted := by decide +kernel

end Counting

end SsaReplay
