import SsaReplay.Proofs.Leniency
import SsaReplay.Proofs.Renumbering.Verdict

namespace SsaReplay

open Replay

-- All values and blocks under the numbers that they have.
def Renumbering.same : Renumbering := ⟨.refl ValueId, .refl BlockId⟩

theorem ValueSet.renumber_same (s : ValueSet) : s.renumber .same = s :=
  (ValueSet.eq_renumber fun _ => Iff.rfl).symm

theorem Bindings.Conflict.renumber_same (c : Bindings.Conflict) : c.renumber .same = c := by
  have candidates : c.candidates.map (·.renumber .same) = c.candidates := by
    simp [ValueSet.renumber_same]
  rw [Bindings.Conflict.renumber, candidates]

theorem Bindings.renumber_same (b : Bindings) : b.renumber .same = b := by
  apply Bindings.ext
  intro x
  cases h : b.lookup x <;> simp [h, ValueSet.renumber_same]

theorem Location.renumber_same (l : Location) : l.renumber .same = l := by
  cases l <;> rfl

namespace Graph

theorem map_same_value (vs : List ValueId) : vs.map Renumbering.same.value = vs := List.map_id vs

theorem Operation.renumber_same (op : Operation) : op.renumber .same = op := by
  rw [Operation.renumber, map_same_value, map_same_value]

theorem Exit.renumber_same (exit : Exit) : exit.renumber .same = exit := by
  cases exit with
  | functionReturn values => rw [Exit.renumber, map_same_value]
  | _ => rfl

end Graph

namespace Replay

open SsaReplay.Graph (Cfg)

theorem Mismatch.renumber_same (m : Mismatch) : m.renumber .same = m := by
  cases m with
  | operand i name input candidates => rw [Mismatch.renumber, ValueSet.renumber_same]; rfl
  | comparisonReads l v candidates => rw [Mismatch.renumber, ValueSet.renumber_same]; rfl
  | wrongExit b demand found => rw [Mismatch.renumber, Graph.Exit.renumber_same]; rfl
  | disagreement join conflict => rw [Mismatch.renumber, Bindings.Conflict.renumber_same]; rfl
  | returnedValue v x candidates => rw [Mismatch.renumber, ValueSet.renumber_same]; rfl
  | condition v candidates => rw [Mismatch.renumber, ValueSet.renumber_same]; rfl
  | _ => rfl

theorem mirrors_same (g : Cfg) : GraphMirrors .same g g where
  entry := rfl
  function := rfl
  arguments := (List.map_id _).symm
  returns := rfl
  literals w := (Option.map_id_apply).symm
  blocks b := by
    change Option.Rel _ (g.block? b) (g.block? b)
    cases g.block? b with
    | none => exact .none
    | some data =>
        refine .some ⟨(Graph.map_same_value _).symm, ?_, data.exit.renumber_same.symm, ?_⟩
        · simp [Graph.Operation.renumber_same]
        · exact fun b => Iff.rfl
  phis source target data data' hd hd' := by
    obtain rfl := Option.some.inj (hd.symm.trans hd')
    change phiArguments g source target data = _
    cases phiArguments g source target data with
    | ok pairs => exact congrArg Except.ok (List.map_id _).symm
    | error m => exact congrArg Except.error m.renumber_same.symm

-- Whatever else is set, two replays that check the same and may repeat as often keep in step.
theorem context_mirrors_under (ctx : Context) {σ' : Settings}
    (ownership : σ'.checksPhiOwnership = ctx.settings.checksPhiOwnership)
    (iterations : σ'.maxLoopIterations = ctx.settings.maxLoopIterations) :
    ContextMirrors (fun _ => .same) .same ctx (ctx.under σ') := by
  refine ⟨rfl, rfl, rfl, rfl, ownership, iterations, mirrors_same ctx.graph, fun f => ?_⟩
  change Option.Rel _ (ctx.flow.graphOf? f) (ctx.flow.graphOf? f)
  cases ctx.flow.graphOf? f with
  | none => exact .none
  | some graph => exact .some (mirrors_same graph)

end Replay

-- The settings for a replay that does not ask who holds the phis of a join. Nothing else
-- is decided differently.
def Settings.unchecked (σ : Settings) : Settings :=
  { σ with
    level := .standard
    checkPhiOwnership := false
    reportUnreachable := σ.reportsUnreachable }

namespace Subject

variable {s : Subject} {σ σ' : Settings}

-- The replay of the program gets to its end.
def Succeeds (s : Subject) (σ : Settings) : Prop :=
  ∃ t, replayMain (s.context σ) s.program (State.start s.flow.main) = .ok () t

theorem succeeds_iff : s.Succeeds σ ↔ (s.run σ).halt? = none := by
  unfold Succeeds run
  cases replayMain (s.context σ) s.program (State.start s.flow.main) with
  | ok u t => simp
  | error h t => simp

theorem isOk_iff_succeeds {report : Report} (h : validate? s σ = some report) :
    report.isOk = true ↔ s.Succeeds σ := by
  rw [Report.isOk_iff, succeeds_iff]
  cases Subject.reported h with
  | passed halt fatal => simp [halt, fatal]
  | stopped halt fatal diagnosed => simp [halt, fatal]

theorem halt_under (ownership : σ'.checksPhiOwnership = σ.checksPhiOwnership)
    (iterations : σ'.maxLoopIterations = σ.maxLoopIterations) :
    Option.Rel (HaltMirrors fun _ => .same) (s.run σ).halt? (s.run σ').halt? := by
  have mirrors : ContextMirrors (fun _ => .same) .same (s.context σ) (s.context σ') :=
    context_mirrors_under (s.context σ) ownership iterations
  have inStep := InStep.replayMain mirrors s.program (State.start s.flow.main)
    (State.start s.flow.main) ⟨rfl, rfl, rfl, rfl, rfl⟩
  unfold run
  generalize replayMain (s.context σ) s.program (State.start s.flow.main) = r at inStep ⊢
  generalize replayMain (s.context σ') s.program (State.start s.flow.main) = r' at inStep ⊢
  match r, r' with
  | .ok () t, .ok () t' => exact .none
  | .error e t, .error e' t' => exact .some inStep
  | .ok () t, .error e' t' => exact inStep.elim
  | .error e t, .ok () t' => exact inStep.elim

-- Under laxer settings a run is the same to the last warning, unless it ended in what is spared.
theorem run_under {spared : Mismatch → Prop} (lax : σ.Laxer spared σ') :
    s.run σ' = s.run σ ∨ ∃ f, (s.run σ).halt? = some (.mismatch f) ∧ spared f.mismatch := by
  have decided : (s.context σ).settings.Laxer spared σ' := lax
  have concurs : Concurs spared (replayMain (s.context σ) s.program)
      (replayMain (s.context σ') s.program) :=
    Concurs.replayMain decided s.program
  unfold run
  rcases concurs (State.start s.flow.main) with heq | ⟨f, t, herror, hspared⟩
  · rw [heq]
    exact .inl rfl
  · rw [herror]
    exact .inr ⟨f, rfl, hspared⟩

theorem succeeds_unchecked (h : s.Succeeds σ) : s.Succeeds σ.unchecked := by
  rw [succeeds_iff] at h ⊢
  have lax : σ.Laxer (fun _ => True) σ.unchecked :=
    ⟨.inr ⟨rfl, fun _ => trivial, fun _ _ => trivial⟩, .inl rfl, Bool.or_false _⟩
  rcases run_under (s := s) lax with heq | ⟨f, halt, -⟩
  · rw [heq, h]
  · rw [h] at halt
    exact absurd halt (by simp)

theorem succeeds_under (ownership : σ'.checksPhiOwnership = σ.checksPhiOwnership)
    (iterations : σ'.maxLoopIterations = σ.maxLoopIterations) (h : s.Succeeds σ) :
    s.Succeeds σ' := by
  rw [succeeds_iff] at h ⊢
  have halts := halt_under (s := s) ownership iterations
  rw [h] at halts
  generalize (s.run σ').halt? = halt' at halts ⊢
  cases halts
  rfl

end Subject

variable {s : Subject} {σ σ' : Settings} {report report' : Report}

-- What is reported is up to the settings, but not whether the program is accepted nor, if it
-- is not, why. Not to check who holds the phis of joins can only let more programs pass.
theorem verdict_of_settings (iterations : σ'.maxLoopIterations = σ.maxLoopIterations)
    (h : validate? s σ = some report) (h' : validate? s σ' = some report') :
    (report.isOk = true ↔ s.Succeeds σ) ∧
      (σ'.checksPhiOwnership = σ.checksPhiOwnership →
        (report.isOk = true ∧ report'.isOk = true) ∨
          ∃ d d', report.fatal? = some d ∧ report'.fatal? = some d' ∧ d'.code = d.code ∧
            d'.message = d.message ∧ d'.primary = d.primary ∧ d'.notes = d.notes) ∧
      (σ'.checksPhiOwnership = false → report.isOk = true → report'.isOk = true) := by
  refine ⟨Subject.isOk_iff_succeeds h, fun ownership => ?_, fun unchecked accepted => ?_⟩
  · have halts := Subject.halt_under (s := s) ownership iterations
    cases Subject.reported h with
    | passed halt fatal =>
        have succeeds := Subject.succeeds_under ownership iterations (Subject.succeeds_iff.mpr halt)
        exact .inl ⟨Report.isOk_iff.mpr fatal, (Subject.isOk_iff_succeeds h').mpr succeeds⟩
    | @stopped f d halt fatal diagnosed =>
        cases Subject.reported h' with
        | passed halt' fatal' =>
            rw [halt, halt'] at halts
            cases halts
        | @stopped f' d' halt' fatal' diagnosed' =>
            rw [halt, halt'] at halts
            obtain ⟨⟨found⟩⟩ := halts
            have mismatch : f'.mismatch = f.mismatch :=
              found.mismatch.trans f.mismatch.renumber_same
            have location : f'.location = f.location :=
              found.location.trans f.location.renumber_same
            have message : some d'.message = some d.message := by
              rw [← diagnosed'.message, ← diagnosed.message, mismatch]
              rfl
            refine .inr ⟨d, d', fatal, fatal', ?_, Option.some.inj message, ?_, ?_⟩
            · rw [diagnosed'.code, diagnosed.code, mismatch]
            · rw [diagnosed'.primary, diagnosed.primary, location]
            · rw [diagnosed'.notes, diagnosed.notes, mismatch]
              rfl
  · rw [Subject.isOk_iff_succeeds h] at accepted
    rw [Subject.isOk_iff_succeeds h']
    have without : σ'.checksPhiOwnership = σ.unchecked.checksPhiOwnership := unchecked
    exact Subject.succeeds_under without iterations (Subject.succeeds_unchecked accepted)

namespace Misread

-- Nothing but the snippet goes along with the one diagnostic that there is room for.
def terse : Settings := ⟨.fast, 1, false, true, true, 64⟩

theorem verdict_of_settings_here :
    terse.maxLoopIterations = Settings.default.maxLoopIterations ∧
      (∃ report report' d d', validate? subject .default = some report ∧
        validate? subject terse = some report' ∧ report.fatal? = some d ∧
        report'.fatal? = some d' ∧ d'.code = d.code ∧ d'.primary = d.primary ∧
        d.code = .operandMismatch) ∧
      ∃ report report', validate? Counting.subject (.ofLevel .full) = some report ∧
        validate? Counting.subject .default = some report' ∧ report'.isOk = true := by
  have failed : ((validate? subject .default).bind Report.fatal?).map (·.code) =
      some .operandMismatch := by
    decide +kernel
  have told : (validate? subject terse).isSome = true := by decide +kernel
  have checked : (validate? Counting.subject (.ofLevel .full)).map (·.isOk) = some true := by
    decide +kernel
  have unchecked : (validate? Counting.subject .default).isSome = true := by decide +kernel
  obtain ⟨d, hd, hcode⟩ := Option.map_eq_some_iff.mp failed
  obtain ⟨report, h, hfatal⟩ := Option.bind_eq_some_iff.mp hd
  obtain ⟨report', h'⟩ := Option.isSome_iff_exists.mp told
  obtain ⟨full, hfull, hok⟩ := Option.map_eq_some_iff.mp checked
  obtain ⟨plain, hplain⟩ := Option.isSome_iff_exists.mp unchecked
  have asOften : terse.maxLoopIterations = Settings.default.maxLoopIterations := rfl
  have asOften' : Settings.default.maxLoopIterations = (Settings.ofLevel .full).maxLoopIterations :=
    rfl
  have alike : terse.checksPhiOwnership = Settings.default.checksPhiOwnership := rfl
  have off : Settings.default.checksPhiOwnership = false := rfl
  obtain ⟨-, same, -⟩ := verdict_of_settings asOften h h'
  obtain ⟨-, -, laxer⟩ := verdict_of_settings asOften' hfull hplain
  refine ⟨asOften, ?_, full, plain, hfull, hplain, laxer off hok⟩
  rcases same alike with ⟨ok, -⟩ | ⟨e, e', he, he', code, -, primary, -⟩
  · exact absurd (hfatal.symm.trans (Report.isOk_iff.mp ok)) (by simp)
  · obtain rfl : d = e := Option.some.inj (hfatal.symm.trans he)
    exact ⟨report, report', d, e', h, h', he, he', code, primary, hcode⟩

end Misread

-- A loop that is given more passes than it needs is replayed, and reported, no differently.
theorem report_of_more_iterations {n m : Nat} (hle : n ≤ m)
    (h : validate? s { σ with maxLoopIterations := n } = some report)
    (converged : report.hasCode .loopDidNotConverge = false) :
    validate? s { σ with maxLoopIterations := m } = some report := by
  have lax : Settings.Laxer (·.code = .loopDidNotConverge) { σ with maxLoopIterations := n }
      { σ with maxLoopIterations := m } :=
    ⟨.inl rfl, .inr ⟨hle, fun _ _ => rfl⟩, rfl⟩
  rcases Subject.run_under (s := s) lax with heq | ⟨f, halt, hcode⟩
  · unfold validate? at h ⊢
    rw [heq]
    exact h
  · exfalso
    cases Subject.reported h with
    | passed halt' fatal =>
        rw [halt'] at halt
        exact absurd halt (by simp)
    | @stopped f' d halt' fatal diagnosed =>
        obtain rfl : f' = f := by simpa [halt'] using halt
        have hmem : d ∈ report.diagnostics :=
          List.mem_of_mem_filter (List.mem_of_mem_head? fatal)
        have hfound : report.hasCode .loopDidNotConverge = true :=
          List.any_eq_true.mpr ⟨d, hmem, beq_iff_eq.mpr (diagnosed.code.trans hcode)⟩
        exact absurd (hfound.symm.trans converged) (by simp)

-- The loop needs two passes, so that one of them is reported as too few.
namespace Counting

theorem report_of_more_iterations_here :
    (validate? subject { Settings.default with maxLoopIterations := 1 }).map
        (·.hasCode .loopDidNotConverge) = some true ∧
      2 ≤ 64 ∧ ∃ report,
        validate? subject { Settings.default with maxLoopIterations := 2 } = some report ∧
        report.hasCode .loopDidNotConverge = false ∧
        validate? subject { Settings.default with maxLoopIterations := 64 } = some report := by
  have few : (validate? subject { Settings.default with maxLoopIterations := 1 }).map
      (·.hasCode .loopDidNotConverge) = some true := by
    decide +kernel
  have enough : (validate? subject { Settings.default with maxLoopIterations := 2 }).map
      (·.hasCode .loopDidNotConverge) = some false := by
    decide +kernel
  have hle : 2 ≤ 64 := by decide
  obtain ⟨report, h, converged⟩ := Option.map_eq_some_iff.mp enough
  exact ⟨few, hle, report, h, converged, report_of_more_iterations hle h converged⟩

end Counting

end SsaReplay
