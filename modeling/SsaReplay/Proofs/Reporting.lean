import SsaReplay.Validation

namespace SsaReplay

namespace Replay

-- A diagnostic tells what was found and where. What surrounds it is up to the settings.
structure Diagnoses (r : Reader) (severity : Severity) (f : Finding) (d : Diagnostic) : Prop where
  code : d.code = f.mismatch.code
  severity : d.severity = severity
  message : f.mismatch.message? r.scopes r.dialect = some d.message
  primary : d.primary = f.location
  notes : d.notes = f.mismatch.notes r.scopes

namespace Finding

variable {f : Finding} {severity : Severity} {r : Reader} {d : Diagnostic}

-- Either way of what is left to the settings, the rest is the same.
theorem eq_some_of_ite {α β : Type} {c : Prop} [Decidable c] {x y : Option α} {b : β}
    {rest : α → Option β} (h : (if c then x >>= rest else y >>= rest) = some b) :
    ∃ a, rest a = some b := by
  split at h
  · exact (Option.bind_eq_some_iff.mp h).imp fun _ ha => ha.2
  · exact (Option.bind_eq_some_iff.mp h).imp fun _ ha => ha.2

theorem diagnoses (h : f.diagnostic? severity r = some d) : Diagnoses r severity f d := by
  obtain ⟨message, hm, h⟩ := Option.bind_eq_some_iff.mp h
  obtain ⟨context?, h⟩ := eq_some_of_ite h
  obtain ⟨snippet?, h⟩ := eq_some_of_ite h
  obtain rfl := Option.some.inj h
  exact ⟨rfl, rfl, hm, rfl, rfl⟩

theorem diagnostic?_of_renders (h : f.renders r = true) :
    ∃ d, f.diagnostic? .error r = some d ∧ Diagnoses r .error f d := by
  obtain ⟨d, hd⟩ := Option.isSome_iff_exists.mp h
  exact ⟨d, hd, diagnoses hd⟩

end Finding

theorem Diagnoses.isError {r : Reader} {f : Finding} {d : Diagnostic}
    (h : Diagnoses r .error f d) : d.isError = true :=
  beq_iff_eq.mpr h.severity

end Replay

namespace Report

variable {limit : Nat} {fatal? : Option Diagnostic} {warnings : List Diagnostic} {d : Diagnostic}

theorem mem_of_extend {r : Report} (h : d ∈ (r.extend limit warnings).diagnostics) :
    d ∈ r.diagnostics ∨ d ∈ warnings := by
  refine (List.mem_append.mp h).imp_right fun hd => ?_
  by_cases hl : limit = 0
  · rwa [if_pos hl] at hd
  · rw [if_neg hl] at hd
    exact List.mem_of_mem_take hd

-- No limit keeps what stopped the validation out of the report.
theorem ofOutcome_some : ∃ rest, (ofOutcome limit (some d) warnings).diagnostics = d :: rest := by
  unfold ofOutcome extend
  cases limit with
  | zero => exact ⟨_, rfl⟩
  | succ limit => exact ⟨_, rfl⟩

theorem mem_of_ofOutcome (h : d ∈ (ofOutcome limit fatal? warnings).diagnostics) :
    fatal? = some d ∨ d ∈ warnings := by
  refine (mem_of_extend h).imp_left fun hd => ?_
  exact Option.mem_toList.mp ((mem_of_extend hd).resolve_left List.not_mem_nil)

theorem isOk_iff {r : Report} : r.isOk = true ↔ r.fatal? = none := by
  unfold isOk hasErrors Report.fatal? errors
  rw [Bool.not_eq_true', List.head?_eq_none_iff, List.filter_eq_nil_iff, List.any_eq_false]

theorem fatal?_ofOutcome_none (h : ∀ d ∈ warnings, d.isError = false) :
    (ofOutcome limit none warnings).fatal? = none := by
  unfold Report.fatal? errors
  rw [List.head?_eq_none_iff, List.filter_eq_nil_iff]
  intro d hd
  rw [h d ((mem_of_ofOutcome hd).resolve_left (Option.some_ne_none d).symm)]
  exact Bool.false_ne_true

theorem fatal?_ofOutcome_some (h : d.isError = true) :
    (ofOutcome limit (some d) warnings).fatal? = some d := by
  obtain ⟨rest, hr⟩ : ∃ rest, (ofOutcome limit (some d) warnings).diagnostics = d :: rest :=
    ofOutcome_some
  unfold Report.fatal? errors
  rw [hr, List.filter_cons_of_pos h, List.head?_cons]

end Report

open Replay

-- The outcome of a run as its report has it.
inductive Run.Reported (run : Run) (r : Reader) (report : Report) : Prop
  | passed (halt : run.halt? = none) (fatal : report.fatal? = none)
  | stopped {f : Finding} {d : Diagnostic} (halt : run.halt? = some (.mismatch f))
      (fatal : report.fatal? = some d) (diagnosed : Diagnoses r .error f d)

theorem Run.reported {run : Run} {r : Reader} (h : run.reportable r = true) :
    run.Reported r (run.report r) := by
  have mild : ∀ d ∈ run.warnings.filterMap (·.diagnostic? .warning r), d.isError = false := by
    intro d hd
    obtain ⟨f, -, hf⟩ := List.mem_filterMap.mp hd
    exact beq_eq_false_iff_ne.mpr ((Finding.diagnoses hf).severity ▸ nofun)
  unfold reportable at h
  rw [Bool.and_eq_true] at h
  have hhalt := h.1
  unfold report Run.fatal?
  match run with
  | ⟨none, warnings, history⟩ => exact .passed rfl (Report.fatal?_ofOutcome_none mild)
  | ⟨some .noOpenLoop, warnings, history⟩ => exact absurd hhalt Bool.false_ne_true
  | ⟨some (.mismatch f), warnings, history⟩ =>
      obtain ⟨d, hd, diagnosed⟩ := Finding.diagnostic?_of_renders hhalt
      refine .stopped rfl ?_ diagnosed
      rw [Option.bind_some, hd]
      exact Report.fatal?_ofOutcome_some diagnosed.isError

-- Wherever there is a report, it tells how the run ended.
theorem Subject.reported {s : Subject} {settings : Settings} {report : Report}
    (h : validate? s settings = some report) :
    (s.run settings).Reported (s.reader settings) report := by
  simp only [validate?, Option.ite_none_right_eq_some] at h
  obtain ⟨reportable, h⟩ := h
  exact Option.some.inj h ▸ Run.reported reportable

-- A report only has codes of what the run ended with or warned of.
theorem Subject.found_of_hasCode {s : Subject} {settings : Settings} {report : Report} {c : Code}
    (h : validate? s settings = some report) (hc : report.hasCode c = true) :
    ∃ f, ((s.run settings).fatal? = some f ∨ f ∈ (s.run settings).warnings) ∧
      f.mismatch.code = c := by
  simp only [validate?, Option.ite_none_right_eq_some] at h
  obtain ⟨-, h⟩ := h
  obtain rfl := Option.some.inj h
  obtain ⟨d, hd, hcode⟩ := List.any_eq_true.mp hc
  obtain rfl : d.code = c := beq_iff_eq.mp hcode
  rcases Report.mem_of_ofOutcome hd with hf | hw
  · obtain ⟨f, hfatal, hdiag⟩ := Option.bind_eq_some_iff.mp hf
    exact ⟨f, .inl hfatal, (Finding.diagnoses hdiag).code.symm⟩
  · obtain ⟨w, hmem, hdiag⟩ := List.mem_filterMap.mp hw
    exact ⟨w, .inr hmem, (Finding.diagnoses hdiag).code.symm⟩

end SsaReplay
