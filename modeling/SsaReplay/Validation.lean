import SsaReplay.Replay.Rendering
import SsaReplay.Replay.Statement

namespace SsaReplay

open Replay

-- A program, what its names stand for, and the graphs it is said to have become.
structure Subject where
  program : Yul.Block
  analysis : Yul.Analysis
  dialect : Yul.Dialect
  flow : Graph.ControlFlow

-- The outcome of replaying a program to its end or to the first mismatch.
structure Run where
  halt? : Option Halt
  warnings : List Finding
  -- The oldest first.
  history : List Entry

namespace Subject

def context (s : Subject) (settings : Settings) : Context :=
  ⟨s.analysis, s.dialect, s.flow, settings, ⟨none, s.flow.main, 0⟩⟩

def reader (s : Subject) (settings : Settings) : Reader := ⟨s.analysis.scopes, s.dialect, settings⟩

end Subject

-- The main program runs against the main graph and ends in its exit.
def replayMain (ctx : Context) (program : Yul.Block) : Walk Unit := do
  record ctx (.entered none)
  if ← replayBlock ctx program then
    leaveByMainExit ctx
  else
    pure ()

namespace Subject

def run (s : Subject) (settings : Settings) : Run :=
  match replayMain (s.context settings) s.program (State.start s.flow.main) with
  | .ok () t => ⟨none, t.warnings, t.history.reverse⟩
  | .error h t => ⟨some h, t.warnings, t.history.reverse⟩

end Subject

namespace Run

def fatal? (run : Run) : Option Finding :=
  match run.halt? with
  | some (.mismatch f) => some f
  | _ => none

-- Whether the run did not end in a fault of its own and all that it found can be put
-- into words, what it ended with among it.
def reportable (run : Run) (r : Reader) : Bool :=
  (match run.halt? with
    | some .noOpenLoop => false
    | some (.mismatch f) => f.renders r
    | none => true)
    && run.history.all (·.renders r)

-- A finding is an error when the run ended with it, and a warning when it went on.
def report (run : Run) (r : Reader) : Report :=
  .ofOutcome r.settings.maxDiagnostics (run.fatal?.bind (·.diagnostic? .error r))
    (run.warnings.filterMap (·.diagnostic? .warning r))

-- What the trace shows, up to the first finding that cannot be put into words.
def trace (run : Run) (r : Reader) : List String :=
  (run.history.takeWhile (·.renders r)).filterMap (·.trace? r)

end Run

-- Replays a program against its graphs. There is a report unless the graphs are so
-- far off that a finding cannot be put into words.
def validate? (s : Subject) (settings : Settings) : Option Report :=
  let run := s.run settings
  let r := s.reader settings
  if run.reportable r then some (run.report r) else none

-- The steps of a validation, as text.
def validationTrace (s : Subject) (settings : Settings) : List String :=
  (s.run settings).trace (s.reader settings)

-- The outcome of insisting that a program is valid.
inductive Verdict
  | accepted
  | refused
  -- There was no report to decide by.
  | undecided
deriving DecidableEq

def judge (s : Subject) (settings : Settings) : Verdict :=
  match validate? s settings with
  | some report => if report.hasErrors then .refused else .accepted
  | none => .undecided

end SsaReplay
