namespace SsaReplay

-- How much a validation looks at and reports.
inductive Level
  | fast
  | standard
  | full
deriving DecidableEq

structure Settings where
  level : Level
  -- The most diagnostics a report holds; zero stands for no limit.
  maxDiagnostics : Nat
  -- Every phi of a join has to be held by some variable after the merge.
  checkPhiOwnership : Bool
  -- Warn about statements after one that never falls through.
  reportUnreachable : Bool
  -- Show the surroundings of the offending operation in every diagnostic.
  attachSnippets : Bool
  -- The most replays of a loop while its header bindings keep narrowing.
  maxLoopIterations : Nat

namespace Settings

def ofLevel : Level → Settings
  | .fast => ⟨.fast, 200, false, false, false, 64⟩
  | .standard => ⟨.standard, 200, false, false, false, 64⟩
  | .full => ⟨.full, 500, true, true, true, 64⟩

def default : Settings := ofLevel .standard

-- Each extra is given by its own switch or by the full level; the context of a
-- diagnostic is left out at the fast level only.

def attachesContext (s : Settings) : Bool := s.level != .fast

def checksPhiOwnership (s : Settings) : Bool := s.checkPhiOwnership || s.level == .full

def reportsUnreachable (s : Settings) : Bool := s.reportUnreachable || s.level == .full

def attachesSnippets (s : Settings) : Bool := s.attachSnippets || s.level == .full

end Settings

end SsaReplay
