import SsaReplay.Report.Diagnostic

namespace SsaReplay

-- The outcome of a validation: the diagnostic that stopped it, if one did, and the
-- warnings made up to then.
structure Report where
  diagnostics : List Diagnostic

namespace Report

def errors (r : Report) : List Diagnostic := r.diagnostics.filter Diagnostic.isError

def warnings (r : Report) : List Diagnostic := r.diagnostics.filter (fun d => !d.isError)

def hasErrors (r : Report) : Bool := r.diagnostics.any Diagnostic.isError

def isOk (r : Report) : Bool := !r.hasErrors

def fatal? (r : Report) : Option Diagnostic := r.errors.head?

def hasCode (r : Report) (c : Code) : Bool := r.diagnostics.any (fun d => d.code == c)

-- A limit of zero lets everything in; otherwise the report is never made longer
-- than the limit.
def extend (r : Report) (limit : Nat) (ds : List Diagnostic) : Report :=
  ⟨r.diagnostics ++ if limit = 0 then ds else ds.take (limit - r.diagnostics.length)⟩

-- What stopped the validation comes first and the warnings follow, as many as fit.
def ofOutcome (limit : Nat) (fatal? : Option Diagnostic) (warnings : List Diagnostic) : Report :=
  ((⟨[]⟩ : Report).extend limit fatal?.toList).extend limit warnings

instance : ToString Report where
  toString r :=
    if r.diagnostics.isEmpty then "validation succeeded"
    else "\n".intercalate (r.diagnostics.map toString)

end Report

end SsaReplay
