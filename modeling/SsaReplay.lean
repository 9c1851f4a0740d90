import SsaReplay.Graph.Construction
import SsaReplay.Proofs.Canonical
import SsaReplay.Proofs.Continuing
import SsaReplay.Proofs.Enclosure
import SsaReplay.Proofs.Execution.Soundness
import SsaReplay.Proofs.Exits
import SsaReplay.Proofs.Legibility.Program
import SsaReplay.Proofs.Lookup
import SsaReplay.Proofs.Lowering
import SsaReplay.Proofs.Mirroring.Program
import SsaReplay.Proofs.Monotonicity.Statement
import SsaReplay.Proofs.Origins
import SsaReplay.Proofs.Parallel
import SsaReplay.Proofs.Reentry
import SsaReplay.Proofs.Settings
import SsaReplay.Proofs.SingleCase
import SsaReplay.Proofs.Warnings.Program
import SsaReplay.Report.Interchange
import SsaReplay.Validation
import SsaReplay.Yul.Draft
