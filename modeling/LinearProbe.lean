import LinearProbe.Proofs.Accounts
import LinearProbe.Proofs.Accumulating
import LinearProbe.Proofs.Compacting
import LinearProbe.Proofs.Construction
import LinearProbe.Proofs.Draining
import LinearProbe.Proofs.Overflows
import LinearProbe.Proofs.Overlays
import LinearProbe.Proofs.ProbeCosts
import LinearProbe.Proofs.Rewriting
import LinearProbe.Proofs.Seams
import LinearProbe.Proofs.Shifts
import LinearProbe.Proofs.Spreading
import LinearProbe.Proofs.StaleCursors
