import FactGuard.Main
import FactGuard.KnownBits.Codec
import FactGuard.Proofs.Claim.Precedence
import FactGuard.Proofs.Fact.Runs
import FactGuard.Proofs.Fact.Tightening
import FactGuard.Proofs.Fact.Uses
import FactGuard.Proofs.Guard.Agreement
import FactGuard.Proofs.KnownBits.Bitwise
import FactGuard.Proofs.KnownBits.Precision
import FactGuard.Proofs.Machine.Division
import FactGuard.Proofs.Machine.Integers
import FactGuard.Proofs.Pass.Traps
import FactGuard.Proofs.Program.RoundTrip
import FactGuard.Proofs.Site.Accounts
import FactGuard.Proofs.Site.Conflicts
import FactGuard.Proofs.Site.Facts
import FactGuard.Proofs.Site.Hygiene
import FactGuard.Proofs.Site.Refinement
import FactGuard.Proofs.Site.Requests
import FactGuard.Proofs.Site.Validity
import FactGuard.Proofs.ValueRange.Canonical
import FactGuard.Proofs.ValueRange.Queries
import FactGuard.Proofs.ValueRange.Tightness
