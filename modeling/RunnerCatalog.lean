import RunnerCatalog.Main
import RunnerCatalog.Store.Refresh
import RunnerCatalog.Proofs.LookupOrder
import RunnerCatalog.Proofs.Due
import RunnerCatalog.Proofs.Reread
import RunnerCatalog.Proofs.Unchanged
import RunnerCatalog.Proofs.Arrangement
import RunnerCatalog.Proofs.Outage
import RunnerCatalog.Proofs.Revert
import RunnerCatalog.Proofs.Fetches
import RunnerCatalog.Proofs.RoundTrip
import RunnerCatalog.Proofs.Layering
import RunnerCatalog.Proofs.Shapes
import RunnerCatalog.Proofs.Agreement
import RunnerCatalog.Proofs.Directives
import RunnerCatalog.Proofs.ArgumentPlaces
import RunnerCatalog.Proofs.Words
import RunnerCatalog.Proofs.ArgumentPattern
import RunnerCatalog.Proofs.Located
import RunnerCatalog.Proofs.Containment
import RunnerCatalog.Proofs.Restored
import RunnerCatalog.Proofs.HoverRange
import RunnerCatalog.Proofs.Answers
import RunnerCatalog.Proofs.Bounds
import RunnerCatalog.Proofs.ReportedCycles
import RunnerCatalog.Proofs.Columns
import RunnerCatalog.Proofs.WordCuts
import RunnerCatalog.Proofs.ExactWalk
import RunnerCatalog.Proofs.RefreshOrder
