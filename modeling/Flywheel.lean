import Flywheel.Attempts
import Flywheel.Overlap
import Flywheel.Barrier.Once
import Flywheel.Claim
import Flywheel.Sweep
import Flywheel.Runner.Conservation
import Flywheel.Periodic.Fires
import Flywheel.Periodic.Upsert
import Flywheel.Stats.LateFinalize
import Flywheel.Feed.Delivery
import Flywheel.Limiter.Accrual
import Flywheel.Control.Stagger
import Flywheel.Periodic.Preview
import Flywheel.Retention.Barriers
import Flywheel.Stats.Backfill
import Flywheel.Retention.Status
import Flywheel.Control.Recorded
import Flywheel.Retention.Orphans
import Flywheel.KeyHolders
import Flywheel.Limiter.Wait
import Flywheel.Control.Scope
import Flywheel.Runner.UnknownKind
import Flywheel.Command.Rule
import Flywheel.Node.Registry
import Flywheel.Runner.Progress
import Flywheel.Runner.Logs
import Flywheel.Observers.Metrics
import Flywheel.Stats.Version
