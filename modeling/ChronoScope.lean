import ChronoScope.Chronolog.Alternation
import ChronoScope.Chronolog.Backing
import ChronoScope.Chronolog.Campaigns
import ChronoScope.Chronolog.Corruption
import ChronoScope.Chronolog.Digest
import ChronoScope.Chronolog.Ledger
import ChronoScope.Chronolog.Merging
import ChronoScope.Chronolog.Mvcc
import ChronoScope.Chronolog.Probing
import ChronoScope.Chronolog.ReadIndex
import ChronoScope.Chronolog.Replicas
import ChronoScope.Chronolog.Replication
import ChronoScope.Chronolog.Session
import ChronoScope.Chronolog.StateHistory
import ChronoScope.Chronolog.Usability
import ChronoScope.Oracle.CasChain
import ChronoScope.Oracle.Controller
import ChronoScope.Oracle.Fairness
import ChronoScope.Oracle.Liveness
import ChronoScope.Sim.Drift
import ChronoScope.Sim.Quota
import ChronoScope.Sim.Timers
