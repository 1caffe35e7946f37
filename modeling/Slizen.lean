import Slizen.Admin.Purge
import Slizen.Benchmark.IssuanceRuns
import Slizen.Hysteresis
import Slizen.Proxy.Dispatch
import Slizen.Proxy.LifecycleRuns
import Slizen.Proxy.Pipeline
import Slizen.Proxy.SetOptions
import Slizen.Proxy.TrackingRuns
import Slizen.Service.BlindCalls
import Slizen.Service.Drops
import Slizen.Service.Finalization
import Slizen.Service.Gauge
import Slizen.Service.Isolation
import Slizen.Service.Ledger
import Slizen.Service.OnePromotion
import Slizen.Service.OriginExpiry
import Slizen.Service.Requests
import Slizen.Service.StaleFallback
import Slizen.Service.StaleWindow
import Slizen.Service.Supersession
import Slizen.TopSnapshots
import Slizen.TrackerSweep
import Slizen.WindowArithmetic
