import Synaps.Archive.Noninterference
import Synaps.Archive.StoreRuns
import Synaps.Config.ConfigFile
import Synaps.Events.Queue
import Synaps.Session.Persister
import Synaps.Session.Lock
import Synaps.Session.ActorLock
import Synaps.Session.Mirror
import Synaps.Runtime.CodexRuns
import Synaps.Runtime.Continuation
import Synaps.Runtime.ImagePlan
import Synaps.Runtime.OaiTurns
import Synaps.Runtime.Relay
import Synaps.Runtime.Sanitize
import Synaps.Runtime.AnthropicStream
import Synaps.Runtime.WorkerRuns
import Synaps.Memory.TornAppend
import Synaps.Retention.Sessions
import Synaps.Quota.KeeperRuns
import Synaps.Quota.UsageReads
import Synaps.Tools.MultiEdit
import Synaps.Tools.OutputLane
import Synaps.Tools.SchemaRoundTrip
import Synaps.Session.Display
import Synaps.Tools.Ansi
import Synaps.Tools.Utf8Stream
import Synaps.Tools.Placeholders
import Synaps.Tools.Discovery
import Synaps.Store.Crash
import Synaps.Store.Names
