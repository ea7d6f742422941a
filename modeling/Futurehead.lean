import Futurehead.Bootstrap.BulkPull
import Futurehead.Bootstrap.Frontier
import Futurehead.Bootstrap.PendingList
import Futurehead.Bootstrap.Pulls
import Futurehead.Json.Telemetry
import Futurehead.Ledger.Failure
import Futurehead.Ledger.Recompute
import Futurehead.Ledger.Representative
import Futurehead.Network.Buffers
import Futurehead.Network.Consolidation
import Futurehead.Network.Cookies
import Futurehead.Numbers.Decimal
import Futurehead.Numbers.Format
import Futurehead.Processing.Arrival
import Futurehead.Processing.SignatureChecker
import Futurehead.Processing.UncheckedCount
import Futurehead.Processing.WriteQueue
import Futurehead.Safety
import Futurehead.Upgrade.Complete
import Futurehead.Upgrade.EpochMerge
import Futurehead.Upgrade.Reconstruction
import Futurehead.Voting.Active
import Futurehead.Voting.Aggregator
import Futurehead.Voting.Prioritization
import Futurehead.Voting.VotesCache
import Futurehead.Wallet.Backup
import Futurehead.Wallet.Move
import Futurehead.Wallet.RepresentativeCounts
import Futurehead.Wallet.Restore
import Futurehead.Wallet.SendIds
import Futurehead.Wire.Filter
import Futurehead.Wire.RoundTrip
import Futurehead.Work.Cancel
import Futurehead.Work.Pool
