import MoltRepublic.Projection.Organization
import MoltRepublic.Chain.Stages
import MoltRepublic.Vault.Answers
import MoltRepublic.Projection.Served
import MoltRepublic.Engine.Truthful
import MoltRepublic.Chain.Formats
import MoltRepublic.Net.Pieces
import MoltRepublic.Chat.Compaction
import MoltRepublic.Chat.Convergence
import MoltRepublic.Wiki.ChangeList
import MoltRepublic.Net.Acked
import MoltRepublic.Net.Outbox
import MoltRepublic.Projection.Deleted
import MoltRepublic.Engine.Minting
import MoltRepublic.Chain.Projected
import MoltRepublic.Engine.Sealing
import MoltRepublic.Engine.Readmitted
import MoltRepublic.Engine.Superseded
import MoltRepublic.Wiki.Strict
import MoltRepublic.Net.Mirror
import MoltRepublic.Net.WindowWords
import MoltRepublic.Engine.Backup
import MoltRepublic.Storage.Compaction
import MoltRepublic.Treasury.Files
import MoltRepublic.Net.ExporterRing
import MoltRepublic.Wiki.CacheRuns
import MoltRepublic.Net.EpochHold
import MoltRepublic.Wiki.Names
import MoltRepublic.Wiki.Neighbors
import MoltRepublic.Engine.WireBudget
import MoltRepublic.Chain.Recovery
import MoltRepublic.Net.HttpRead
import MoltRepublic.Engine.TaskStarts
import MoltRepublic.Engine.Standing
import MoltRepublic.Treasury.Rounds
import MoltRepublic.Founding.IdentityKey
import MoltRepublic.Founding.Seal
import MoltRepublic.Engine.Withdrawals
import MoltRepublic.Vault.Read
