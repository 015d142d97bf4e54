import Arca.Backends.RemoteRace
import Arca.Blob.CompositePlan
import Arca.Blob.EncryptedStreams
import Arca.Body.UnsignedBody
import Arca.Buckets.DelimitedPages
import Arca.Buckets.Races
import Arca.Buckets.Recreation
import Arca.Cluster.BlobFanOut
import Arca.Cluster.Orphans
import Arca.Cluster.RestoreDetection
import Arca.Cluster.TombstoneGc
import Arca.Cluster.WriteQuorum
import Arca.Handlers.DefaultRetention
import Arca.Handlers.LockedBuckets
import Arca.Lifecycle.Panics
import Arca.Maintenance.RecryptClients
import Arca.Maintenance.RecryptRuns
import Arca.Multipart.Completion
import Arca.Multipart.PartRows
import Arca.Multipart.Retries
import Arca.Replication.CrossSite
import Arca.Replication.Outbox
import Arca.Security.IdentityCache
import Arca.Security.SignedDispatch
import Arca.Storage.BatchDelete
import Arca.Storage.InPlace
import Arca.Storage.MetadataCache
import Arca.Storage.Registers
import Arca.Storage.TimeTexts
