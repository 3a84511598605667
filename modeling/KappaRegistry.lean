import KappaRegistry.Auth.Ownership
import KappaRegistry.Distribution.Owner
import KappaRegistry.Distribution.Depth
import KappaRegistry.Server.Authority
import KappaRegistry.Server.SigV4.Completeness
import KappaRegistry.Crypto.ChunkStream
import KappaRegistry.Store.Uploads
import KappaRegistry.Store.TagHistory
import KappaRegistry.Store.Retention
import KappaRegistry.S3.Multipart
import KappaRegistry.S3.Settings
import KappaRegistry.Identity.Probe
import KappaRegistry.Identity.HandleRegistry
import KappaRegistry.Atproto.Account
import KappaRegistry.Store.Aliases
import KappaRegistry.Store.Transfers
import KappaRegistry.Distribution.EdgeDelete
import KappaRegistry.Transaction
import KappaRegistry.Bundle.RoundTrip
import KappaRegistry.Clock
import KappaRegistry.Store.Successions
import KappaRegistry.Atproto.Firehose
import KappaRegistry.Server.EventLog
import KappaRegistry.Store.TagPrefix
import KappaRegistry.Store.Deletion
import KappaRegistry.Store.VersionListing
import KappaRegistry.S3.PercentKey
import KappaRegistry.Atproto.ListRecords
import KappaRegistry.Counter
import KappaRegistry.Distribution.Reconcile
import KappaRegistry.Merkle
import KappaRegistry.Nix.References
import KappaRegistry.Atproto.CommitCbor
import KappaRegistry.Kappa.Streaming
