import MuStore.Library.UnorderedMap
import MuStore.Library.Ownership
import MuStore.Library.Words
import MuStore.Message
import MuStore.Protocol
import MuStore.KVStore
import MuStore.KVStoreRefinement
import MuStore.Serializer
import MuStore.Server
import MuStore.History
import MuStore.Framing
import MuStore.Replies
import MuStore.Library.Runs
import MuStore.Clients
import MuStore.Serializability
import MuStore.PendingPointers
import MuStore.Connection
import MuStore.SharedIovecs
import MuStore.ZeroCopy
import MuStore.Errors
import MuStore.Transports
import MuStore.SchemaBuilds
import MuStore.Library.Overwrite
import MuStore.Person
import MuStore.WireFormat
import MuStore.Library.SelfDelimiting
import MuStore.Decoding
import MuStore.Gathering
import MuStore.FailedReads
import MuStore.Keys
import MuStore.SchemaMessages
import MuStore.IovecTable
import MuStore.Delivery
import MuStore.BufferSize
import MuStore.ScatterGather
import MuStore.Accessors
import MuStore.Leaks
import MuStore.FailedAllocations
import MuStore.Quotes
import MuStore.Specification
import MuStore.Observability
import MuStore.Snapshots
import MuStore.Library.Interleaving
import MuStore.Sessions
import MuStore.Linearizability
import MuStore.PointerLifetimes
import MuStore.Footprint
import MuStore.PaddedBuild
import MuStore.Library.Varint
import MuStore.ProtobufStream
import MuStore.Segmentation
import MuStore.SchemaThreads
