import Symbios.Base.Overlay
import Symbios.Base.Segments
import Symbios.Base.Decimal
import Symbios.Base.Wire
import Symbios.Base.Msgpack
import Symbios.Base.Confined
import Symbios.Base.Thread
import Symbios.Base.ReadModifyWrite
import Symbios.Base.Replace
import Symbios.Base.UnorderedMap
import Symbios.Base.References
import Symbios.Base.Markers
import Symbios.Base.Tokens
import Symbios.Model.Data
import Symbios.Model.IoClients
import Symbios.Model.Orchestrator
import Symbios.Model.Server
import Symbios.Model.Threads
import Symbios.Model.Steps
import Symbios.Model.Writers
import Symbios.Model.Mongo
import Symbios.Model.WriteCalls
import Symbios.Model.CostModel
import Symbios.Model.Iris
import Symbios.Model.Posix
import Symbios.Model.Client
import Symbios.Model.Distribution
import Symbios.Model.Predictor
import Symbios.Model.Arguments
import Symbios.Model.Configuration
import Symbios.Model.RedisFile
import Symbios.Model.Serializers
import Symbios.Model.LibHandler
import Symbios.Model.Replayer
import Symbios.Model.Ranks
import Symbios.Model.PosixReplay
import Symbios.Model.Programs
import Symbios.Model.ShadowMetadata
import Symbios.Proof.Codec
import Symbios.Proof.Clients
import Symbios.Proof.Splice
import Symbios.Proof.Mongo
import Symbios.Proof.WriteCalls
import Symbios.Proof.Reads
import Symbios.Proof.Records
import Symbios.Proof.Tiles
import Symbios.Proof.Links
import Symbios.Proof.Store
import Symbios.Proof.FanOut
import Symbios.Proof.TileShape
import Symbios.Proof.Server
import Symbios.Proof.Layout
import Symbios.Proof.RecordRuns
import Symbios.Proof.ShadowLinks
import Symbios.Proof.Sticky
import Symbios.Proof.FileRuns
import Symbios.Proof.Bounds
import Symbios.Proof.Objects
import Symbios.Proof.Footprint
import Symbios.Proof.Isolation
import Symbios.Proof.Steps
import Symbios.Proof.Sessions
import Symbios.Proof.Atomicity
import Symbios.Proof.Interleaving
import Symbios.Proof.Writers
import Symbios.Proof.ReadYourWrites
import Symbios.Proof.Allocation
import Symbios.Proof.Replies
import Symbios.Proof.Placement
import Symbios.Proof.Extent
import Symbios.Proof.Routing
import Symbios.Proof.Iris
import Symbios.Proof.CostModel
import Symbios.Proof.Posix
import Symbios.Proof.Seeks
import Symbios.Proof.Refinement
import Symbios.Proof.Client
import Symbios.Proof.Chunks
import Symbios.Proof.Distribution
import Symbios.Proof.DoubleBuffer
import Symbios.Proof.Predictor
import Symbios.Proof.Arguments
import Symbios.Proof.Sizes
import Symbios.Proof.Configuration
import Symbios.Proof.RedisFile
import Symbios.Proof.Serializers
import Symbios.Proof.LibHandler
import Symbios.Proof.Replayer
import Symbios.Proof.Ranks
import Symbios.Proof.PosixReplay
import Symbios.Proof.Programs
import Symbios.Proof.ShadowMetadata
