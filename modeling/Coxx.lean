import Coxx.Memory
import Coxx.Library.Chain
import Coxx.Library.Tree
import Coxx.Library.Search
import Coxx.Library.LittleEndian
import Coxx.Library.Decoder
import Coxx.Library.Loop
import Coxx.Library.Ranking
import Coxx.Library.Fuel
import Coxx.Library.Blocks
import Coxx.Bytes
import Coxx.Double
import Coxx.Avl.CAvl
import Coxx.Avl.Representation
import Coxx.Avl.Rotation
import Coxx.Avl.Insertion
import Coxx.Avl.Deletion
import Coxx.Avl.Offset
import Coxx.Avl.Navigation
import Coxx.Avl.CxxAvl
import Coxx.Avl.Equivalents
import Coxx.Avl.Rounds
import Coxx.Map.CMap
import Coxx.Map.Representation
import Coxx.Map.Operations
import Coxx.Map.Rehash
import Coxx.Map.Refinement
import Coxx.Map.Runs
import Coxx.Map.Growth
import Coxx.Map.Amortized
import Coxx.Map.Arrays
import Coxx.Map.Leaks
import Coxx.Map.CxxMap
import Coxx.Map.Ownership
import Coxx.Map.Losses
import Coxx.Zset.ZSet
import Coxx.Zset.Invariant
import Coxx.Zset.Descent
import Coxx.Zset.Operations
import Coxx.Zset.Members
import Coxx.Zset.Names
import Coxx.Zset.Runs
import Coxx.Zset.Rounds
import Coxx.Common.Serialize
import Coxx.Common.Numbers
import Coxx.Common.Request
import Coxx.Common.Database
import Coxx.Common.Commands
import Coxx.Common.Steps
import Coxx.Common.Semantics
import Coxx.Common.Runs
import Coxx.Common.Replies
import Coxx.Common.Validation
import Coxx.Common.Limits
import Coxx.Common.Members
import Coxx.Common.Surroundings
import Coxx.Common.Queries
import Coxx.Common.Socket
import Coxx.Common.Transfers
import Coxx.Common.Messages
import Coxx.Common.Connection
import Coxx.Common.Errors
import Coxx.Common.Kinds
import Coxx.Common.Effects
import Coxx.Common.Frames
import Coxx.Common.Parsing
import Coxx.Common.Responses
import Coxx.Common.Service
import Coxx.Common.Store
import Coxx.Common.Simulation
import Coxx.Common.Serving
import Coxx.Common.Objects
import Coxx.Common.Lifetimes
import Coxx.Common.Accounting
import Coxx.Server.Connections
import Coxx.Server.Safety
import Coxx.Server.Linearizable
import Coxx.Server.Chunks
import Coxx.Server.EventLoop
import Coxx.Server.Table
import Coxx.Server.Descriptors
import Coxx.Server.Polling
import Coxx.Server.Backlog
import Coxx.Server.Blocking
import Coxx.Server.Interleaving
import Coxx.Server.Wakeups
import Coxx.Server.Hangups
import Coxx.Server.Settling
import Coxx.Client.Client
import Coxx.Client.Requests
import Coxx.Client.Copies
import Coxx.Client.Replies
import Coxx.Client.Decoding
import Coxx.Client.Sessions
import Coxx.Client.Answers
