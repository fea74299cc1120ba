import Etdb.Lib.Ring
import Etdb.Lib.Linked
import Etdb.Lib.Arena
import Etdb.Lib.Queue
import Etdb.Lib.ByteXor
import Etdb.Lib.ByteChain
import Etdb.Lib.ByteTree
import Etdb.Trie.State
import Etdb.Trie.Blocks
import Etdb.Trie.Free
import Etdb.Trie.Place
import Etdb.Trie.Operations
import Etdb.Trie.Represents
import Etdb.Trie.Chains
import Etdb.Trie.Resolve
import Etdb.Trie.Follow
import Etdb.Trie.Keys
import Etdb.Trie.Calls
import Etdb.Trie.Erase
import Etdb.Trie.Runs
import Etdb.Trie.Structure
import Etdb.Trie.Interval
import Etdb.Trie.Insertion
import Etdb.Trie.Count
import Etdb.Trie.Climb
import Etdb.Trie.Supply
import Etdb.Trie.Growth
import Etdb.Trie.Memory
import Etdb.Trie.Prefix
import Etdb.Trie.Longest
import Etdb.Trie.Typed
import Etdb.Trie.Occupancy
import Etdb.Trie.Values
import Etdb.Geo.Hash
import Etdb.Geo.Box
import Etdb.Geo.Cover
import Etdb.Geo.Neighbors
import Etdb.Store.Lru
import Etdb.Store.Recency
import Etdb.Store.Pages
import Etdb.Store.Follow
import Etdb.Lib.Decimal
import Etdb.Wire.Buffer
import Etdb.Wire.Parser
import Etdb.Wire.Messages
import Etdb.Wire.Bounds
import Etdb.Wire.Framing
import Etdb.Wire.Stream
import Etdb.Wire.Records
import Etdb.Wire.Loop
import Etdb.Wire.Fifo
import Etdb.Wire.Transfer
import Etdb.Wire.Blocking
import Etdb.Wire.Words
import Etdb.Pool.State
import Etdb.Pool.Kept
import Etdb.Pool.Large
import Etdb.Pool.Stack
import Etdb.Pool.Runs
import Etdb.Pool.Destroy
import Etdb.Pool.Leaks
import Etdb.Text.Numbers
import Etdb.Text.Reading
import Etdb.Text.Split
import Etdb.Config.File
import Etdb.Config.Settings
import Etdb.Config.Written
import Etdb.Database.State
import Etdb.Database.Operations
import Etdb.Database.Ideal
import Etdb.Database.Store
import Etdb.Database.Ownership
import Etdb.Database.Values
import Etdb.Database.Lists
import Etdb.Database.Points
import Etdb.Database.Runs
import Etdb.Database.Maps
import Etdb.Database.Prefixes
import Etdb.Database.Queues
import Etdb.Database.Locations
import Etdb.Database.Accounts
import Etdb.Database.Rectangles
import Etdb.Server.Commands
import Etdb.Server.Lookup
import Etdb.Server.Failures
import Etdb.Server.Variadic
import Etdb.Server.Replies
import Etdb.Server.Stores
import Etdb.Server.Answers
import Etdb.Server.Cycle
import Etdb.Server.Interleaving
import Etdb.Server.Isolation
import Etdb.Server.Events
import Etdb.Server.Watching
import Etdb.Server.Descriptors
import Etdb.Server.Serving
import Etdb.Client.Library
import Etdb.Client.Coordinates
import Etdb.Client.Meaning
import Etdb.Client.Conversation
import Etdb.Client.Terminal
import Etdb.Server.Progress
