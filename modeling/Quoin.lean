import Quoin.Wire.Endian
import Quoin.Wire.Reader
import Quoin.Wire.Fields
import Quoin.Wire.MessagePack
import Quoin.Proto.Types
import Quoin.Proto.Encode
import Quoin.Proto.Decode
import Quoin.Proto.Scalars
import Quoin.Proto.Values
import Quoin.Proto.Frames
import Quoin.Proto.RoundTrip
import Quoin.Proto.Skip
import Quoin.Proto.Integers
import Quoin.Proto.Alike
import Quoin.Proto.Evolution
import Quoin.Trans.Run
import Quoin.Trans.Tokens
import Quoin.Claims.Table
import Quoin.Claims.TableOk
import Quoin.Claims.System
import Quoin.Claims.Link
import Quoin.Claims.Effects
import Quoin.Claims.Invariant
import Quoin.Claims.Owners
import Quoin.Trans.Waits
import Quoin.Trans.Line
import Quoin.Claims.Actors
import Quoin.Claims.Graph
import Quoin.Claims.Fair
import Quoin.Claims.Deadlock
import Quoin.Claims.Acyclic
import Quoin.Trans.Tally
import Quoin.Trans.Ghosts
import Quoin.Channel.State
import Quoin.Channel.Tasks
import Quoin.Channel.Owner
import Quoin.Channel.Relay
import Quoin.Channel.Books
import Quoin.Channel.Changes
import Quoin.Channel.HandOver
import Quoin.Channel.Operations
import Quoin.Channel.Local
import Quoin.Channel.Endpoint
import Quoin.Channel.Relayed
import Quoin.Channel.Shipping
import Quoin.Channel.Extends
import Quoin.Channel.Conserved
import Quoin.Channel.Outcomes
import Quoin.Channel.Matched
import Quoin.Channel.Order
import Quoin.Channel.Served
import Quoin.Channel.Answered
import Quoin.Handles.Table
import Quoin.Handles.Ledger
import Quoin.Handles.Safety
import Quoin.Lexical.Env
import Quoin.Portable.Block
import Quoin.Portable.Level
import Quoin.Portable.Nest
import Quoin.Trans.Search
import Quoin.Trans.Least
import Quoin.Trans.Nesting
import Quoin.Classes.Hierarchy
import Quoin.Classes.Table
import Quoin.Classes.Subtyping
import Quoin.Classes.Multimethods
import Quoin.Classes.Responds
import Quoin.Vm.Numbers
import Quoin.Vm.Devirt
import Quoin.Num.Binary64
import Quoin.Maps.Store
import Quoin.Maps.FastPath
import Quoin.Maps.Keys
import Quoin.Maps.Ordered
import Quoin.Maps.Refines
import Quoin.Maps.Sets
import Quoin.Maps.Consistent
import Quoin.Maps.Hooks
import Quoin.Maps.Interference
import Quoin.Replay.Driver
import Quoin.Replay.Lockstep
import Quoin.Trans.Resume
import Quoin.Control.State
import Quoin.Control.Calls
import Quoin.Control.Dispatch
import Quoin.Control.Machine
import Quoin.Control.Frames
import Quoin.Control.Kept
import Quoin.Control.Batch
import Quoin.Control.Grounds
import Quoin.Control.Operands
import Quoin.Control.Compiled
import Quoin.Control.Catching
import Quoin.Control.Moves
import Quoin.Control.Finally
import Quoin.Control.Discipline
import Quoin.Control.Once
import Quoin.Fibers.Contexts
import Quoin.Fibers.Depth
import Quoin.Streams.Utf8
import Quoin.Streams.Reads
import Quoin.Streams.Account
import Quoin.Streams.Lossless
import Quoin.Streams.Codecs
import Quoin.Streams.Writes
import Quoin.Streams.Durable
import Quoin.Archive.Tar
import Quoin.Archive.Ustar
import Quoin.Archive.TarRoundTrip
import Quoin.Archive.Zip
import Quoin.Archive.ZipHeaders
import Quoin.Archive.ZipRoundTrip
import Quoin.Text.Interp
import Quoin.Pins.Table
import Quoin.Types.Join
import Quoin.Types.Harvest
import Quoin.Claims.Idle
import Quoin.Channel.Capacity
import Quoin.Channel.Exports
import Quoin.Proto.Limit
import Quoin.Wire.Delimit
import Quoin.Proto.Delimited
import Quoin.Trans.Bytes
import Quoin.Trans.Peg
import Quoin.Text.Grammar
import Quoin.Text.Lexes
import Quoin.Text.Comments
import Quoin.Text.Pragmas
import Quoin.Text.Scanned
import Quoin.Trans.Glance
import Quoin.Text.Symbols
import Quoin.Trans.Insertion
import Quoin.Lists.Host
import Quoin.Lists.Sort
import Quoin.Lists.Join
import Quoin.Trans.Distinct
import Quoin.Maps.Uniq
import Quoin.Trans.Plan
import Quoin.Destructure.Compile
import Quoin.Destructure.Run
import Quoin.Destructure.Binds
import Quoin.Destructure.Correct
import Quoin.Destructure.Bound
import Quoin.Num.Decimal
import Quoin.Trans.Traverse
import Quoin.Trans.Levels
import Quoin.Json.Numbers
import Quoin.Json.Generate
import Quoin.Json.ReadBack
import Quoin.Pretty.Doc
import Quoin.Pretty.Layout
import Quoin.Pretty.Data
import Quoin.Time.Duration
import Quoin.Trans.LastWins
import Quoin.Trans.Links
import Quoin.Classes.Chains
import Quoin.Trans.Split
import Quoin.Http.Url
import Quoin.Http.Redirects
import Quoin.Http.Bodies
import Quoin.Http.SizeLines
import Quoin.Http.Draining
import Quoin.Http.Ceiling
import Quoin.Http.Framing
import Quoin.Archive.Paths
import Quoin.Archive.Extract
import Quoin.Fmt.Doc
import Quoin.Fmt.Layout
import Quoin.Fmt.Lookahead
import Quoin.Peephole.Code
import Quoin.Peephole.Fuse
import Quoin.Peephole.Sound
import Quoin.Portable.Isolated
import Quoin.Text.Strings
