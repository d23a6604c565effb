import SpallocServer.Foundation.Program
import SpallocServer.Foundation.System
import SpallocServer.Foundation.Journal
import SpallocServer.Foundation.Lending
import SpallocServer.Foundation.Latest
import SpallocServer.Foundation.Dict
import SpallocServer.Foundation.Tiling
import SpallocServer.Foundation.Search
import SpallocServer.Foundation.Framing
import SpallocServer.Foundation.Pattern
import SpallocServer.Errors
import SpallocServer.AreaToRect
import SpallocServer.AreaToRect.Ratio
import SpallocServer.PackTree
import SpallocServer.PackTree.Spec
import SpallocServer.PackTree.Refinement
import SpallocServer.PackTree.Completeness
import SpallocServer.PackTree.Merging
import SpallocServer.PackTree.Blocks
import SpallocServer.Coordinates
import SpallocServer.Coordinates.Chips
import SpallocServer.Coordinates.Directions
import SpallocServer.CandidateFilter
import SpallocServer.Allocator
import SpallocServer.Allocator.Spec
import SpallocServer.Allocator.Ledger
import SpallocServer.Allocator.Invariant
import SpallocServer.Allocator.Freeing
import SpallocServer.Allocator.CheckFree
import SpallocServer.Allocator.Accounting
import SpallocServer.Allocator.Session
import SpallocServer.Allocator.Exclusive
import SpallocServer.Allocator.Drain
import SpallocServer.Allocator.Reservation
import SpallocServer.Allocator.Service
import SpallocServer.Allocator.Idle
import SpallocServer.Allocator.SingleBoards
import SpallocServer.Allocator.Delivery
import SpallocServer.Allocator.Registry
import SpallocServer.Allocator.Reconfiguration
import SpallocServer.JobQueue
import SpallocServer.JobQueue.Rules
import SpallocServer.JobQueue.Protocol
import SpallocServer.JobQueue.Correspondence
import SpallocServer.Allocator.Refusal
import SpallocServer.JobQueue.Conservation
import SpallocServer.JobQueue.Order
import SpallocServer.JobQueue.Precedence
import SpallocServer.JobQueue.Service
import SpallocServer.JobQueue.Regeneration
import SpallocServer.JobQueue.Standstill
import SpallocServer.AsyncBmpController.Attempts
import SpallocServer.AsyncBmpController.Thread
import SpallocServer.AsyncBmpController.Rounds
import SpallocServer.Controller.Counter
import SpallocServer.Controller.Dimensions
import SpallocServer.Controller.Roster
import SpallocServer.Controller.Changes
import SpallocServer.Controller.Shutdown
import SpallocServer.Controller.Upkeep
import SpallocServer.Controller.Placement
import SpallocServer.Controller.Hosting
import SpallocServer.Allocator.Stock
import SpallocServer.Allocator.Leases
import SpallocServer.Controller.Hardware
import SpallocServer.Controller.Service
import SpallocServer.Controller.Tenants
import SpallocServer.Controller.Locations
import SpallocServer.Controller.Dedication
import SpallocServer.Controller.Separation
import SpallocServer.Controller.Lending
import SpallocServer.Controller.Deeds
import SpallocServer.Controller.Causes
import SpallocServer.Controller.History
import SpallocServer.Controller.Timeouts
import SpallocServer.Controller.Orders
import SpallocServer.Controller.Powered
import SpallocServer.Controller.Creation
import SpallocServer.Controller.Reassignment
import SpallocServer.Controller.WhereIs
import SpallocServer.Controller.Queries
import SpallocServer.Controller.Release
import SpallocServer.Controller.JobChips
import SpallocServer.Server
import SpallocServer.Server.Clients
import SpallocServer.Server.Lines
import SpallocServer.Server.Streams
import SpallocServer.Server.Notifications
import SpallocServer.Configuration.Addresses
import SpallocServer.Controller.Standstill
import SpallocServer.ConfigurationReloader
import SpallocServer.Controller.Carrying
import SpallocServer.Controller.Joining
import SpallocServer.Controller.Settling
import SpallocServer.Controller.Polls
