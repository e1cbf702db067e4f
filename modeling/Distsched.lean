import Distsched.Cluster.Network
import Distsched.Lib.Quorum
import Distsched.Cluster.Safety
import Distsched.Lib.Prog
import Distsched.Scheduler.Queue
import Distsched.Scheduler.Retry
import Distsched.Scheduler.Server
import Distsched.Scheduler.Deps
import Distsched.Scheduler.Handlers
import Distsched.Scheduler.Run
import Distsched.Lifecycle.Board
import Distsched.Lifecycle.Invariant
import Distsched.Lifecycle.View
import Distsched.Lifecycle.Refine
import Distsched.Lifecycle.Activities
import Distsched.Lifecycle.Rebuild
import Distsched.Lifecycle.NoStranded
import Distsched.Lifecycle.Notes
import Distsched.Lifecycle.Keeping
import Distsched.Lifecycle.Requests
import Distsched.Lifecycle.History
import Distsched.Lifecycle.Outcomes
import Distsched.Lifecycle.Leases
import Distsched.Concurrent.Finality
import Distsched.Cluster.Broadcast
import Distsched.Concurrent.Paying
import Distsched.Concurrent.Promotion
import Distsched.Lib.Journal
import Distsched.Replication.Log
import Distsched.Replication.Stream
import Distsched.Replication.Order
import Distsched.Replication.Complete
import Distsched.Replication.Cursor
import Distsched.Cluster.Vote
import Distsched.Replication.Snapshot
import Distsched.Lifecycle.Leadership
import Distsched.Lib.Acyclic
import Distsched.Scheduler.Cycles
import Distsched.Concurrent.Acyclic
import Distsched.Lifecycle.Cascade
import Distsched.Lifecycle.Deeds
import Distsched.Lifecycle.Spread
import Distsched.Lifecycle.Cull
import Distsched.Lifecycle.Budget
import Distsched.Timing.Agenda
import Distsched.Timing.Clockwork
import Distsched.Timing.Handlers
import Distsched.Timing.Activities
import Distsched.Timing.Dispatch
import Distsched.Timing.Restart
import Distsched.Scheduler.Polls
import Distsched.Lifecycle.Order
import Distsched.Replication.DeadLetter
import Distsched.Cluster.Redirect
import Distsched.Scheduler.Report
import Distsched.Scheduler.Cascade
import Distsched.Scheduler.Placement
import Distsched.Scheduler.Submission
import Distsched.Lib.Heap
import Distsched.Queue.Heap
import Distsched.Queue.Refine
import Distsched.Lifecycle.Cron
import Distsched.Cluster.Terms
import Distsched.Scheduler.Backoff
import Distsched.Worker.Agent
import Distsched.Timing.Almanac
import Distsched.Timing.Arming
import Distsched.Timing.Occurrences
import Distsched.Scheduler.Durable
import Distsched.Lifecycle.Custody
import Distsched.Scheduler.Reclaim
import Distsched.Scheduler.Sweep
import Distsched.Cluster.Electable
import Distsched.Cluster.Timer
import Distsched.Concurrent.Dispatch
import Distsched.Lifecycle.Completion
import Distsched.Scheduler.Heartbeats
import Distsched.Replication.Registry
import Distsched.Lifecycle.Automaton
import Distsched.Store.Election
import Distsched.Cmd.Peers
import Distsched.Scheduler.Reads
import Distsched.Worker.Session
import Distsched.Worker.Refine
import Distsched.Timing.Zones
import Distsched.Scheduler.Reasons
import Distsched.Lifecycle.Orphans
import Distsched.Lifecycle.Failure
