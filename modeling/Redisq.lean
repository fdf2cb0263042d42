import Redisq.Library.Trajectory
import Redisq.Library.Custody
import Redisq.Library.Digits
import Redisq.Model.Command
import Redisq.Model.Format
import Redisq.Model.Push
import Redisq.Model.Pop
import Redisq.Verified.Conservation
import Redisq.Verified.Dedup
import Redisq.Verified.Names
import Redisq.Verified.Stall
import Redisq.Verified.Sidecars
import Redisq.Verified.Records
import Redisq.Model.Client
import Redisq.Verified.Stranded
import Redisq.Verified.Wakes
import Redisq.Verified.Priority
import Redisq.Verified.Leaving
import Redisq.Verified.Paused
import Redisq.Verified.Stale
import Redisq.Verified.Hooks
import Redisq.Verified.Attempts
import Redisq.Verified.RoundTrip
import Redisq.Verified.FastPath
import Redisq.Verified.PopFaults
import Redisq.Verified.PushFaults
import Redisq.Verified.FinishFaults
import Redisq.Verified.Interrupted
import Redisq.Verified.RequeueGap
import Redisq.Verified.BatchOrder
import Redisq.Verified.Instances
import Redisq.Verified.InTurn
import Redisq.Verified.PopOrder
import Redisq.Verified.Requeues
import Redisq.Verified.Reaping
import Redisq.Verified.Exclusive
import Redisq.Verified.Retry
import Redisq.Verified.BatchSizing
import Redisq.Verified.Retention
import Redisq.Verified.Paging
import Redisq.Verified.Unpacks
import Redisq.Verified.Removal
import Redisq.Verified.Unwrapping
import Redisq.Model.AckID
import Redisq.Verified.AckIDs
import Redisq.Verified.Signals
import Redisq.Verified.Recovery
import Redisq.Verified.FirstCome
import Redisq.Verified.Overdue
import Redisq.Verified.Losses
import Redisq.Verified.Stats
import Redisq.Library.Contract
import Redisq.Verified.Conduct
import Redisq.Verified.Consumers
import Redisq.Verified.Closed
import Redisq.Verified.PauseSeen
import Redisq.Verified.Fairness
import Redisq.Verified.PriorityFairness
import Redisq.Verified.Once
import Redisq.Verified.Kept
import Redisq.Verified.Lease
