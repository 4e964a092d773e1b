import MoneyLaundering.Aggregate.AggregateGraphs
import MoneyLaundering.Aggregate.AggregatePaths
import MoneyLaundering.Aggregate.CountPaths
import MoneyLaundering.Aggregate.Degree
import MoneyLaundering.Aggregate.SpillFleet
import MoneyLaundering.Checkpoint.CheckpointStore
import MoneyLaundering.Checkpoint.ExactlyOnce
import MoneyLaundering.Checkpoint.Watermark
import MoneyLaundering.Client.ParallelReader
import MoneyLaundering.Client.Reassembly
import MoneyLaundering.Gateway.Conservation
import MoneyLaundering.GroupBy.ComputeGraph
import MoneyLaundering.Join.AbortFinal
import MoneyLaundering.Join.EofDurable
import MoneyLaundering.Join.OnceResponses
import MoneyLaundering.Join.Returns
import MoneyLaundering.Merge.Isolation
import MoneyLaundering.Merge.PruneCounts
import MoneyLaundering.Merge.TilePartition
import MoneyLaundering.Merge.TileSizes
import MoneyLaundering.Messages.GraphKeys
import MoneyLaundering.Messages.RoundTrip
import MoneyLaundering.Restart.Transparency
import MoneyLaundering.Ring.AbortFinal
import MoneyLaundering.Ring.BarrierProgress
import MoneyLaundering.Ring.BarrierSafety
import MoneyLaundering.Ring.CountConservation
import MoneyLaundering.Ring.KeptSpill
import MoneyLaundering.Ring.LeaderSafety
import MoneyLaundering.Ring.MergeCompletion
import MoneyLaundering.Ring.ReleasedRuns
import MoneyLaundering.Ring.ReplaySafety
import MoneyLaundering.Ring.RingRabbitMQ
import MoneyLaundering.Ring.TokenRetry
import MoneyLaundering.Spill.MultiShardSpill
import MoneyLaundering.Spill.PersistentCrash
import MoneyLaundering.Supervisor.Adoption
import MoneyLaundering.Supervisor.EventLoop
import MoneyLaundering.Supervisor.Registry
import MoneyLaundering.UseCases.ScatterGather
import MoneyLaundering.UseCases.UC2Runs
import MoneyLaundering.UseCases.UC3
import MoneyLaundering.UseCases.UC5
