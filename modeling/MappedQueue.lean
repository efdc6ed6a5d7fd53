import MappedQueue.Concurrency.Machine
import MappedQueue.Concurrency.CondVar
import MappedQueue.Concurrency.Sections
import MappedQueue.Event
import MappedQueue.SignConsumerFinished
import MappedQueue.QueueTraits
import MappedQueue.SafeUnorderedMap
import MappedQueue.MapTraits
import MappedQueue.QueuePool
import MappedQueue.MapEquivalence
import MappedQueue.PoolMoves
import MappedQueue.ExactlyOnce
import MappedQueue.Overflow
import MappedQueue.ConsumerWakeUp
import MappedQueue.ProducerWakeUp
import MappedQueue.ConsumerRounds
import MappedQueue.Subscription
import MappedQueue.Delivery
import MappedQueue.Conservation
import MappedQueue.Completion
import MappedQueue.Destruction
import MappedQueue.CapacityEvents
import MappedQueue.Concurrency.Census
import MappedQueue.EventWaiters
import MappedQueue.ProducerRelease
import MappedQueue.QueueEquivalence
import MappedQueue.SharedSignature
import MappedQueue.StopBound
import MappedQueue.SharedCounter
import MappedQueue.SharedCompletion
import MappedQueue.OwnSignature
import MappedQueue.Concurrency.LockOrder
import MappedQueue.Locking
import MappedQueue.MutexHolders
import MappedQueue.LockDiscipline
import MappedQueue.Concurrency.SequentialObject
import MappedQueue.Bucketing
import MappedQueue.Concurrency.SharedMutex
import MappedQueue.Concurrency.Linearization
import MappedQueue.BucketThreads
import MappedQueue.BucketMoves
import MappedQueue.ReferenceLifetime
import MappedQueue.BucketLinearization
import MappedQueue.BucketSections
import MappedQueue.LookupLocks
import MappedQueue.Concurrency.LinkedNodes
import MappedQueue.Concurrency.Progress
import MappedQueue.LockfreeQueue
import MappedQueue.LockfreeMoves
import MappedQueue.LockfreeReadings
import MappedQueue.LockfreeSteps
import MappedQueue.LockfreeRuns
import MappedQueue.LockfreeFifo
import MappedQueue.LockfreeCalls
import MappedQueue.LockfreeLinearization
import MappedQueue.LockfreeAlone
import MappedQueue.LockfreeProgress
import MappedQueue.LockfreeBounds
import MappedQueue.LockfreeDestructor
import MappedQueue.Concurrency.Locality
import MappedQueue.SparedErasures
import MappedQueue.MapThreads
import MappedQueue.MapLinearization
import MappedQueue.MapProgress
import MappedQueue.LockfreeTags
import MappedQueue.BalkingPool
import MappedQueue.LockfreePool
import MappedQueue.SoleConsumer
import MappedQueue.PoolOverlay
import MappedQueue.LockfreePoolSteps
import MappedQueue.LockfreePoolRefinement
