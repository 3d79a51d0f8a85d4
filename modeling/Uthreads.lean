import Uthreads.Api
import Uthreads.Effects
import Uthreads.Tallies
import Uthreads.AtomicMachine
import Uthreads.Moves
import Uthreads.Histories
import Uthreads.Schedulable
import Uthreads.Quantums
import Uthreads.Fifo
import Uthreads.RoundRobin
import Uthreads.Discipline
import Uthreads.Sections
import Uthreads.Simulation
import Uthreads.Startup
import Uthreads.Stores
import Uthreads.Failures
import Uthreads.Frames
import Uthreads.Laws
import Uthreads.Removal
import Uthreads.Handover
import Uthreads.Wakeups
import Uthreads.Identifiers
import Uthreads.Timers
import Uthreads.Objects
import Uthreads.Contexts
import Uthreads.Interleavings
import Uthreads.Activations
import Uthreads.Masks
import Uthreads.Expiries
import Uthreads.Preemption
import Uthreads.ReadyQueue
import Uthreads.Refinement
import Uthreads.ThreadPool
import Uthreads.Abstraction
import Uthreads.Fairness
import Uthreads.Shares
import Uthreads.Linearization
import Uthreads.Uninterrupted
import Uthreads.Realization
import Uthreads.Widths
import Uthreads.Outcomes
import Uthreads.Batches
import Uthreads.Observations
import Uthreads.FreshContexts
import Uthreads.Quiescence
import Uthreads.Responsiveness
import Uthreads.Preparations
import Uthreads.Arrangements
import Uthreads.Bystanders
import Uthreads.RelativeTime
