import Dqlite.Pool.Work
import Dqlite.Pool.State
import Dqlite.Pool.Threads
import Dqlite.Pool.Step
import Dqlite.Theorems.Effects
import Dqlite.Theorems.Control
import Dqlite.Theorems.Planner
import Dqlite.Theorems.Shutdown
import Dqlite.Theorems.Items
import Dqlite.Theorems.Places
import Dqlite.Theorems.Counters
import Dqlite.Theorems.Order
import Dqlite.Theorems.Ordering
import Dqlite.Theorems.Fairness
import Dqlite.Theorems.Progress
import Dqlite.Theorems.Fini
import Dqlite.Metrics
