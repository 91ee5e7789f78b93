import DeferredLru.Lib.Chain
import Mathlib.Data.Fin.Basic

set_option autoImplicit false

/-! # The memory of a `DeferredLRU`

The shared state of `include/deferred_lru.h`: the node array with its four intrusive links, the two
LRU sentinels, the pool head, the Recent head, the bucket heads, the counters and the two request
flags. Mutexes are not part of it: the single-threaded code (`Code.lean`) never waits for one and
the threaded machine (`Threads/Machine.lean`) keeps them next to the memory.

Memory is indexed by the capacity `N = max_element_count_`, so a node is a `Fin N`. Counters of type
`size_t` are natural numbers: each is bounded by the number of nodes plus the number of running
operations, far below `2^64`. -/

namespace DeferredLru

open Intrusive

/-- A `NodeBase*`: null, one of the two sentinels of the LRU list, the `head` that `pullRecent` keeps
    on its stack, the address `recentDummyTerminalPtr()`, or a node of `nodes_`. -/
inductive Ptr (N : ℕ) where
  | null
  | lruHead
  | lruTail
  | localHead
  | dummy
  | node (i : Fin N)
  deriving DecidableEq

variable {N : ℕ}

/-- Whether the pointer is the address of a `NodeBase`, so that its links may be accessed. -/
def Ptr.isBase : Ptr N → Bool
  | .null => false
  | .dummy => false
  | _ => true

theorem Ptr.node_injective : Function.Injective (Ptr.node (N := N)) := fun _ _ h => by
  cases h; rfl

/-- The hasher of a cache of capacity `N` and what `allocateMemory` leaves: `buckets_.size()`,
    `pull_threshold_` and `purge_threshold_`, all of them at least one. `Allocation.lean` computes
    them from the arguments. -/
structure Config (N : ℕ) (K : Type) where
  pullThreshold : ℕ
  purgeThreshold : ℕ
  hasher : K → ℕ
  bucketCount : ℕ
  capacity_pos : 1 ≤ N
  pullThreshold_pos : 1 ≤ pullThreshold
  purgeThreshold_pos : 1 ≤ purgeThreshold
  bucketCount_pos : 1 ≤ bucketCount

variable {K V : Type}

/-- `keyToBucketNr`. -/
def Config.keyToBucketNr (cfg : Config N K) (k : K) : ℕ := cfg.hasher k % cfg.bucketCount

theorem Config.keyToBucketNr_lt (cfg : Config N K) (k : K) :
    cfg.keyToBucketNr k < cfg.bucketCount :=
  Nat.mod_lt _ cfg.bucketCount_pos

/-- The shared memory of the cache. -/
structure Mem (N : ℕ) (K V : Type) where
  lruNext : Ptr N → Ptr N
  lruPrev : Ptr N → Ptr N
  recentNext : Fin N → Ptr N
  bucketNext : Fin N → Option (Fin N)
  key : Fin N → K
  value : Fin N → V
  buckets : ℕ → Option (Fin N)
  emptyHead : Ptr N
  recentHead : Ptr N
  recentCount : ℕ
  currentElementCount : ℕ
  pullRequest : Bool
  purgeRequest : Bool

namespace Mem

/-- `p->lru_next.load()`; undefined unless `p` is the address of a `NodeBase`. -/
def loadNext (m : Mem N K V) (p : Ptr N) : Option (Ptr N) :=
  if p.isBase then some (m.lruNext p) else none

/-- `p->lru_prev.load()`. -/
def loadPrev (m : Mem N K V) (p : Ptr N) : Option (Ptr N) :=
  if p.isBase then some (m.lruPrev p) else none

/-- The memory with `lru_next` of `p` set. -/
def setNext (m : Mem N K V) (p q : Ptr N) : Mem N K V :=
  { m with lruNext := Function.update m.lruNext p q }

/-- The memory with `lru_prev` of `p` set. -/
def setPrev (m : Mem N K V) (p q : Ptr N) : Mem N K V :=
  { m with lruPrev := Function.update m.lruPrev p q }

/-- `p->lru_next.store(q)`. -/
def storeNext (m : Mem N K V) (p q : Ptr N) : Option (Mem N K V) :=
  if p.isBase then some (m.setNext p q) else none

/-- `p->lru_prev.store(q)`. -/
def storePrev (m : Mem N K V) (p q : Ptr N) : Option (Mem N K V) :=
  if p.isBase then some (m.setPrev p q) else none

/-- The memory with `recent_next` of the node set. -/
def setRecent (m : Mem N K V) (n : Fin N) (q : Ptr N) : Mem N K V :=
  { m with recentNext := Function.update m.recentNext n q }

/-- The memory with `bucket_next` of the node set. -/
def setBucketNext (m : Mem N K V) (n : Fin N) (q : Option (Fin N)) : Mem N K V :=
  { m with bucketNext := Function.update m.bucketNext n q }

/-- The memory with the head of a bucket set. -/
def setBucket (m : Mem N K V) (b : ℕ) (q : Option (Fin N)) : Mem N K V :=
  { m with buckets := Function.update m.buckets b q }

/-- The memory with the key of the node set. -/
def setKey (m : Mem N K V) (n : Fin N) (k : K) : Mem N K V :=
  { m with key := Function.update m.key n k }

/-- The memory with the value of the node set. -/
def setValue (m : Mem N K V) (n : Fin N) (v : V) : Mem N K V :=
  { m with value := Function.update m.value n v }

/-- `markedRecent(n)`. -/
def markedRecent (m : Mem N K V) (n : Fin N) : Bool := m.recentNext n ≠ .null

end Mem

/-- The state `allocateMemory` leaves behind: every node in the pool, in index order, and empty LRU,
    Recent and bucket lists. `new Node[...]` default-initialises keys and values. -/
def allocateMemory (N : ℕ) (K V : Type) [Inhabited K] [Inhabited V] : Mem N K V where
  lruNext
    | .lruHead => .lruTail
    | .node i => if h : i.val + 1 < N then .node ⟨i.val + 1, h⟩ else .null
    | _ => .null
  lruPrev
    | .lruTail => .lruHead
    | _ => .null
  recentNext _ := .null
  bucketNext _ := none
  key _ := default
  value _ := default
  buckets _ := none
  emptyHead := if h : 0 < N then .node ⟨0, h⟩ else .null
  recentHead := .dummy
  recentCount := 0
  currentElementCount := 0
  pullRequest := false
  purgeRequest := false

end DeferredLru
