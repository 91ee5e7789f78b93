import DeferredLru.Deferred.LruList
import Mathlib.Data.Fintype.Card
import Mathlib.Data.Option.Basic

set_option autoImplicit false

/-! # The lists a `DeferredLRU` stands for

`Lists` is the abstract state of the cache: the LRU list (most recent first), the Recent list (newest
mark first), the pool and the bucket chains, as plain lists of nodes. `Lists.pull`, `Lists.purge`,
`Lists.mark`, `Lists.allocate` and `Lists.link` say what the operations mean on them.

`Links cfg m a` says that the linked memory `m` represents `a`. It does not say that every node is in
one of the lists, nor what the counters are: `insert` takes a node out of the pool and counts it
long before it links it. `Rep` adds both, and is what holds between operations. -/

namespace DeferredLru

open Intrusive

variable {N : ℕ} {K V : Type}

/-- The abstract state: the nodes of each list. -/
structure Lists (N : ℕ) where
  lru : List (Fin N)
  recent : List (Fin N)
  pool : List (Fin N)
  bucket : ℕ → List (Fin N)

namespace Lists

/-- The front node, which neither a pull nor a purge moves. -/
def isFront (a : Lists N) (n : Fin N) : Bool := a.lru.head? = some n

/-- Mark a node recent, unless it is marked. -/
def mark (a : Lists N) (n : Fin N) : Lists N :=
  if n ∈ a.recent then a else { a with recent := n :: a.recent }

/-- Move the marked nodes, except the front one, before the others and unmark them all. -/
def pull (a : Lists N) : Lists N :=
  { a with
    lru := a.recent.filter (fun n => !a.isFront n) ++
      a.lru.filter (fun n => n ∉ a.recent || a.isFront n)
    recent := [] }

/-- The unmarked nodes behind the front one, last first: what a purge may evict. -/
def evictable (a : Lists N) : List (Fin N) := a.lru.tail.reverse.filter (fun n => n ∉ a.recent)

/-- Evict the given nodes, in this order. -/
def evict (a : Lists N) (victims : List (Fin N)) : Lists N :=
  { a with
    lru := a.lru.filter (fun n => n ∉ victims)
    pool := victims.reverse ++ a.pool
    bucket := fun b => (a.bucket b).filter (fun n => n ∉ victims) }

/-- Evict the `required` evictable nodes nearest to the tail. -/
def purge (a : Lists N) (required : ℕ) : Lists N := a.evict (a.evictable.take required)

/-- Link a node that is in no list at the LRU head and in the chain of its bucket. -/
def link (a : Lists N) (n : Fin N) (b : ℕ) : Lists N :=
  { a with
    lru := n :: a.lru
    bucket := Function.update a.bucket b (n :: a.bucket b) }

end Lists

/-- The victims among a prefix `l` of the LRU list: its unmarked nodes behind the front one, last
    first. -/
def victims (recent l : List (Fin N)) (required : ℕ) : List (Fin N) :=
  (l.tail.reverse.filter (fun n => n ∉ recent)).take required

/-- The memory `m` represents the lists `a`. -/
structure Links (cfg : Config N K) (m : Mem N K V) (a : Lists N) : Prop where
  lru : LruList m a.lru
  pool : Chain (fun n => m.lruNext (.node n)) .node m.emptyHead a.pool .null
  recent : Chain m.recentNext .node m.recentHead a.recent .dummy
  /-- `recent_next` doubles as the mark. -/
  marked : ∀ n, m.recentNext n ≠ .null ↔ n ∈ a.recent
  recent_sub : ∀ n ∈ a.recent, n ∈ a.lru
  pool_disjoint : ∀ n ∈ a.pool, n ∉ a.lru
  buckets : ∀ b, Chain m.bucketNext some (m.buckets b) (a.bucket b) none
  mem_bucket : ∀ b n, n ∈ a.bucket b ↔ n ∈ a.lru ∧ cfg.keyToBucketNr (m.key n) = b

/-- The memory `m` represents the lists `a` between two operations: no node is lost, the counters
    count and no request is pending. -/
structure Rep (cfg : Config N K) (m : Mem N K V) (a : Lists N) : Prop extends Links cfg m a where
  total : ∀ n, n ∈ a.pool ∨ n ∈ a.lru
  count : m.currentElementCount = a.lru.length
  recentCount : m.recentCount = a.recent.length
  belowThreshold : a.recent.length < cfg.pullThreshold
  noPull : m.pullRequest = false
  noPurge : m.purgeRequest = false

namespace Links

variable {cfg : Config N K} {m : Mem N K V} {a : Lists N}

theorem lru_nodup (h : Links cfg m a) : a.lru.Nodup := h.lru.nodup

theorem pool_nodup (h : Links cfg m a) : a.pool.Nodup :=
  Chain.nodup Ptr.node_injective (by simp) h.pool

theorem recent_nodup (h : Links cfg m a) : a.recent.Nodup :=
  Chain.nodup Ptr.node_injective (by simp) h.recent

theorem bucket_nodup (h : Links cfg m a) (b : ℕ) : (a.bucket b).Nodup :=
  Chain.nodup (Option.some_injective _) (by simp) (h.buckets b)

theorem markedRecent_iff (h : Links cfg m a) (n : Fin N) : m.markedRecent n = true ↔ n ∈ a.recent := by
  rw [← h.marked n]
  simp [Mem.markedRecent]

/-- Neither counters nor request flags are part of the lists. -/
theorem flags (h : Links cfg m a) (count recentCount : ℕ) (pull purge : Bool) :
    Links cfg { m with
      currentElementCount := count
      recentCount := recentCount
      pullRequest := pull
      purgeRequest := purge } a :=
  ⟨h.lru.congr (fun _ _ => rfl) (fun _ _ => rfl), h.pool, h.recent, h.marked, h.recent_sub,
    h.pool_disjoint, h.buckets, h.mem_bucket⟩

end Links

/-- A duplicate-free list of nodes has at most `N` of them. -/
theorem length_le_capacity {l : List (Fin N)} (h : l.Nodup) : l.length ≤ N := by
  simpa using h.length_le_card

end DeferredLru
