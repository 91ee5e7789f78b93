import DeferredLru.Bucketed.Adapter
import DeferredLru.Lru.Release

set_option autoImplicit false

/-! # `BucketedLRU`

The adapter over caches of type `LRUCache`. Each key is served by one cache, so the adapter is a family
of textbook caches that do not know of each other: each serves the requests routed to it, in their
order, with its own part of the capacity, and evicts by their recency only (`exec_shards`). No pair is
lost between the caches: those the calls hand to `onDelete`, together with those `releaseMemory` hands to
it cache by cache, are the pairs inserted. -/

namespace DeferredLru

open Recency

/-- A `BucketedLRU` with a capacity that suffices for all of its caches. -/
structure BucketedLRU (K : Type) extends BucketedAdapter K where
  capacity : ℕ
  enableDebug : Bool
  two_le : 2 * toBucketedAdapter.bucketCount ≤ capacity
  loadFactor_le : hashTableLoadFactor * toBucketedAdapter.bucketCount ≤ capacity
  /-- An `int` can count the elements of each cache. -/
  shardCapacity_lt : ∀ i < toBucketedAdapter.bucketCount,
    toBucketedAdapter.shardCapacity capacity i < 2 ^ 31

namespace BucketedLRU

variable {K V : Type} (b : BucketedLRU K)

/-- The capacity of a cache. -/
def shardCapacity (i : Fin b.bucketCount) : ℕ := b.toBucketedAdapter.shardCapacity b.capacity i

/-- The arguments of a cache. -/
def shard (i : Fin b.bucketCount) : LruCache.Config (b.shardCapacity i) K where
  hasher := b.hasher
  ignoreBitsInHash := 0
  hashTableLoadFactor := b.hashTableLoadFactor
  enableDebug := b.enableDebug
  loadFactor_pos := b.loadFactor_pos
  two_le := b.forall_le_shardCapacity.2 b.two_le i i.isLt
  loadFactor_le := b.forall_le_shardCapacity.2 b.loadFactor_le i i.isLt
  capacity_lt := b.shardCapacity_lt i i.isLt

theorem shardCapacity_le (i : Fin b.bucketCount) : b.shardCapacity i ≤ b.capacity := by
  have hsum := b.sum_shardCapacity b.capacity
  rw [← hsum]
  exact Finset.single_le_sum (fun _ _ => Nat.zero_le _) (Finset.mem_range.2 i.isLt)

/-- The buckets of the caches are those the adapter's theory of their `double` sizes computes. -/
theorem whichBucket_shard (i : Fin b.bucketCount) (k : K) :
    (b.lruWhichBucket (b.shardCapacity i) k).map Intrusive.toIndex =
      some ((b.shard i).whichBucket k : ℤ) := by
  have htwo := (b.shard i).two_le
  have hlt := (b.shard i).capacity_lt
  rw [b.lruWhichBucket_eq (by omega) (by omega) b.enableDebug]
  exact (b.shard i).whichBucket_eq k

/-- `containers_`. -/
def State (V : Type) : Type := ∀ i : Fin b.bucketCount, LruCache.State (b.shardCapacity i) K V

/-- The cache that gets the request. -/
def routeOf (request : K × V) : Fin b.bucketCount := ⟨b.route request.1, b.route_lt request.1⟩

variable [DecidableEq K]

/-- `containers_[i].consumeCachedOrCompute`, for a key and the value its producer returns. -/
def consumeShard (fuel : ℕ) (i : Fin b.bucketCount) (s : LruCache.State (b.shardCapacity i) K V)
    (request : K × V) : Option (Served K V × LruCache.State (b.shardCapacity i) K V) := do
  let (hit, delivered, s, events) ←
    LruCache.consumeCachedOrCompute (b.shard i) fuel s request.1 request.2
  some (⟨hit, delivered, LruCache.deletions events⟩, s)

/-- `consumeCachedOrCompute`. -/
def consumeCachedOrCompute (fuel : ℕ) : b.State V → K × V → Option (Served K V × b.State V) :=
  Shards.call (b.consumeShard fuel) b.routeOf

/-- `allocateMemory`. -/
def allocateMemory [Inhabited K] [Inhabited V] : b.State V := fun i =>
  LruCache.initialState (b.shardCapacity i) K V

omit [DecidableEq K] in
/-- It is the `allocateMemory` of each cache. -/
theorem allocateMemory_shard [Inhabited K] [Inhabited V] (i : Fin b.bucketCount) :
    LruCache.allocateMemory (b.shard i) =
      some ((b.allocateMemory : b.State V) i, LruCache.checked (b.shard i) true) :=
  LruCache.allocateMemory_eq (b.shard i)

/-- `releaseMemory`, of caches that all have their storage. -/
def releaseMemory (fuel : ℕ) (s : b.State V) : Option (List (K × V)) := do
  let deleted ← (List.finRange b.bucketCount).mapM fun i => LruCache.releaseMemory fuel (s i) true
  some (deleted.flatMap Prod.fst)

/-! ## The family of textbook caches -/

variable [DecidableEq V] {fuel : ℕ}

/-- A memoized call of the textbook cache with the capacity of cache `i`. -/
def textbookShard (i : Fin b.bucketCount) (c : Cache K V) (request : K × V) :
    Option (Served K V × Cache K V) :=
  some (c.consume (b.shardCapacity i) request.1 request.2)

theorem serve_textbookShard (i : Fin b.bucketCount) (c : Cache K V) (requests : List (K × V)) :
    ∃ c', Shards.serve (b.textbookShard i) c requests =
      some (c.serve (b.shardCapacity i) requests, c') := by
  induction requests generalizing c with
  | nil => exact ⟨c, rfl⟩
  | cons request requests ih =>
      obtain ⟨c', hserve⟩ := ih (c.consume (b.shardCapacity i) request.1 request.2).2
      exact ⟨c', Shards.serve_cons.2 ⟨_, _, _, rfl, hserve, rfl⟩⟩

theorem textbookShard_balanced (i : Fin b.bucketCount) :
    Shards.Balanced (b.textbookShard i) (fun c : Cache K V => c.order.map Recency.Entry.pair)
      Cache.made Served.deleted := by
  intro c request served c' h
  have heq := Option.some.inj h
  obtain rfl : (c.consume (b.shardCapacity i) request.1 request.2).1 = served := congrArg Prod.fst heq
  obtain rfl : (c.consume (b.shardCapacity i) request.1 request.2).2 = c' := congrArg Prod.snd heq
  exact c.consume_pairs (b.shardCapacity i) request.1 request.2

/-- A cache does what its textbook cache does. -/
theorem consumeShard_represents (hfuel : b.capacity < fuel) (i : Fin b.bucketCount)
    (s : LruCache.State (b.shardCapacity i) K V) (c : Cache K V) (request : K × V)
    (served : Served K V) (c' : Cache K V) (h : LruCache.Represents (b.shard i) s c)
    (hspec : b.textbookShard i c request = some (served, c')) :
    ∃ s', b.consumeShard fuel i s request = some (served, s') ∧
      LruCache.Represents (b.shard i) s' c' := by
  have heq := Option.some.inj hspec
  have hle := b.shardCapacity_le i
  obtain ⟨s', events, hrun, hrep, hdeleted⟩ :=
    LruCache.consumeCachedOrCompute_represents h (by omega : b.shardCapacity i < fuel) request.1 request.2
  rw [heq] at hrun hrep hdeleted
  refine ⟨s', ?_, hrep⟩
  rw [consumeShard, hrun]
  simp [hdeleted]

/-- **The adapter is a family of textbook caches.** Whatever the requests, all are served; those routed
    to a cache are answered as by a textbook cache with the capacity of this one, which is asked nothing
    else; and the pairs that evictions and a final `releaseMemory` hand to `onDelete` are the pairs
    inserted. -/
theorem exec_shards [Inhabited K] [Inhabited V] (hfuel : b.capacity < fuel)
    (requests : List (K × V)) :
    ∃ served s, Shards.serve (b.consumeCachedOrCompute fuel) b.allocateMemory requests =
        some (served, s) ∧
      (∀ i, Shards.answersOf b.routeOf i requests served =
        (Cache.empty : Cache K V).serve (b.shardCapacity i)
          (requests.filter fun request => b.routeOf request = i)) ∧
      ∃ released, b.releaseMemory fuel s = some released ∧
        (served.flatMap Served.deleted ++ released).Perm
          ((requests.zip served).flatMap fun p => Cache.made p.1 p.2) := by
  have hserves : ∀ i : Fin b.bucketCount, (Shards.serve (b.textbookShard i) (Cache.empty : Cache K V)
      (requests.filter fun request => b.routeOf request = i)).isSome = true := by
    intro i
    obtain ⟨c', hc'⟩ := b.serve_textbookShard i Cache.empty
      (requests.filter fun request => b.routeOf request = i)
    rw [hc']
    rfl
  obtain ⟨served, caches, hspec⟩ := Shards.serve_call_iff.2 hserves
  have hsimulates : ∀ (s : b.State V) (caches : Fin b.bucketCount → Cache K V) (request : K × V)
      (a : Served K V) (caches' : Fin b.bucketCount → Cache K V),
      (∀ i, LruCache.Represents (b.shard i) (s i) (caches i)) →
      Shards.call b.textbookShard b.routeOf caches request = some (a, caches') →
      ∃ s', b.consumeCachedOrCompute fuel s request = some (a, s') ∧
        ∀ i, LruCache.Represents (b.shard i) (s' i) (caches' i) := fun _ _ _ _ _ h hcall =>
    Shards.call_simulates (b.consumeShard_represents hfuel) h hcall
  obtain ⟨s, hrun, hrep⟩ := Shards.serve_simulates hsimulates
    (fun i => LruCache.initialState_represents (b.shard i)) hspec
  have hreleased : ((List.finRange b.bucketCount).mapM fun i =>
      LruCache.releaseMemory fuel (s i) true) = some ((List.finRange b.bucketCount).map fun i =>
        ((caches i).order.map Recency.Entry.pair, false)) := by
    have hone : (fun i => LruCache.releaseMemory fuel (s i) true) = fun i =>
        pure ((caches i).order.map Recency.Entry.pair, false) := by
      funext i
      have hle := b.shardCapacity_le i
      exact (hrep i).releaseMemory (by omega)
    rw [hone, List.mapM_pure]
    rfl
  have hbalanced : Shards.Balanced (Shards.call b.textbookShard b.routeOf)
      (fun caches : Fin b.bucketCount → Cache K V => (List.finRange b.bucketCount).flatMap fun i =>
        (caches i).order.map Recency.Entry.pair) Cache.made Served.deleted :=
    Shards.Balanced.call b.textbookShard_balanced (List.nodup_finRange _) List.mem_finRange
  have hbalance := hbalanced.serve hspec
  have hempty : ((List.finRange b.bucketCount).flatMap fun _ =>
      (Cache.empty : Cache K V).order.map Recency.Entry.pair) = [] :=
    List.flatMap_eq_nil_iff.2 fun _ _ => rfl
  rw [hempty, List.nil_append] at hbalance
  refine ⟨served, s, hrun, fun i => ?_, _, ?_, hbalance⟩
  · obtain ⟨c', hc'⟩ := b.serve_textbookShard i Cache.empty
      (requests.filter fun request => b.routeOf request = i)
    have hshard := Shards.serve_shard hspec i
    rw [hc'] at hshard
    exact (congrArg Prod.fst (Option.some.inj hshard)).symm
  · rw [releaseMemory, hreleased]
    simp [List.flatMap_map]

/-- Six elements in two caches. -/
def twoShards : BucketedLRU ℕ where
  logBucketCount := 1
  hasher := id
  hashTableLoadFactor := 3
  sizeofNode := 56
  logBucketCount_le := by decide
  loadFactor_pos := Nat.succ_pos 2
  loadFactor_lt := by decide
  sizeofNode_ge := by decide
  sizeofNode_lt := by decide
  capacity := 6
  enableDebug := true
  two_le := by decide
  loadFactor_le := by decide
  shardCapacity_lt := by decide

/-- The even keys fill their cache, and the odd one does not. -/
theorem exec_shards_twoShards : ∃ served s,
    Shards.serve (twoShards.consumeCachedOrCompute 7) (twoShards.allocateMemory : twoShards.State ℕ)
        [(0, 10), (2, 12), (1, 11), (0, 20), (4, 14), (6, 16)] = some (served, s) ∧
      (∀ i, Shards.answersOf twoShards.routeOf i [(0, 10), (2, 12), (1, 11), (0, 20), (4, 14), (6, 16)] served =
        (Cache.empty : Cache ℕ ℕ).serve (twoShards.shardCapacity i)
          ([(0, 10), (2, 12), (1, 11), (0, 20), (4, 14), (6, 16)].filter fun request =>
            twoShards.routeOf request = i)) ∧
      ∃ released, twoShards.releaseMemory 7 s = some released ∧
        (served.flatMap Served.deleted ++ released).Perm
          (([(0, 10), (2, 12), (1, 11), (0, 20), (4, 14), (6, 16)].zip served).flatMap fun p =>
            Cache.made p.1 p.2) :=
  twoShards.exec_shards (by decide) _

end BucketedLRU

end DeferredLru
