import DeferredLru.Deferred.Allocation
import DeferredLru.Lru.Code
import Mathlib.Algebra.BigOperators.Group.Finset.Piecewise
import Mathlib.Algebra.BigOperators.Intervals

set_option autoImplicit false

/-! # `BucketedAdapter`

The adapter of `benchmark/src/containers/bucketed_adapter.h` spreads the keys over `2^k` caches by a
fold of their hashes, and its capacity evenly over the caches; what is left of the capacity goes to
the first one. So a cache may get no element at all, in which case its `allocateMemory` does nothing.

The load factor of the benchmark's caches is a `double`, and so is what they compute from it. -/

namespace DeferredLru

open Rounding

/-- The template arguments of an adapter and of the caches behind it. -/
structure BucketedAdapter (K : Type) where
  logBucketCount : ℕ
  hasher : K → ℕ
  hashTableLoadFactor : ℕ
  sizeofNode : ℕ
  logBucketCount_le : logBucketCount ≤ 16
  loadFactor_pos : 1 ≤ hashTableLoadFactor
  loadFactor_lt : hashTableLoadFactor < 2 ^ 31
  /-- A node has four links of eight bytes. -/
  sizeofNode_ge : 32 ≤ sizeofNode
  sizeofNode_lt : sizeofNode < 2 ^ 64

namespace BucketedAdapter

variable {K V : Type} (a : BucketedAdapter K)

/-! ## Capacities and routes -/

/-- `bucketCount`. -/
def bucketCount : ℕ := 2 ^ a.logBucketCount

/-- The capacity that `allocateMemory` passes to `containers_[i]`. -/
def shardCapacity (capacity i : ℕ) : ℕ :=
  capacity / a.bucketCount + if i = 0 then capacity % a.bucketCount else 0

/-- `d[i]`, of the four 16-bit parts of a hash. -/
def hashPart (hash i : ℕ) : ℕ := (hash >>> (16 * i)) % 2 ^ 16

/-- `getBucketNr`. -/
def getBucketNr (hash : ℕ) : ℕ :=
  [1, 2, 3].foldl (fun d i => d ^^^ hashPart hash i) (hashPart hash 0) &&& (a.bucketCount - 1)

/-- The index of the cache that gets the calls for this key. -/
def route (k : K) : ℕ := a.getBucketNr (a.hasher k)

theorem bucketCount_pos : 0 < a.bucketCount := Nat.two_pow_pos _

/-- The caches get the whole capacity. -/
theorem sum_shardCapacity (capacity : ℕ) :
    ∑ i ∈ Finset.range a.bucketCount, a.shardCapacity capacity i = capacity := by
  have hfirst : 0 ∈ Finset.range a.bucketCount := Finset.mem_range.2 a.bucketCount_pos
  simp only [shardCapacity, Finset.sum_add_distrib, Finset.sum_const, Finset.card_range, nsmul_eq_mul,
    Nat.cast_id, Finset.sum_ite_eq', if_pos hfirst]
  exact Nat.div_add_mod capacity a.bucketCount

/-- No cache gets less than this many elements if and only if the capacity is this multiple of the
    number of caches. -/
theorem forall_le_shardCapacity {capacity c : ℕ} :
    (∀ i < a.bucketCount, c ≤ a.shardCapacity capacity i) ↔ c * a.bucketCount ≤ capacity := by
  rw [← Nat.le_div_iff_mul_le a.bucketCount_pos]
  constructor
  · intro h
    rcases Nat.lt_or_ge 1 a.bucketCount with hmany | hone
    · exact (h 1 hmany).trans_eq (by simp [shardCapacity])
    · -- a single cache gets everything, and nothing is left
      have hsingle : a.bucketCount = 1 := le_antisymm hone a.bucketCount_pos
      exact (h 0 a.bucketCount_pos).trans_eq (by simp [shardCapacity, hsingle, Nat.mod_one])
  · exact fun h i _ => h.trans (Nat.le_add_right _ _)

theorem getBucketNr_lt (hash : ℕ) : a.getBucketNr hash < a.bucketCount := by
  have hmask := Nat.and_le_right (n := [1, 2, 3].foldl (fun d i => d ^^^ hashPart hash i)
    (hashPart hash 0)) (m := a.bucketCount - 1)
  exact lt_of_le_of_lt hmask (Nat.sub_lt a.bucketCount_pos Nat.one_pos)

theorem route_lt (k : K) : a.route k < a.bucketCount := a.getBucketNr_lt _

/-- Every cache is the one of some hash. -/
theorem getBucketNr_of_lt {i : ℕ} (h : i < a.bucketCount) : a.getBucketNr i = i := by
  have hshort : i < 2 ^ 16 :=
    lt_of_lt_of_le h (Nat.pow_le_pow_right Nat.two_pos a.logBucketCount_le)
  have hlow : hashPart i 0 = i := Nat.mod_eq_of_lt (by simpa using hshort)
  have hhigh : ∀ j, 1 ≤ j → hashPart i j = 0 := fun j hj => by
    have hpow : 2 ^ 16 ≤ 2 ^ (16 * j) := Nat.pow_le_pow_right Nat.two_pos (by omega)
    rw [hashPart, Nat.shiftRight_eq_div_pow, Nat.div_eq_of_lt (hshort.trans_le hpow), Nat.zero_mod]
  simp only [getBucketNr, List.foldl, hlow, hhigh 1 le_rfl, hhigh 2 (by decide), hhigh 3 (by decide),
    Nat.xor_zero]
  rw [bucketCount, Nat.and_two_pow_sub_one_eq_mod]
  exact Nat.mod_eq_of_lt h

/-- The adapter with another hash function. -/
def withHasher (hasher : K → ℕ) : BucketedAdapter K := { a with hasher := hasher }

theorem exists_route_eq {i : ℕ} (h : i < a.bucketCount) :
    ∃ hasher, ∀ k, (a.withHasher hasher).route k = i :=
  ⟨fun _ => i, fun _ => a.getBucketNr_of_lt h⟩

/-! ## `LRUCache` behind the adapter -/

/-- `bucket_count_` of an `LRUCache` with this capacity, if its `allocateMemory` sets it. -/
def lruBucketCount (capacity : ℕ) : Option ℕ :=
  if capacity = 0 then none else some ⌊double (double capacity / a.hashTableLoadFactor)⌋₊

/-- `whichBucket` of that cache, before it is narrowed to an `int`. -/
def lruWhichBucket (capacity : ℕ) (k : K) : Option ℕ := do
  let bucketCount ← a.lruBucketCount capacity
  keyToBucketNr bucketCount (a.hasher k)

/-- In all practical sizes this is the `whichBucket` of `Lru/Code.lean`. -/
theorem lruWhichBucket_eq {capacity : ℕ} (hpos : capacity ≠ 0) (hlt : capacity < 2 ^ 53)
    (enableDebug : Bool) (k : K) :
    (a.lruWhichBucket capacity k).map Intrusive.toIndex = LruCache.Arguments.whichBucket
      (⟨a.hasher, 0, a.hashTableLoadFactor, enableDebug, a.loadFactor_pos⟩ :
        LruCache.Arguments capacity K) k := by
  have hcount : ⌊double (double capacity / a.hashTableLoadFactor)⌋₊ =
      capacity / a.hashTableLoadFactor := by
    rw [double_natCast hlt, double, floor_roundTo_div (by decide) hlt a.loadFactor_pos]
  rw [lruWhichBucket, lruBucketCount, if_neg hpos, hcount]
  exact apply_ite (Option.map Intrusive.toIndex) ..

/-- An `LRUCache` with this capacity has a bucket for every key that cache `i` may be asked for. -/
def LruServes (capacity i : ℕ) : Prop :=
  ∀ k, a.route k = i → ∃ b, a.lruWhichBucket capacity k = some b

theorem lruBucketCount_pos_iff {capacity : ℕ} :
    0 < ⌊double (double capacity / a.hashTableLoadFactor)⌋₊ ↔ a.hashTableLoadFactor ≤ capacity := by
  have hpos := a.loadFactor_pos
  have hlt := a.loadFactor_lt
  have hfactor : (0 : ℚ) < a.hashTableLoadFactor := by exact_mod_cast hpos
  constructor
  · -- below the load factor nothing is rounded before the division, and not enough after it
    refine fun h => not_lt.1 fun hfew => ?_
    rw [double_natCast (by omega), double, floor_roundTo_div (by decide) (by omega) hpos,
      Nat.div_eq_of_lt hfew] at h
    exact Nat.lt_irrefl 0 h
  · intro h
    have hcapacity : (a.hashTableLoadFactor : ℚ) ≤ double capacity :=
      natCast_le_double (by omega) (by exact_mod_cast h)
    refine le_floor_double (by decide) ?_
    rw [Nat.cast_one, one_le_div hfactor]
    exact hcapacity

/-- **When an `LRUCache` behind the adapter finds its buckets**: when it has at least as many elements
    as the load factor. -/
theorem lruServes_iff {capacity : ℕ} (k : K) :
    a.LruServes capacity (a.route k) ↔ a.hashTableLoadFactor ≤ capacity := by
  have hpos := a.loadFactor_pos
  rw [← a.lruBucketCount_pos_iff]
  constructor
  · intro h
    obtain ⟨b, hb⟩ := h k rfl
    refine Nat.pos_of_ne_zero fun hzero => ?_
    unfold lruWhichBucket lruBucketCount at hb
    split at hb
    case isTrue => cases hb
    case isFalse =>
      rw [hzero] at hb
      cases hb
  · intro h k' _
    have hcapacity : capacity ≠ 0 := by
      have := a.lruBucketCount_pos_iff.1 h
      omega
    refine ⟨a.hasher k' % ⌊double (double capacity / a.hashTableLoadFactor)⌋₊, ?_⟩
    rw [lruWhichBucket, lruBucketCount, if_neg hcapacity]
    exact if_neg h.ne'

/-- **The capacities with which an `LRUCache` behind the adapter always finds its buckets.** -/
theorem lruServes_all_iff [Inhabited K] {capacity : ℕ} :
    (∀ hasher k, (a.withHasher hasher).LruServes
      (a.shardCapacity capacity ((a.withHasher hasher).route k)) ((a.withHasher hasher).route k)) ↔
      a.hashTableLoadFactor * a.bucketCount ≤ capacity := by
  rw [← a.forall_le_shardCapacity]
  constructor
  · intro h i hi
    obtain ⟨hasher, hroute⟩ := a.exists_route_eq hi
    have hserves := ((a.withHasher hasher).lruServes_iff default).1 (h hasher default)
    rwa [hroute] at hserves
  · exact fun h hasher k => ((a.withHasher hasher).lruServes_iff k).2
      (h _ ((a.withHasher hasher).route_lt k))

/-! ## `DeferredLRU` behind the adapter -/

/-- `getBucketCountForCapacity`, with the load factor a `double`. -/
def getBucketCountForCapacity (capacity : ℕ) : ℕ :=
  ⌊double (double ⌊double (double (double capacity + a.hashTableLoadFactor) - 1)⌋₊
    / a.hashTableLoadFactor)⌋₊

/-- The default `pull_threshold_factor` and `purge_threshold_factor`. -/
def thresholdFactor : ℚ := double (1 / 10)

/-- `allocateMemory` of a `DeferredLRU` with this item capacity and the default factors. -/
def allocateShard [Inhabited K] [Inhabited V] (capacity : ℕ) : Initialised capacity K V :=
  if capacity = 0 then .late
  else initialise capacity (a.getBucketCountForCapacity capacity) a.sizeofNode
    (threshold thresholdFactor capacity) (threshold thresholdFactor capacity)

/-- In all practical sizes this is the count of `getBucketCountForCapacity` in integers. -/
theorem getBucketCountForCapacity_eq {capacity : ℕ}
    (h : capacity + a.hashTableLoadFactor < 2 ^ 53) : a.getBucketCountForCapacity capacity =
      (capacity + a.hashTableLoadFactor - 1) / a.hashTableLoadFactor := by
  have hpos := a.loadFactor_pos
  have hsum : double (double capacity + a.hashTableLoadFactor) =
      (capacity + a.hashTableLoadFactor : ℕ) := by
    rw [double_natCast (by omega), ← Nat.cast_add, double_natCast h]
  have hpred : double (double (double capacity + a.hashTableLoadFactor) - 1) =
      (capacity + a.hashTableLoadFactor - 1 : ℕ) := by
    rw [hsum, ← Nat.cast_one, ← Nat.cast_sub (by omega), double_natCast (by omega)]
  rw [getBucketCountForCapacity, hpred, Nat.floor_natCast, double_natCast (by omega), double,
    floor_roundTo_div (by decide) (by omega) hpos]

/-- A cache with an element has a bucket, however the sizes are rounded. -/
theorem getBucketCountForCapacity_pos {capacity : ℕ} (h : 1 ≤ capacity) :
    1 ≤ a.getBucketCountForCapacity capacity := by
  have hpos := a.loadFactor_pos
  have hlt := a.loadFactor_lt
  have hone : ((1 : ℕ) : ℚ) ≤ double capacity := natCast_le_double (by decide) (by exact_mod_cast h)
  have hsum : ((1 + a.hashTableLoadFactor : ℕ) : ℚ) ≤
      double (double capacity + a.hashTableLoadFactor) :=
    natCast_le_double (by omega) (by push_cast at hone ⊢; linarith)
  have hpred : a.hashTableLoadFactor ≤
      ⌊double (double (double capacity + a.hashTableLoadFactor) - 1)⌋₊ :=
    le_floor_double (by omega) (by push_cast at hsum; linarith)
  have hlast : (a.hashTableLoadFactor : ℚ) ≤
      double ⌊double (double (double capacity + a.hashTableLoadFactor) - 1)⌋₊ :=
    natCast_le_double (by omega) (by exact_mod_cast hpred)
  refine le_floor_double (by decide) ?_
  rw [Nat.cast_one, one_le_div (by exact_mod_cast hpos)]
  exact hlast

/-- A tenth of two or more elements, rounded, is below their number. -/
theorem threshold_lt {capacity : ℕ} (h : 2 ≤ capacity) :
    threshold thresholdFactor capacity < capacity := by
  have hfactor : thresholdFactor ≤ 2 * (1 / 10) := roundTo_le_two_mul (by norm_num)
  have hcapacity : double capacity ≤ 2 * capacity := roundTo_le_two_mul (Nat.cast_nonneg _)
  have hnonneg : 0 ≤ double (capacity : ℚ) := roundTo_nonneg (Nat.cast_nonneg _)
  have hfactorpos : 0 ≤ thresholdFactor := roundTo_nonneg (by norm_num)
  have hpos : (0 : ℚ) < capacity := by exact_mod_cast (by omega : 0 < capacity)
  have hproduct : double (thresholdFactor * double capacity) < capacity := by
    calc double (thresholdFactor * double capacity)
        ≤ 2 * (thresholdFactor * double capacity) :=
          roundTo_le_two_mul (mul_nonneg hfactorpos hnonneg)
      _ ≤ 2 * (2 * (1 / 10) * (2 * capacity)) := by gcongr
      _ < capacity := by linarith
  refine max_lt ((Nat.floor_lt (roundTo_nonneg (mul_nonneg hfactorpos hnonneg))).2 hproduct) h

/-- A call that the adapter passes on to cache `i`. -/
def RoutedTo (i : ℕ) : Op K V → Prop
  | .consumeCachedOrCompute k _ => a.route k = i
  | _ => False

variable {a}

theorem RoutedTo.key_eq {i : ℕ} {op : Op K V} {k : K} (h : a.RoutedTo i op)
    (hone : ∀ k', a.route k' = i → k' = k) : ∃ x, op = .consumeCachedOrCompute k x := by
  cases op with
  | find => exact h.elim
  | insert => exact h.elim
  | consumeCachedOrCompute k' x => exact ⟨x, by rw [hone k' h]⟩

end BucketedAdapter

end DeferredLru
