import DeferredLru.Deferred.Runs
import DeferredLru.Lib.Rounding
import DeferredLru.Threads.Machine

set_option autoImplicit false

/-! # `allocateMemory` of a `DeferredLRU`

`allocateMemory N K V` of `Memory.lean` is the state a cache starts in. Here is how the code gets
there: from a capacity in items or in bytes, in unsigned arithmetic modulo `2^64`, with a loop that
links the pool. The early return tests the requested capacity, not the number of elements derived from
it, so a byte capacity that does not hold one element reaches the loop with no element at all. -/

namespace DeferredLru

open Intrusive Rounding

variable {N : ℕ} {K V : Type}

/-! ## The pool -/

/-- `nodes_[i]`; there is nothing outside the array. -/
def nodeAt (N i : ℕ) : Option (Fin N) := if h : i < N then some ⟨i, h⟩ else none

/-- The loop that links the pool, with so many rounds to go. -/
def linkNodes : ℕ → ℕ → Mem N K V → Option (Mem N K V)
  | 0, _, m => some m
  | rounds + 1, i, m => do
      let node ← nodeAt N i
      let next ← nodeAt N (i + 1)
      linkNodes rounds (i + 1) (m.setNext (.node node) (.node next))

/-- `max_element_count_ - 1`, which wraps. -/
def lastIndex (N : ℕ) : ℕ := (N + (2 ^ 64 - 1)) % 2 ^ 64

/-- Put all nodes in the pool. -/
def linkPool (m : Mem N K V) : Option (Mem N K V) := do
  let first ← nodeAt N 0
  let m ← linkNodes (lastIndex N) 0 { m with emptyHead := .node first }
  let last ← nodeAt N (lastIndex N)
  some (m.setNext (.node last) .null)

/-- The memory before the pool is linked: new nodes, and the heads of the other lists. -/
def newNodes (N : ℕ) (K V : Type) [Inhabited K] [Inhabited V] : Mem N K V where
  lruNext
    | .lruHead => .lruTail
    | _ => .null
  lruPrev
    | .lruTail => .lruHead
    | _ => .null
  recentNext _ := .null
  bucketNext _ := none
  key _ := default
  value _ := default
  buckets _ := none
  emptyHead := .null
  recentHead := .dummy
  recentCount := 0
  currentElementCount := 0
  pullRequest := false
  purgeRequest := false

/-! ## The sizes -/

/-- A `size_t` or the exact result of an operation as a `double`. -/
def double (q : ℚ) : ℚ := roundTo 53 q

/-- `std::max<size_t>(size_t(factor * max_element_count_), 1)`. -/
def threshold (factor : ℚ) (n : ℕ) : ℕ := max ⌊double (factor * double n)⌋₊ 1

/-- `getBucketCountForCapacity`. -/
def getBucketCountForCapacity (hashtableLoadFactor capacity : ℕ) : ℕ :=
  ((capacity + hashtableLoadFactor) % 2 ^ 64 + (2 ^ 64 - 1)) % 2 ^ 64 / hashtableLoadFactor

/-- `keyToBucketNr` for this hash; there is no remainder of a division by zero. -/
def keyToBucketNr (bucketCount hash : ℕ) : Option ℕ :=
  if bucketCount = 0 then none else some (hash % bucketCount)

/-- `maxBucketLockSize`. -/
def maxBucketLockSize : ℕ := 2 ^ 15

/-- `bucket_nr & bucketLockIndexMask()`. -/
def bucketLockIndex (bucketNr : ℕ) : ℕ := bucketNr &&& (maxBucketLockSize - 1)

/-- The default `HashtableLoadFactor`. -/
def defaultLoadFactor : ℕ := 4

theorem defaultLoadFactor_pos : 1 ≤ defaultLoadFactor := by decide

/-- The arguments of the template and of `allocateMemory`. -/
structure Allocation (K : Type) where
  capacity : ℕ
  isItemCapacity : Bool
  pullThresholdFactor : ℚ
  purgeThresholdFactor : ℚ
  hasher : K → ℕ
  hashtableLoadFactor : ℕ
  sizeofNode : ℕ
  capacity_lt : capacity < 2 ^ 64
  loadFactor_pos : 1 ≤ hashtableLoadFactor
  loadFactor_lt : hashtableLoadFactor < 2 ^ 31
  /-- A node has four links of eight bytes. -/
  sizeofNode_ge : 32 ≤ sizeofNode
  sizeofNode_lt : sizeofNode < 2 ^ 64

/-- A bucket is one pointer. -/
def sizeofBucketHead : ℕ := 8

/-- How `allocateMemory` ends. -/
inductive Initialised (N : ℕ) (K V : Type) where
  /-- The capacity is zero and nothing was allocated. -/
  | late
  /-- An array was too large and its allocation threw. -/
  | thrown
  /-- `nodes_` was indexed outside the array. -/
  | outOfRange
  | cache (m : Mem N K V) (bucketCount lockCount pullThreshold purgeThreshold : ℕ)

/-- `allocateMemory` behind its early return, for these sizes. -/
def initialise [Inhabited K] [Inhabited V] (N bucketCount sizeofNode pullThreshold purgeThreshold : ℕ) :
    Initialised N K V :=
  if 2 ^ 64 ≤ bucketCount * sizeofBucketHead ∨ 2 ^ 64 ≤ N * sizeofNode then .thrown
  else match linkPool (newNodes N K V) with
    | none => .outOfRange
    | some m => .cache m bucketCount (min bucketCount maxBucketLockSize) pullThreshold purgeThreshold

namespace Allocation

variable (r : Allocation K)

/-- `elementSize`. -/
def elementSize : ℚ := r.sizeofNode + sizeofBucketHead / r.hashtableLoadFactor

/-- `maxElementCountForCapacity`. -/
def maxElementCountForCapacity (capacity : ℕ) : ℕ := ⌊capacity / r.elementSize⌋₊

/-- `max_element_count_`. -/
def maxElementCount : ℕ :=
  if r.isItemCapacity then r.capacity else r.maxElementCountForCapacity r.capacity

/-- `buckets_.size()`. -/
def bucketCount : ℕ := getBucketCountForCapacity r.hashtableLoadFactor r.maxElementCount

/-- `allocateMemory`. -/
def allocateMemory [Inhabited K] [Inhabited V] : Initialised r.maxElementCount K V :=
  if r.capacity = 0 then .late
  else initialise r.maxElementCount r.bucketCount r.sizeofNode
    (threshold r.pullThresholdFactor r.maxElementCount)
    (threshold r.purgeThresholdFactor r.maxElementCount)

end Allocation

/-! ## The pool is linked -/

theorem nodeAt_eq {i : ℕ} (h : i < N) : nodeAt N i = some ⟨i, h⟩ := dif_pos h

/-- Each round links one node to the next one. -/
theorem linkNodes_spec {rounds i : ℕ} {m : Mem N K V} (h : i + rounds < N) :
    ∃ m', linkNodes rounds i m = some m' ∧ m' = { m with lruNext := m'.lruNext } ∧
      (∀ p, (∀ n, p ≠ .node n) → m'.lruNext p = m.lruNext p) ∧
      ∀ n : Fin N, m'.lruNext (.node n) =
        if i ≤ n ∧ n < i + rounds then poolCell N (n + 1) else m.lruNext (.node n) := by
  induction rounds generalizing i m with
  | zero =>
      refine ⟨m, rfl, rfl, fun _ _ => rfl, fun n => (if_neg ?_).symm⟩
      omega
  | succ rounds ih =>
      obtain ⟨m', hrun, hm', hother, hnode⟩ := @ih (i + 1)
        (m.setNext (.node ⟨i, by omega⟩) (.node ⟨i + 1, by omega⟩)) (by omega)
      refine ⟨m', ?_, hm', fun p hp => ?_, fun n => ?_⟩
      · rw [linkNodes, nodeAt_eq (show i < N by omega), nodeAt_eq (show i + 1 < N by omega)]
        exact hrun
      · rw [hother p hp, Mem.setNext_lruNext, Function.update_of_ne (hp _)]
      · rw [hnode n]
        by_cases hn : n.val = i
        · have hcell : Ptr.node n = .node ⟨i, by omega⟩ := congrArg Ptr.node (Fin.ext hn)
          rw [if_neg (by omega), if_pos (by omega), hcell, Mem.setNext_lruNext, Function.update_self,
            poolCell, dif_pos (by omega)]
          simp only [hn]
        · have hcell : Ptr.node n ≠ .node ⟨i, by omega⟩ := fun heq =>
            hn (congrArg Fin.val (Ptr.node_injective heq))
          rw [Mem.setNext_lruNext, Function.update_of_ne hcell]
          exact if_congr (by omega) rfl rfl

theorem lastIndex_eq (hpos : 1 ≤ N) (hlt : N < 2 ^ 64) : lastIndex N = N - 1 := by
  unfold lastIndex
  omega

/-- The loop leaves the state every run starts in. -/
theorem linkPool_eq [Inhabited K] [Inhabited V] (hpos : 1 ≤ N) (hlt : N < 2 ^ 64) :
    linkPool (newNodes N K V) = some (allocateMemory N K V) := by
  have hlast : N - 1 < N := by omega
  obtain ⟨m, hrun, hm, hother, hnode⟩ := @linkNodes_spec N K V (N - 1) 0
    { newNodes N K V with emptyHead := .node ⟨0, hpos⟩ } (by omega)
  have hnext : Function.update m.lruNext (.node ⟨N - 1, hlast⟩) .null =
      (allocateMemory N K V).lruNext := by
    funext p
    cases p with
    | node n =>
        have hcell : (allocateMemory N K V).lruNext (.node n) = poolCell N (n + 1) := rfl
        by_cases hn : n.val = N - 1
        · have hlastnode : n = ⟨N - 1, hlast⟩ := Fin.ext hn
          have hend : ¬ N - 1 + 1 < N := by omega
          rw [hcell, hlastnode, Function.update_self]
          show Ptr.null = poolCell N (N - 1 + 1)
          rw [poolCell, dif_neg hend]
        · have hlastnode : Ptr.node n ≠ .node ⟨N - 1, hlast⟩ := fun heq =>
            hn (congrArg Fin.val (Ptr.node_injective heq))
          rw [Function.update_of_ne hlastnode, hnode n, if_pos (by omega), hcell]
    | _ => exact (Function.update_of_ne (by simp) _ _).trans (hother _ (by simp))
  have hfirst : (allocateMemory N K V).emptyHead = .node ⟨0, hpos⟩ := dif_pos hpos
  rw [linkPool, nodeAt_eq (show 0 < N from hpos), lastIndex_eq hpos hlt, nodeAt_eq hlast]
  simp only [Option.bind_eq_bind, Option.bind_some, hrun]
  rw [hm, Mem.setNext, hnext]
  exact congrArg some (by rw [← hfirst]; rfl)

/-! ## The sizes fit together -/

theorem double_natCast {n : ℕ} (h : n < 2 ^ 53) : double n = n := roundTo_natCast (by decide) h

theorem natCast_le_double {n : ℕ} {q : ℚ} (hn : n ≤ 2 ^ 53) (h : (n : ℚ) ≤ q) : (n : ℚ) ≤ double q :=
  natCast_le_roundTo (by decide) hn h

theorem le_floor_double {n : ℕ} {q : ℚ} (hn : n ≤ 2 ^ 53) (h : (n : ℚ) ≤ q) : n ≤ ⌊double q⌋₊ :=
  Nat.le_floor (natCast_le_double hn h)

theorem getBucketCountForCapacity_eq {hashtableLoadFactor n : ℕ} (hpos : 1 ≤ hashtableLoadFactor)
    (hlt : n + hashtableLoadFactor < 2 ^ 64) :
    getBucketCountForCapacity hashtableLoadFactor n =
      (n + hashtableLoadFactor - 1) / hashtableLoadFactor := by
  have hwrap : ((n + hashtableLoadFactor) % 2 ^ 64 + (2 ^ 64 - 1)) % 2 ^ 64 =
      n + hashtableLoadFactor - 1 := by omega
  rw [getBucketCountForCapacity, hwrap]

theorem bucketLockIndex_eq (bucketNr : ℕ) : bucketLockIndex bucketNr = Threads.lockIndex bucketNr :=
  Nat.and_two_pow_sub_one_eq_mod bucketNr 15

/-- A bucket has a lock, whether or not there are more buckets than locks. -/
theorem bucketLockIndex_lt {bucketNr bucketCount : ℕ} (h : bucketNr < bucketCount) :
    bucketLockIndex bucketNr < min bucketCount maxBucketLockSize := by
  rw [bucketLockIndex_eq, Threads.lockIndex, maxBucketLockSize]
  have hlock := Nat.mod_lt bucketNr (Nat.two_pow_pos 15)
  have hle := Nat.mod_le bucketNr (2 ^ 15)
  omega

section Initialise

variable {bucketCount sizeofNode pullThreshold purgeThreshold : ℕ}

/-- An array of nodes that can be allocated has far fewer than `2^64` of them. -/
theorem lt_of_nodes_fit (hsize : 32 ≤ sizeofNode) (h : N * sizeofNode < 2 ^ 64) : N < 2 ^ 59 := by
  have := Nat.mul_le_mul_left N hsize
  omega

/-- With an element, an allocation that does not throw leaves the state every run starts in. -/
theorem initialise_of_fits [Inhabited K] [Inhabited V] (hpos : 1 ≤ N) (hsize : 32 ≤ sizeofNode)
    (hfits : ¬ (2 ^ 64 ≤ bucketCount * sizeofBucketHead ∨ 2 ^ 64 ≤ N * sizeofNode)) :
    initialise N bucketCount sizeofNode pullThreshold purgeThreshold =
      .cache (allocateMemory N K V) bucketCount (min bucketCount maxBucketLockSize) pullThreshold
        purgeThreshold := by
  have hlt := lt_of_nodes_fit hsize (not_le.1 fun hle => hfits (Or.inr hle))
  rw [initialise, if_neg hfits, linkPool_eq hpos (by omega)]

theorem initialise_cases [Inhabited K] [Inhabited V] (hpos : 1 ≤ N) (hsize : 32 ≤ sizeofNode) :
    (initialise N bucketCount sizeofNode pullThreshold purgeThreshold : Initialised N K V) = .thrown ∨
      N * sizeofNode < 2 ^ 64 ∧
      initialise N bucketCount sizeofNode pullThreshold purgeThreshold =
        .cache (allocateMemory N K V) bucketCount (min bucketCount maxBucketLockSize) pullThreshold
          purgeThreshold := by
  by_cases hfits : 2 ^ 64 ≤ bucketCount * sizeofBucketHead ∨ 2 ^ 64 ≤ N * sizeofNode
  · exact Or.inl (if_pos hfits)
  · exact Or.inr ⟨not_le.1 fun hle => hfits (Or.inr hle), initialise_of_fits hpos hsize hfits⟩

/-- Without an element the loop starts outside the array. -/
theorem initialise_of_empty [Inhabited K] [Inhabited V] (hempty : N = 0) :
    (initialise N 0 sizeofNode pullThreshold purgeThreshold : Initialised N K V) = .outOfRange := by
  subst hempty
  have hfits : ¬ (2 ^ 64 ≤ 0 * sizeofBucketHead ∨ 2 ^ 64 ≤ 0 * sizeofNode) := by omega
  rw [initialise, if_neg hfits]
  rfl

end Initialise

namespace Allocation

variable (r : Allocation K)

theorem elementSize_pos : 0 < r.elementSize := by
  have hnode : (32 : ℚ) ≤ r.sizeofNode := by exact_mod_cast r.sizeofNode_ge
  have hbucket : (0 : ℚ) ≤ sizeofBucketHead / r.hashtableLoadFactor := by positivity
  rw [elementSize]
  linarith

/-- The condition under which there is an element. -/
theorem one_le_maxElementCount_iff : 1 ≤ r.maxElementCount ↔
    if r.isItemCapacity then 1 ≤ r.capacity else r.elementSize ≤ r.capacity := by
  unfold maxElementCount
  by_cases hitems : r.isItemCapacity = true
  · rw [if_pos hitems, if_pos hitems]
  · rw [if_neg hitems, if_neg hitems, maxElementCountForCapacity, Nat.one_le_floor_iff,
      one_le_div r.elementSize_pos]

theorem capacity_ne_zero (h : 1 ≤ r.maxElementCount) : r.capacity ≠ 0 := by
  intro hzero
  rw [one_le_maxElementCount_iff, hzero] at h
  have := r.elementSize_pos
  split at h
  · exact Nat.not_succ_le_zero 0 h
  · rw [Nat.cast_zero] at h
    linarith

theorem bucketCount_eq (hfits : r.maxElementCount * r.sizeofNode < 2 ^ 64) :
    r.bucketCount = (r.maxElementCount + r.hashtableLoadFactor - 1) / r.hashtableLoadFactor := by
  have := lt_of_nodes_fit r.sizeofNode_ge hfits
  have := r.loadFactor_lt
  exact getBucketCountForCapacity_eq r.loadFactor_pos (by omega)

/-- The configuration of the cache. -/
def config (h : 1 ≤ r.maxElementCount) (hfits : r.maxElementCount * r.sizeofNode < 2 ^ 64) :
    Config r.maxElementCount K where
  pullThreshold := threshold r.pullThresholdFactor r.maxElementCount
  purgeThreshold := threshold r.purgeThresholdFactor r.maxElementCount
  hasher := r.hasher
  bucketCount := r.bucketCount
  capacity_pos := h
  pullThreshold_pos := Nat.le_max_right _ _
  purgeThreshold_pos := Nat.le_max_right _ _
  bucketCount_pos := by
    rw [r.bucketCount_eq hfits]
    exact Nat.div_pos (by omega) r.loadFactor_pos

/-- **An allocation of at least one element** throws or leaves the initial state of a cache with this
    configuration. -/
theorem allocateMemory_cases [Inhabited K] [Inhabited V] (h : 1 ≤ r.maxElementCount) :
    r.allocateMemory (V := V) = .thrown ∨
      ∃ hfits, r.allocateMemory = .cache (DeferredLru.allocateMemory r.maxElementCount K V)
        (r.config h hfits).bucketCount (min (r.config h hfits).bucketCount maxBucketLockSize)
        (r.config h hfits).pullThreshold (r.config h hfits).purgeThreshold := by
  rw [allocateMemory, if_neg (r.capacity_ne_zero h)]
  rcases initialise_cases (K := K) (V := V) h r.sizeofNode_ge with hrun | ⟨hfits, hrun⟩
  · exact Or.inl hrun
  · exact Or.inr ⟨hfits, hrun⟩

theorem allocateMemory_of_capacity_eq_zero [Inhabited K] [Inhabited V] (h : r.capacity = 0) :
    r.allocateMemory (V := V) = .late :=
  if_pos h

theorem allocateMemory_of_empty [Inhabited K] [Inhabited V] (hcapacity : r.capacity ≠ 0)
    (h : r.maxElementCount = 0) : r.allocateMemory (V := V) = .outOfRange := by
  have hbuckets : r.bucketCount = 0 := by
    have := r.loadFactor_pos
    rw [r.bucketCount_eq (by rw [h]; omega), h]
    exact Nat.div_eq_of_lt (by omega)
  rw [allocateMemory, if_neg hcapacity, hbuckets]
  exact initialise_of_empty h

end Allocation

/-! ## Soundness -/

/-- The initialisation is sound: it has not left `nodes_`, and unless it threw there is a cache whose
    pool chain visits every node exactly once and ends in null, and in which every key has a bucket
    and its bucket a lock. Without an allocation there is no bucket. -/
def Initialised.Sound (hasher : K → ℕ) : Initialised N K V → Prop
  | .late => False
  | .thrown => True
  | .outOfRange => False
  | .cache m bucketCount lockCount _ _ =>
      (∃ pool, Chain (fun n => m.lruNext (.node n)) .node m.emptyHead pool .null ∧
        ∀ n, pool.count n = 1) ∧
      ∀ k, ∃ bucketNr < bucketCount, keyToBucketNr bucketCount (hasher k) = some bucketNr ∧
        bucketLockIndex bucketNr < lockCount

/-- The pool of the initial state. -/
theorem allocateMemory_poolChain [Inhabited K] [Inhabited V] (N : ℕ) :
    ∃ pool, Chain (fun n => (allocateMemory N K V).lruNext (.node n)) .node
      (allocateMemory N K V).emptyHead pool .null ∧ ∀ n, pool.count n = 1 := by
  refine ⟨List.finRange N, allocateMemory_pool N 0 (Nat.zero_add N), fun n => ?_⟩
  exact List.count_eq_one_of_mem (List.nodup_finRange N) (List.mem_finRange n)

/-- **Exactly which capacities are initialised soundly**: those that hold one element. -/
theorem Allocation.sound_iff [Inhabited K] [Inhabited V] (r : Allocation K) :
    (r.allocateMemory (V := V)).Sound r.hasher ↔
      if r.isItemCapacity then 1 ≤ r.capacity else r.elementSize ≤ r.capacity := by
  rw [← r.one_le_maxElementCount_iff]
  constructor
  · intro h
    by_contra hempty
    by_cases hcapacity : r.capacity = 0
    · rw [r.allocateMemory_of_capacity_eq_zero hcapacity] at h
      exact h
    · rw [r.allocateMemory_of_empty hcapacity (by omega)] at h
      exact h
  · intro h
    rcases r.allocateMemory_cases (V := V) h with hrun | ⟨hfits, hrun⟩
    · rw [hrun]
      trivial
    · rw [hrun]
      refine ⟨allocateMemory_poolChain _, fun k => ?_⟩
      have hpos : 0 < (r.config h hfits).bucketCount := (r.config h hfits).bucketCount_pos
      have hlt := Nat.mod_lt (r.hasher k) hpos
      exact ⟨_, hlt, if_neg hpos.ne', bucketLockIndex_lt hlt⟩

/-- One byte, for nodes of 48 bytes. -/
def oneByte : Allocation ℕ where
  capacity := 1
  isItemCapacity := false
  pullThresholdFactor := 1 / 10
  purgeThresholdFactor := 1 / 10
  hasher := id
  hashtableLoadFactor := defaultLoadFactor
  sizeofNode := 48
  capacity_lt := by decide
  loadFactor_pos := defaultLoadFactor_pos
  loadFactor_lt := by decide
  sizeofNode_ge := by decide
  sizeofNode_lt := by decide

/-- One byte holds no element, but it is not zero. -/
theorem Allocation.not_sound_oneByte : ¬ (oneByte.allocateMemory (V := ℕ)).Sound id := by
  have hempty : oneByte.maxElementCount = 0 := by
    rw [maxElementCount, if_neg (by decide), maxElementCountForCapacity, Nat.floor_eq_zero]
    norm_num [oneByte, elementSize, sizeofBucketHead, defaultLoadFactor]
  rw [oneByte.allocateMemory_of_empty (by decide) hempty]
  exact id

end DeferredLru
