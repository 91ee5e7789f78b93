import DeferredLru.Lib.Indices
import Mathlib.Data.List.FinRange

set_option autoImplicit false

/-! # `LRUCache`

The mutex-protected cache of `benchmark/src/containers/lru.h`. Its lists are linked by indices into
`storage_`: an index is an `int`, with -1 for the end of a list and `-b - 1` as the `bucket_prev` of
the first element of bucket `b`. Each public function is one critical section of `lock_`, so a run of
any number of threads is a sequence of calls.

`none` is an access outside an array, a division by zero, an `int` that overflows, or a loop that has
not finished within its fuel. Every function returns, besides the state, what it did in order: the
calls of `onDelete` and, with `enable_debug`, the results of its assertions. -/

namespace DeferredLru.LruCache

open Intrusive

variable {N : ℕ} {K V : Type}

/-- The template and constructor arguments of a cache with room for `N` elements. -/
structure Arguments (N : ℕ) (K : Type) where
  hasher : K → ℕ
  ignoreBitsInHash : ℕ
  hashTableLoadFactor : ℕ
  enableDebug : Bool
  loadFactor_pos : 1 ≤ hashTableLoadFactor

namespace Arguments

/-- `bucket_count_`. The load factor is a `double`, and so is the quotient that is rounded down; below
    2^53 elements this is the quotient of the integers (`BucketedAdapter.lruWhichBucket_eq`). -/
def bucketCount (cfg : Arguments N K) : ℕ := N / cfg.hashTableLoadFactor

/-- `whichBucket`, which returns an `int`; there is no remainder of a division by zero. -/
def whichBucket (cfg : Arguments N K) (k : K) : Option ℤ :=
  if cfg.bucketCount = 0 then none
  else some (toIndex ((cfg.hasher k >>> cfg.ignoreBitsInHash) % cfg.bucketCount))

/-- The bucket that `bucket_[i]` addresses; there is none outside the array. -/
def bucketSlot (cfg : Arguments N K) (i : ℤ) : Option ℕ :=
  if 0 ≤ i ∧ i < cfg.bucketCount then some i.toNat else none

end Arguments

/-- Arguments with which the cache works: with fewer elements than the load factor there would be no
    bucket; with one, `evict` leaves the list; and an `int` has to count the elements. -/
structure Config (N : ℕ) (K : Type) extends Arguments N K where
  two_le : 2 ≤ N
  loadFactor_le : hashTableLoadFactor ≤ N
  capacity_lt : N < 2 ^ 31

instance : CoeOut (Config N K) (Arguments N K) := ⟨Config.toArguments⟩

namespace Config

/-- The bucket that `whichBucket` returns. -/
def whichBucket (cfg : Config N K) (k : K) : ℕ :=
  (cfg.hasher k >>> cfg.ignoreBitsInHash) % cfg.bucketCount

theorem bucketCount_pos (cfg : Config N K) : 0 < cfg.bucketCount :=
  Nat.div_pos cfg.loadFactor_le cfg.loadFactor_pos

theorem bucketCount_lt (cfg : Config N K) : cfg.bucketCount < 2 ^ 31 :=
  (Nat.div_le_self ..).trans_lt cfg.capacity_lt

theorem whichBucket_lt (cfg : Config N K) (k : K) : cfg.whichBucket k < cfg.bucketCount :=
  Nat.mod_lt _ cfg.bucketCount_pos

/-- The narrowing to an `int` loses nothing. -/
@[simp] theorem whichBucket_eq (cfg : Config N K) (k : K) :
    cfg.toArguments.whichBucket k = some (cfg.whichBucket k : ℤ) := by
  have hlt := (cfg.whichBucket_lt k).trans cfg.bucketCount_lt
  rw [Arguments.whichBucket, if_neg cfg.bucketCount_pos.ne']
  exact congrArg some (toIndex_of_lt hlt)

theorem whichBucket_range (cfg : Config N K) (k : K) :
    (0 : ℤ) ≤ cfg.whichBucket k ∧ (cfg.whichBucket k : ℤ) < cfg.bucketCount :=
  ⟨Int.natCast_nonneg _, Int.ofNat_lt.2 (cfg.whichBucket_lt k)⟩

@[simp] theorem bucketSlot_whichBucket (cfg : Config N K) (k : K) :
    cfg.toArguments.bucketSlot (cfg.whichBucket k) = some (cfg.whichBucket k) :=
  if_pos (cfg.whichBucket_range k)

end Config

/-- The members of the cache; the fields of `storage_[i]` are kept as functions of `i`. -/
structure State (N : ℕ) (K V : Type) where
  listPrev : Fin N → ℤ
  listNext : Fin N → ℤ
  bucketPrev : Fin N → ℤ
  bucketNext : Fin N → ℤ
  key : Fin N → K
  value : Fin N → V
  bucket : ℕ → ℤ
  lruListHead : ℤ
  lruListTail : ℤ
  emptyNodesHead : ℤ
  currentElementCount : ℕ

/-- What a call did. -/
inductive Event (K V : Type) where
  /-- The result of an `assert(coherent())`. -/
  | coherent (ok : Bool)
  /-- The result of another assertion. -/
  | assertion (ok : Bool)
  | onDelete (k : K) (v : V)
  deriving DecidableEq

namespace State

/-- The state with `list_prev` of the slot set. -/
def setListPrev (s : State N K V) (n : Fin N) (i : ℤ) : State N K V :=
  { s with listPrev := Function.update s.listPrev n i }

/-- The state with `list_next` of the slot set. -/
def setListNext (s : State N K V) (n : Fin N) (i : ℤ) : State N K V :=
  { s with listNext := Function.update s.listNext n i }

/-- The state with `bucket_prev` of the slot set. -/
def setBucketPrev (s : State N K V) (n : Fin N) (i : ℤ) : State N K V :=
  { s with bucketPrev := Function.update s.bucketPrev n i }

/-- The state with `bucket_next` of the slot set. -/
def setBucketNext (s : State N K V) (n : Fin N) (i : ℤ) : State N K V :=
  { s with bucketNext := Function.update s.bucketNext n i }

/-- The state with the key of the slot set. -/
def setKey (s : State N K V) (n : Fin N) (k : K) : State N K V :=
  { s with key := Function.update s.key n k }

/-- The state with the value of the slot set. -/
def setValue (s : State N K V) (n : Fin N) (v : V) : State N K V :=
  { s with value := Function.update s.value n v }

/-- The state with the head of a bucket set. -/
def setBucket (s : State N K V) (b : ℕ) (i : ℤ) : State N K V :=
  { s with bucket := Function.update s.bucket b i }

end State

/-- The state after `allocateMemory`, before its assertion. -/
def initialState (N : ℕ) (K V : Type) [Inhabited K] [Inhabited V] : State N K V where
  listPrev _ := 0
  listNext n := if n.val + 1 < N then (n.val + 1 : ℤ) else -1
  bucketPrev _ := 0
  bucketNext _ := 0
  key _ := default
  value _ := default
  bucket _ := -1
  lruListHead := -1
  lruListTail := -1
  emptyNodesHead := 0
  currentElementCount := 0

/-! ## `coherent` -/

section Coherent

variable (cfg : Arguments N K) (s : State N K V)

/-- The loop over the empty list. -/
def walkEmpty : ℕ → ℕ → ℤ → Option Bool
  | 0, _, _ => none
  | fuel + 1, nbcount, i =>
      if i = -1 then some true
      else if N < nbcount then some false
      else do
        let n ← slot i
        let nbcount ← increment nbcount
        walkEmpty fuel nbcount (s.listNext n)

/-- The loop over the LRU list; `some none` is a `return false`, else the number of elements. -/
def walkForward : ℕ → ℕ → ℤ → Option (Option ℕ)
  | 0, _, _ => none
  | fuel + 1, nbcount, i =>
      if i = -1 then some (some nbcount)
      else if N < nbcount then some none
      else do
        let n ← slot i
        -- the head of a bucket names it
        let misplaced ← if s.bucketPrev n < 0 then
            (cfg.whichBucket (s.key n)).map fun b => decide (b ≠ -s.bucketPrev n - 1)
          else some false
        if misplaced then some none
        else do
          let nbcount ← increment nbcount
          walkForward fuel nbcount (s.listNext n)

/-- The loop over the reverse LRU list. -/
def walkBack : ℕ → ℕ → ℤ → Option (Option ℕ)
  | 0, _, _ => none
  | fuel + 1, nbcount, i =>
      if i = -1 then some (some nbcount)
      else if N < nbcount then some none
      else do
        let n ← slot i
        let nbcount ← increment nbcount
        walkBack fuel nbcount (s.listPrev n)

/-- The loop over the bucket `j`. -/
def walkBucket (j : ℕ) : ℕ → ℕ → ℤ → Option Bool
  | 0, _, _ => none
  | fuel + 1, nbcount, i =>
      if i < 0 then some true
      else do
        let n ← slot i
        -- an element in a bucket is not in the empty list (test weaker)
        if i = s.currentElementCount then some false
        else do
          let b ← cfg.whichBucket (s.key n)
          if (j : ℤ) ≠ b then some false
          else if s.bucketNext n = s.bucketPrev n ∧ 0 ≤ s.bucketPrev n then some false
          else if N < nbcount then some false
          else do
            let nbcount ← increment nbcount
            walkBucket j fuel nbcount (s.bucketNext n)

/-- The loop over all buckets; its `int` counts them. -/
def walkBuckets : List ℕ → Option Bool
  | [] => some true
  | j :: js => do
      if ← walkBucket cfg s j (N + 2) 0 (s.bucket j) then do
        let _ ← increment j
        walkBuckets js
      else some false

/-- `coherent`. No loop makes more than `N + 2` rounds. -/
def coherent : Option Bool := do
  if ← walkEmpty s (N + 2) 0 s.emptyNodesHead then
    match ← walkForward cfg s (N + 2) 0 s.lruListHead with
    | none => some false
    | some nbcountFor =>
        match ← walkBack s (N + 2) 0 s.lruListTail with
        | none => some false
        | some nbcountBack =>
            if nbcountBack ≠ nbcountFor then some false
            else walkBuckets cfg s (List.range cfg.bucketCount)
  else some false

/-- `if (config::enable_debug) assert(coherent());`. -/
def assertCoherent : Option (List (Event K V)) :=
  if cfg.enableDebug then do
    let ok ← coherent cfg s
    some [.coherent ok]
  else some []

end Coherent

/-- `if (config::enable_debug) assert(ok);`. -/
def assert (cfg : Arguments N K) (ok : Bool) : List (Event K V) :=
  if cfg.enableDebug then [.assertion ok] else []

/-- `allocateMemory`. Its loop over `storage_` computes the index `N - 1` in an `int`, the one over
    `bucket_` the number of buckets. -/
def allocateMemory [Inhabited K] [Inhabited V] (cfg : Arguments N K) :
    Option (State N K V × List (Event K V)) :=
  if N ≤ 2 ^ 31 ∧ cfg.bucketCount < 2 ^ 31 then do
    let events ← assertCoherent cfg (initialState N K V)
    some (initialState N K V, events)
  else none

/-! ## `evict` -/

/-- Remove the victim from the LRU list and add it to the empty list. -/
def unlinkVictim (s : State N K V) (victim : Fin N) : Option (State N K V) := do
  let s := { s with lruListHead := s.listNext victim }
  let head ← slot s.lruListHead
  let s := s.setListPrev head (-1)
  let s := s.setListNext victim s.emptyNodesHead
  some { s with emptyNodesHead := index victim }

/-- Let the bucket or the element before the victim lead past it. -/
def bypassNext (cfg : Arguments N K) (s : State N K V) (victim : Fin N) : Option (State N K V) :=
  if s.bucketPrev victim < 0 then
    if (-s.bucketPrev victim - 1).toNat < cfg.bucketCount then
      some (s.setBucket (-s.bucketPrev victim - 1).toNat (s.bucketNext victim))
    else none
  else do
    let prev ← slot (s.bucketPrev victim)
    some (s.setBucketNext prev (s.bucketNext victim))

/-- Let the element behind the victim lead back past it. -/
def bypassPrev (s : State N K V) (victim : Fin N) : Option (State N K V) :=
  if 0 ≤ s.bucketNext victim then do
    let next ← slot (s.bucketNext victim)
    some (s.setBucketPrev next (s.bucketPrev victim))
  else some s

/-- Remove the victim from its bucket. -/
def unlinkFromBucket (cfg : Arguments N K) (s : State N K V) (victim : Fin N) :
    Option (State N K V) := do
  let s ← bypassNext cfg s victim
  bypassPrev s victim

/-- `evict`. -/
def evict (cfg : Arguments N K) (s : State N K V) : Option (State N K V × List (Event K V)) := do
  let before ← assertCoherent cfg s
  let victimAssert := assert cfg (0 ≤ s.lruListHead)
  let victim ← slot s.lruListHead
  let s ← unlinkVictim s victim
  let s ← unlinkFromBucket cfg s victim
  let countAssert := assert cfg (1 ≤ s.currentElementCount)
  let s := { s with currentElementCount := s.currentElementCount - 1 }
  let after ← assertCoherent cfg s
  some (s, before ++ victimAssert ++ countAssert ++
    .onDelete (s.key victim) (s.value victim) :: after)

/-! ## `insert` -/

/-- `while (current_element_count_ >= max_element_count_) evict();`. -/
def evictWhileFull (cfg : Arguments N K) : ℕ → State N K V → Option (State N K V × List (Event K V))
  | 0, _ => none
  | fuel + 1, s =>
      if N ≤ s.currentElementCount then do
        let (s, events) ← evict cfg s
        let (s, rest) ← evictWhileFull cfg fuel s
        some (s, events ++ rest)
      else some (s, [])

/-- Insert the new element at the end of the LRU list. -/
def insertAtEnd (s : State N K V) (newelem : Fin N) : Option (State N K V) := do
  let s := (s.setListPrev newelem s.lruListTail).setListNext newelem (-1)
  let s ← if s.lruListTail ≠ -1 then do
      let tail ← slot s.lruListTail
      some (s.setListNext tail (index newelem))
    else some s
  let s := { s with lruListTail := index newelem }
  -- if list is empty, tail is head
  some (if s.lruListHead = -1 then { s with lruListHead := s.lruListTail } else s)

/-- Insert the new element in bucket `wbuck` at the head. -/
def insertInBucket (s : State N K V) (newelem : Fin N) (wbuck : ℕ) : Option (State N K V) := do
  let s := s.setBucketNext newelem (s.bucket wbuck)
  let s ← if s.bucket wbuck ≠ -1 then do
      let first ← slot (s.bucket wbuck)
      some (s.setBucketPrev first (index newelem))
    else some s
  some ((s.setBucketPrev newelem (-wbuck - 1)).setBucket wbuck (index newelem))

/-- What `insert` does once there is room: take an element of the empty list, fill it and link it. -/
def addElement (cfg : Arguments N K) (s : State N K V) (k : K) (v : V) :
    Option (State N K V × List (Event K V)) := do
  let s := { s with currentElementCount := s.currentElementCount + 1 }
  let newAssert := assert cfg (s.emptyNodesHead ≠ -1)
  let newelem ← slot s.emptyNodesHead
  let s := { s with emptyNodesHead := s.listNext newelem }
  let s := (s.setKey newelem k).setValue newelem v
  let s ← insertAtEnd s newelem
  let wbuck ← cfg.whichBucket k
  let bucketAssert := assert cfg (0 ≤ wbuck ∧ wbuck < cfg.bucketCount)
  let b ← cfg.bucketSlot wbuck
  let s ← insertInBucket s newelem b
  some (s, newAssert ++ bucketAssert)

/-- `insert`. -/
def insert (cfg : Arguments N K) (fuel : ℕ) (s : State N K V) (k : K) (v : V) :
    Option (State N K V × List (Event K V)) := do
  let before ← assertCoherent cfg s
  let (s, evictions) ← evictWhileFull cfg fuel s
  let (s, added) ← addElement cfg s k v
  let after ← assertCoherent cfg s
  some (s, before ++ evictions ++ added ++ after)

/-! ## `find` -/

/-- Remove the element from the LRU list; it is not the last one. -/
def unlinkCurrent (s : State N K V) (current : Fin N) : Option (State N K V) := do
  let s ← if s.listPrev current = -1 then some { s with lruListHead := s.listNext current }
    else do
      let prev ← slot (s.listPrev current)
      some (s.setListNext prev (s.listNext current))
  let next ← slot (s.listNext current)
  some (s.setListPrev next (s.listPrev current))

/-- Insert the element behind the last one. -/
def appendCurrent (s : State N K V) (current : Fin N) : Option (State N K V) := do
  let s := s.setListNext current (-1)
  let tail ← slot s.lruListTail
  let s := s.setListNext tail (index current)
  let s := s.setListPrev current s.lruListTail
  some { s with lruListTail := index current }

/-- Update the LRU list: remove first, then insert. -/
def updateLruList (s : State N K V) (current : Fin N) : Option (State N K V) := do
  let s ← unlinkCurrent s current
  appendCurrent s current

variable [DecidableEq K]

/-- The search loop of `find`, standing on `current`. -/
def searchBucket (s : State N K V) (k : K) : ℕ → ℤ → Option (Option (Fin N))
  | 0, _ => none
  | fuel + 1, current =>
      if current = -1 then some none
      else do
        let n ← slot current
        if s.key n = k then some (some n) else searchBucket s k fuel (s.bucketNext n)

/-- `find`. The result is what the consumer was assigned, if the key was found. -/
def find (cfg : Arguments N K) (fuel : ℕ) (s : State N K V) (k : K) :
    Option (Option V × State N K V × List (Event K V)) := do
  let wbuck ← cfg.whichBucket k
  let bucketAssert := assert cfg (0 ≤ wbuck ∧ wbuck < cfg.bucketCount)
  let b ← cfg.bucketSlot wbuck
  let before ← assertCoherent cfg s
  match ← searchBucket s k fuel (s.bucket b) with
  | none => some (none, s, bucketAssert ++ before)
  | some current =>
      if index current ≠ s.lruListTail then
        let s ← updateLruList s current
        let after ← assertCoherent cfg s
        some (some (s.value current), s, bucketAssert ++ before ++ after)
      else some (some (s.value current), s, bucketAssert ++ before)

/-- `consumeCachedOrCompute` with the value `x` that the producer returns: whether the key was found,
    and what the consumer was assigned. -/
def consumeCachedOrCompute (cfg : Arguments N K) (fuel : ℕ) (s : State N K V) (k : K) (x : V) :
    Option (Bool × V × State N K V × List (Event K V)) := do
  match ← find cfg fuel s k with
  | (some v, s, events) => some (true, v, s, events)
  | (none, s, events) =>
      let (s, rest) ← insert cfg fuel s k x
      some (false, x, s, events ++ rest)

end DeferredLru.LruCache
