import DeferredLru.Deferred.Memory

set_option autoImplicit false

/-! # The single-threaded code of `DeferredLRU`

`find`, `insert`, `consumeCachedOrCompute` and everything they call, function by function, as one
thread executes them while no other thread runs. Alone, a thread never waits for a bucket lock, its
`try_lock` of `lru_lock_` succeeds and a compare-exchange sees the value just loaded, so locking
leaves no trace here; `Threads/Machine.lean` is the same code cut into its atomic steps.

Each loop takes a `fuel` bound on its rounds. `none` is a loop that has not finished within its fuel
or an access through a pointer that is not a node's. The loop of `allocateNode` is the one that may
really run forever, so it reports the state it is still running in (`Outcome.running`).

Every function also returns the trace of what it did: hits, insertions, pulls and purges, oldest
first. The trace is only ever extended. -/

namespace DeferredLru

variable {N : ℕ} {K V : Type}

/-- What a run of the cache did. -/
inductive Event (N : ℕ) (K V : Type) where
  /-- `find` returned this node. -/
  | hit (n : Fin N)
  /-- `insert` filled and linked this node. -/
  | inserted (n : Fin N) (k : K) (v : V)
  /-- An execution of `pullRecent`. -/
  | pull
  /-- An execution of `purgeOld`: the memory before and after, and the pairs handed to `onDelete`. -/
  | purge (before after : Mem N K V) (deleted : List (K × V))

/-! ## LRU list routines -/

/-- `removeNodeFromLru`. -/
def removeNodeFromLru (m : Mem N K V) (node : Ptr N) : Option (Mem N K V) := do
  let prev ← m.loadPrev node
  let next ← m.loadNext node
  let m ← m.storeNext prev next
  m.storePrev next prev

/-- `addSublistToLruHead`. -/
def addSublistToLruHead (m : Mem N K V) (first last : Ptr N) : Option (Mem N K V) := do
  let m ← m.storePrev first .lruHead
  let currentNext := m.lruNext .lruHead
  let m ← m.storeNext last currentNext
  let m := m.setNext .lruHead first
  m.storePrev currentNext last

/-! ## Recent list routines -/

/-- `markNodeRecent`. -/
def markNodeRecent (m : Mem N K V) (n : Fin N) : Mem N K V :=
  if m.markedRecent n then m
  else { m.setRecent n m.recentHead with
    recentHead := .node n
    recentCount := m.recentCount + 1 }

/-- `recentThresholdHit`. -/
def recentThresholdHit (cfg : Config N K) (m : Mem N K V) : Bool :=
  cfg.pullThreshold ≤ m.recentCount

/-! ## Hash table routines -/

/-- The loop of `searchBucket`, standing on `cur`. -/
def searchBucket [DecidableEq K] (m : Mem N K V) (k : K) : ℕ → Option (Fin N) → Option (Option (Fin N))
  | 0, _ => none
  | _ + 1, none => some none
  | fuel + 1, some n => if m.key n = k then some (some n) else searchBucket m k fuel (m.bucketNext n)

/-- `addNodeToBucket`. -/
def addNodeToBucket (cfg : Config N K) (m : Mem N K V) (n : Fin N) : Mem N K V :=
  let bucketNr := cfg.keyToBucketNr (m.key n)
  (m.setBucketNext n (m.buckets bucketNr)).setBucket bucketNr (some n)

/-- The loop of `removeNodeFromBucket` behind the bucket head, standing on `parent`. -/
def unlinkBehind (m : Mem N K V) (n : Fin N) : ℕ → Option (Fin N) → Option (Bool × Mem N K V)
  | 0, _ => none
  | _ + 1, none => some (false, m)
  | fuel + 1, some parent =>
      if m.bucketNext parent = some n then
        some (true, (m.setBucketNext parent (m.bucketNext n)).setBucketNext n none)
      else unlinkBehind m n fuel (m.bucketNext parent)

/-- `removeNodeFromBucket`. -/
def removeNodeFromBucket (cfg : Config N K) (fuel : ℕ) (m : Mem N K V) (n : Fin N)
    (removeIfRecent : Bool) : Option (Bool × Mem N K V) :=
  let bucketNr := cfg.keyToBucketNr (m.key n)
  if !removeIfRecent && m.markedRecent n then some (false, m)
  else if m.buckets bucketNr = some n then
    some (true, (m.setBucket bucketNr (m.bucketNext n)).setBucketNext n none)
  else unlinkBehind m n fuel (m.buckets bucketNr)

/-! ## Empty node pool -/

/-- `disposeNode`. -/
def disposeNode (m : Mem N K V) (n : Fin N) : Mem N K V :=
  { m.setNext (.node n) m.emptyHead with emptyHead := .node n }

/-! ## Consolidation -/

/-- The loop of `pullRecent`, standing on `current` with `prev` the end of the temporary list.
    Returns that end. -/
def pullLoop : ℕ → Ptr N → Ptr N → Mem N K V → Option (Ptr N × Mem N K V)
  | 0, _, _, _ => none
  | fuel + 1, current, prev, m =>
      match current with
      | .dummy => some (prev, m)
      | .node n =>
          if m.lruPrev (.node n) = .lruHead then
            -- skip this node
            pullLoop fuel (m.recentNext n) prev (m.setRecent n .null)
          else do
            -- extract node from LRU, add it to the temporary list
            let m ← removeNodeFromLru m (.node n)
            let m ← m.storeNext prev (.node n)
            let m := m.setPrev (.node n) prev
            pullLoop fuel (m.recentNext n) (.node n) (m.setRecent n .null)
      | _ => none

/-- `popRecentListSlice`. -/
def popRecentListSlice (m : Mem N K V) : Ptr N × Mem N K V :=
  (m.recentHead, { m with recentHead := .dummy, recentCount := 0 })

/-- `pullRecent`. The local `head` starts with a null link. -/
def pullRecent (fuel : ℕ) (m : Mem N K V) : Option (Mem N K V) := do
  let (current, m) := popRecentListSlice m
  let (prev, m) ← pullLoop fuel current .localHead (m.setNext .localHead .null)
  if prev = .localHead then some m
  else addSublistToLruHead m (m.lruNext .localHead) prev

/-- The loop of `purgeOld`, standing on `node`. Returns the deleted pairs in the order of the
    `onDelete` calls. -/
def purgeLoop (cfg : Config N K) (inner required : ℕ) :
    ℕ → Ptr N → ℕ → Mem N K V → Option (List (K × V) × Mem N K V)
  | 0, _, _, _ => none
  | fuel + 1, node, nodesFreed, m =>
      if node = .lruHead ∨ required ≤ nodesFreed then some ([], m)
      else match node with
        | .node n =>
            let next := m.lruPrev (.node n)
            if next = .lruHead then some ([], m)
            else if m.markedRecent n then purgeLoop cfg inner required fuel next nodesFreed m
            else do
              let (removed, m) ← removeNodeFromBucket cfg inner m n false
              if removed then
                let m ← removeNodeFromLru m (.node n)
                let pair := (m.key n, m.value n)
                let m := { m with currentElementCount := m.currentElementCount - 1 }
                let (deleted, m) ←
                  purgeLoop cfg inner required fuel next (nodesFreed + 1) (disposeNode m n)
                some (pair :: deleted, m)
              else purgeLoop cfg inner required fuel next nodesFreed m
        | _ => none

/-- `purgeOld`. -/
def purgeOld (cfg : Config N K) (fuel : ℕ) (m : Mem N K V) (requiredNodes : ℕ) :
    Option (List (K × V) × Mem N K V) :=
  let requiredNodes := if requiredNodes = 0 then 1 else requiredNodes
  purgeLoop cfg fuel requiredNodes fuel (m.lruPrev .lruTail) 0 m

/-- The first stage of `consolidateCache`: `if (purge_request_)`. -/
def purgeStage (cfg : Config N K) (fuel : ℕ) (m : Mem N K V) :
    Option (List (Event N K V) × Mem N K V) :=
  if m.purgeRequest then do
    let (deleted, m') ← purgeOld cfg fuel m cfg.purgeThreshold
    some ([Event.purge m m' deleted], { m' with purgeRequest := false })
  else some ([], m)

/-- The second stage of `consolidateCache`: `if (pull_request_)`. -/
def pullStage (fuel : ℕ) (m : Mem N K V) : Option (List (Event N K V) × Mem N K V) :=
  if m.pullRequest then do
    let m' ← pullRecent fuel m
    some ([Event.pull], { m' with pullRequest := false })
  else some ([], m)

/-- `consolidateCache`; `lru_lock_` is free. -/
def consolidateCache (cfg : Config N K) (fuel : ℕ) (m : Mem N K V) :
    Option (List (Event N K V) × Mem N K V) := do
  let (purged, m) ← purgeStage cfg fuel m
  let (pulled, m) ← pullStage fuel m
  some (purged ++ pulled, m)

/-- `requestPull`. -/
def requestPull (cfg : Config N K) (fuel : ℕ) (m : Mem N K V) :
    Option (List (Event N K V) × Mem N K V) :=
  consolidateCache cfg fuel { m with pullRequest := true }

/-- `requestPurge`. -/
def requestPurge (cfg : Config N K) (fuel : ℕ) (m : Mem N K V) :
    Option (List (Event N K V) × Mem N K V) :=
  consolidateCache cfg fuel { m with purgeRequest := true }

/-! ## Release -/

/-- The loop of `releaseMemory` over one bucket, standing on `node`: the pairs handed to `onDelete`. -/
def releaseBucket (m : Mem N K V) : ℕ → Option (Fin N) → Option (List (K × V))
  | 0, _ => none
  | _ + 1, none => some []
  | fuel + 1, some n => do
      let deleted ← releaseBucket m fuel (m.bucketNext n)
      some ((m.key n, m.value n) :: deleted)

/-- `releaseMemory` of a cache with this many buckets. It drops the nodes and leaves no bucket. -/
def releaseMemory (fuel bucketCount : ℕ) (m : Mem N K V) : Option (List (K × V) × ℕ) := do
  let deleted ← (List.range bucketCount).mapM fun b => releaseBucket m fuel (m.buckets b)
  some (deleted.flatten, 0)

/-- So many calls of `releaseMemory` in a row. -/
def releaseRepeatedly (fuel : ℕ) (m : Mem N K V) : ℕ → ℕ → Option (List (K × V))
  | 0, _ => some []
  | calls + 1, bucketCount => do
      let (deleted, bucketCount) ← releaseMemory fuel bucketCount m
      let rest ← releaseRepeatedly fuel m calls bucketCount
      some (deleted ++ rest)

/-! ## The public operations -/

/-- How an operation that may loop forever stands after a bounded number of rounds. -/
inductive Outcome (N : ℕ) (K V : Type) (α : Type) where
  /-- It returned. -/
  | returned (a : α) (m : Mem N K V) (trace : List (Event N K V))
  /-- `allocateNode` is still looping. -/
  | running (m : Mem N K V) (trace : List (Event N K V))
  /-- An inner loop did not finish, or a pointer that is not a node's was dereferenced. -/
  | stuck

/-- The loop of `allocateNode`, holding `node` as the pool head it loaded last. -/
def allocateLoop (cfg : Config N K) (inner : ℕ) :
    ℕ → Ptr N → Mem N K V → List (Event N K V) → Outcome N K V (Fin N)
  | 0, _, m, trace => .running m trace
  | fuel + 1, node, m, trace =>
      match node with
      | .null =>
          match requestPurge cfg inner m with
          | none => .stuck
          | some (events, m) => allocateLoop cfg inner fuel m.emptyHead m (trace ++ events)
      | .node n =>
          if m.emptyHead = .node n then
            .returned n { m with emptyHead := m.lruNext (.node n) } trace
          else allocateLoop cfg inner fuel m.emptyHead m trace
      | _ => .stuck

/-- `allocateNode`. -/
def allocateNode (cfg : Config N K) (fuel : ℕ) (m : Mem N K V) : Outcome N K V (Fin N) :=
  allocateLoop cfg fuel fuel m.emptyHead m []

/-- `insert`. -/
def insert (cfg : Config N K) (fuel : ℕ) (m : Mem N K V) (k : K) (v : V) : Outcome N K V Unit :=
  match allocateNode cfg fuel { m with currentElementCount := m.currentElementCount + 1 } with
  | .running m trace => .running m trace
  | .stuck => .stuck
  | .returned n m trace =>
      let m := addNodeToBucket cfg (((m.setKey n k).setValue n v).setRecent n .dummy) n
      match addSublistToLruHead m (.node n) (.node n) with
      | none => .stuck
      | some m => .returned () (m.setRecent n .null) (trace ++ [Event.inserted n k v])

variable [DecidableEq K]

/-- `find`. The result is what the consumer was assigned, if the key was found. -/
def find (cfg : Config N K) (fuel : ℕ) (m : Mem N K V) (k : K) : Outcome N K V (Option V) :=
  match searchBucket m k fuel (m.buckets (cfg.keyToBucketNr k)) with
  | none => .stuck
  | some found =>
      let (consumer, hits, m) := match found with
        | some n => (some (m.value n), [Event.hit n], markNodeRecent m n)
        | none => (none, [], m)
      if recentThresholdHit cfg m then
        match requestPull cfg fuel m with
        | none => .stuck
        | some (events, m) => .returned consumer m (hits ++ events)
      else .returned consumer m hits

/-- `consumeCachedOrCompute` with the value `x` that the producer returns. The result is what the
    consumer was assigned. -/
def consumeCachedOrCompute (cfg : Config N K) (fuel : ℕ) (m : Mem N K V) (k : K) (x : V) :
    Outcome N K V V :=
  match find cfg fuel m k with
  | .stuck => .stuck
  | .running m trace => .running m trace
  | .returned (some v) m trace => .returned v m trace
  | .returned none m trace =>
      match insert cfg fuel m k x with
      | .stuck => .stuck
      | .running m trace' => .running m (trace ++ trace')
      | .returned () m trace' => .returned x m (trace ++ trace')

end DeferredLru
