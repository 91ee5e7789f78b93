import DeferredLru.Deferred.Code
import Mathlib.Algebra.Group.Nat.Defs

set_option autoImplicit false

/-! # `DeferredLRU` under threads

The code of `Code.lean` again, cut into its single shared accesses. A thread stands at a program
counter (`PC`, one inductive per source function, with the locals that are live there); `next` is the
access it makes there, an `Act` on the shared state, and where it goes. All accesses are sequentially
consistent, `lru_lock_` and the bucket locks are correct mutexes.

A step is either blocked (a taken bucket lock, or an access through a pointer that is not a node's,
which has no defined behaviour) or determined by the thread, except that a `compare_exchange_weak`
may fail spuriously. A plain (non-atomic) field that is read twice in a row is read once here. -/

namespace DeferredLru.Threads

variable {N : ℕ} {K V T : Type}

/-! ## Program counters -/

/-- `addSublistToLruHead(first, last)`. -/
inductive AddPC (N : ℕ) where
  | storePrev
  | load
  | storeNext (currentNext : Ptr N)
  | cas (currentNext : Ptr N)
  | repair (currentNext : Ptr N)

/-- `removeNodeFromLru(node)`. -/
inductive UnlinkPC (N : ℕ) where
  | loadPrev
  | loadNext (prev : Ptr N)
  | storeNext (prev next : Ptr N)
  | storePrev (prev next : Ptr N)

/-- `markNodeRecent(node)`. The flag of `store` says that the loop has stored before. -/
inductive MarkPC (N : ℕ) where
  | test
  | load
  | store (next : Ptr N) (again : Bool)
  | cas (next : Ptr N)
  | count

/-- `addNodeToBucket(node)`. -/
inductive LinkPC (N : ℕ) where
  | hash
  | lock (b : ℕ)
  | load (b : ℕ)
  | storeNext (b : ℕ) (head : Option (Fin N))
  | storeHead (b : ℕ)
  | unlock (b : ℕ)

/-- `removeNodeFromBucket(node, false)`. -/
inductive RemovePC (N : ℕ) where
  | hash
  | lock (b : ℕ)
  | recheck (b : ℕ)
  | load (b : ℕ)
  | headNext (b : ℕ)
  | storeHead (b : ℕ) (next : Option (Fin N))
  | walk (b : ℕ) (parent : Fin N)
  | nodeNext (b : ℕ) (parent : Fin N)
  | storeParent (b : ℕ) (parent : Fin N) (next : Option (Fin N))
  | clear (b : ℕ)
  | unlock (b : ℕ) (removed : Bool)

/-- `disposeNode(node)`. -/
inductive DisposePC (N : ℕ) where
  | load
  | store (next : Ptr N)
  | cas (next : Ptr N)

/-- `allocateNode`, outside `requestPurge`. -/
inductive AllocatePC (N : ℕ) where
  | load
  | loadNext (node : Ptr N)
  | cas (node next : Ptr N)

/-- `purgeOld`, with `nodes_freed` so far. -/
inductive PurgePC (N : ℕ) where
  | tail
  | prev (node : Ptr N) (freed : ℕ)
  | test (n : Fin N) (next : Ptr N) (freed : ℕ)
  | bucket (n : Fin N) (next : Ptr N) (freed : ℕ) (pc : RemovePC N)
  | unlink (n : Fin N) (next : Ptr N) (freed : ℕ) (pc : UnlinkPC N)
  | onDelete (n : Fin N) (next : Ptr N) (freed : ℕ)
  | count (n : Fin N) (next : Ptr N) (freed : ℕ)
  | dispose (n : Fin N) (next : Ptr N) (freed : ℕ) (pc : DisposePC N)

/-- `pullRecent`, with the end `prev` of the temporary list. -/
inductive PullPC (N : ℕ) where
  | exchange
  | reset (slice : Ptr N)
  | initHead (slice : Ptr N)
  | prev (current prev : Ptr N)
  | skipLoad (n : Fin N) (prev : Ptr N)
  | skipStore (n : Fin N) (next prev : Ptr N)
  | unlink (n : Fin N) (prev : Ptr N) (pc : UnlinkPC N)
  | appendNext (n : Fin N) (prev : Ptr N)
  | appendPrev (n : Fin N) (prev : Ptr N)
  | takenLoad (n : Fin N)
  | takenStore (n : Fin N) (next : Ptr N)
  | first (prev : Ptr N)
  | add (first last : Ptr N) (pc : AddPC N)

/-- `consolidateCache`, with the raise of the flag in `requestPull` or `requestPurge` before it. -/
inductive ConsolidatePC (N : ℕ) where
  | raisePull
  | raisePurge
  | tryLock
  | testPurge
  | purge (pc : PurgePC N)
  | clearPurge
  | testPull
  | pull (pc : PullPC N)
  | clearPull
  | unlock

/-- `find(key, consumer)`. -/
inductive FindPC (N : ℕ) (V : Type) where
  | lock
  | load
  | key (n : Fin N)
  | next (n : Fin N)
  | value (n : Fin N)
  | mark (n : Fin N) (consumer : V) (pc : MarkPC N)
  | unlock (consumer : Option V)
  | threshold (consumer : Option V)

/-- `insert(key, value)`. -/
inductive InsertPC (N : ℕ) where
  | count
  | allocate (pc : AllocatePC N)
  | key (n : Fin N)
  | value (n : Fin N)
  | guard (n : Fin N)
  | bucket (n : Fin N) (pc : LinkPC N)
  | add (n : Fin N) (pc : AddPC N)
  | reset (n : Fin N)

/-- A call. The two requests are private to the class; `find` and `insert` make them too. -/
inductive Call (K V : Type) where
  | find (k : K)
  | insert (k : K) (v : V)
  /-- The call whose producer returns `x`. -/
  | consumeCachedOrCompute (k : K) (x : V)
  | requestPull
  | requestPurge

/-- Where `consolidateCache` returns to. -/
inductive Back (K V : Type) where
  | request
  | find (producer : Option V) (k : K) (consumer : Option V)
  | insert (consume : Bool) (k : K) (v : V)

/-- Where a thread stands. A `find` on behalf of `consumeCachedOrCompute` carries what the producer
    would return, an `insert` on its behalf is flagged. -/
inductive PC (N : ℕ) (K V : Type) where
  | idle
  /-- A `consumeCachedOrCompute` has returned, and `v` was assigned to the consumer. -/
  | delivered (k : K) (v : V)
  | find (producer : Option V) (k : K) (pc : FindPC N V)
  | insert (consume : Bool) (k : K) (v : V) (pc : InsertPC N)
  | consolidate (back : Back K V) (pc : ConsolidatePC N)

/-! ## Accesses -/

/-- One access to the shared state. -/
inductive Act (N : ℕ) (K V : Type) where
  /-- A load, a failed compare-exchange or a failed `try_lock`. -/
  | read
  | setPullRequest (r : Bool)
  | setPurgeRequest (r : Bool)
  | lockLru
  | unlockLru
  | lockBucket (b : ℕ)
  | unlockBucket (b : ℕ)
  | countUp
  | countDown
  | setEmptyHead (p : Ptr N)
  | setKey (n : Fin N) (k : K)
  | setValue (n : Fin N) (v : V)
  | setRecent (n : Fin N) (p : Ptr N)
  | setRecentHead (p : Ptr N)
  | recentUp
  | recentReset
  | setBucketNext (n : Fin N) (q : Option (Fin N))
  | setBucket (b : ℕ) (q : Option (Fin N))
  | setNext (p q : Ptr N)
  | setPrev (p q : Ptr N)

/-- The shared memory with the mutexes and the program counters of the threads. -/
structure State (N : ℕ) (K V T : Type) where
  mem : Mem N K V
  lruLock : Option T
  bucketLock : ℕ → Option T
  pc : T → PC N K V

/-- `bucket_nr & bucketLockIndexMask()`. -/
def lockIndex (b : ℕ) : ℕ := b % 2 ^ 15

/-- What an access does to the memory. -/
def Act.onMem (m : Mem N K V) : Act N K V → Mem N K V
  | .setPullRequest r => { m with pullRequest := r }
  | .setPurgeRequest r => { m with purgeRequest := r }
  | .countUp => { m with currentElementCount := m.currentElementCount + 1 }
  | .countDown => { m with currentElementCount := m.currentElementCount - 1 }
  | .setEmptyHead p => { m with emptyHead := p }
  | .setKey n k => m.setKey n k
  | .setValue n v => m.setValue n v
  | .setRecent n p => m.setRecent n p
  | .setRecentHead p => { m with recentHead := p }
  | .recentUp => { m with recentCount := m.recentCount + 1 }
  | .recentReset => { m with recentCount := 0 }
  | .setBucketNext n q => m.setBucketNext n q
  | .setBucket b q => m.setBucket b q
  | .setNext p q => m.setNext p q
  | .setPrev p q => m.setPrev p q
  | _ => m

/-- What an access of thread `t` does to `lru_lock_`. -/
def Act.onLruLock (t : T) (l : Option T) : Act N K V → Option T
  | .lockLru => some t
  | .unlockLru => none
  | _ => l

/-- What an access of thread `t` does to the bucket locks. -/
def Act.onBucketLock (t : T) (l : ℕ → Option T) : Act N K V → ℕ → Option T
  | .lockBucket b => Function.update l (lockIndex b) (some t)
  | .unlockBucket b => Function.update l (lockIndex b) none
  | _ => l

/-! ## The functions, access by access

`none` as the new program counter of a callee says that it returns. -/

/-- `fails` is a spurious failure of the compare-exchange. -/
def nextAdd (m : Mem N K V) (fails : Bool) (first last : Ptr N) :
    AddPC N → Option (Act N K V × Option (AddPC N))
  | .storePrev => if first.isBase then some (.setPrev first .lruHead, some .load) else none
  | .load => some (.read, some (.storeNext (m.lruNext .lruHead)))
  | .storeNext c => if last.isBase then some (.setNext last c, some (.cas c)) else none
  | .cas c =>
      if m.lruNext .lruHead = c ∧ fails = false then
        some (.setNext .lruHead first, some (.repair c))
      else some (.read, some (.storeNext (m.lruNext .lruHead)))
  | .repair c => if c.isBase then some (.setPrev c last, none) else none

/-- Only the addresses of `NodeBase`s are written to. -/
def nextUnlink (m : Mem N K V) (n : Fin N) :
    UnlinkPC N → Option (Act N K V × Option (UnlinkPC N))
  | .loadPrev => some (.read, some (.loadNext (m.lruPrev (.node n))))
  | .loadNext prev => some (.read, some (.storeNext prev (m.lruNext (.node n))))
  | .storeNext prev next =>
      if prev.isBase then some (.setNext prev next, some (.storePrev prev next)) else none
  | .storePrev prev next => if next.isBase then some (.setPrev next prev, none) else none

/-- `none` as the new program counter says that the call returns. -/
def nextMark (m : Mem N K V) (fails : Bool) (n : Fin N) :
    MarkPC N → Option (Act N K V × Option (MarkPC N))
  | .test => some (.read, if m.markedRecent n then none else some .load)
  | .load => some (.read, some (.store m.recentHead false))
  | .store p _ => some (.setRecent n p, some (.cas p))
  | .cas p =>
      if m.recentHead = p ∧ fails = false then some (.setRecentHead (.node n), some .count)
      else some (.read, some (.store m.recentHead true))
  | .count => some (.recentUp, none)

/-- `none` as the new program counter says that the call returns; the lock is waited for. -/
def nextLink (cfg : Config N K) (s : State N K V T) (n : Fin N) :
    LinkPC N → Option (Act N K V × Option (LinkPC N))
  | .hash => some (.read, some (.lock (cfg.keyToBucketNr (s.mem.key n))))
  | .lock b =>
      if (s.bucketLock (lockIndex b)).isNone then some (.lockBucket b, some (.load b)) else none
  | .load b => some (.read, some (.storeNext b (s.mem.buckets b)))
  | .storeNext b head => some (.setBucketNext n head, some (.storeHead b))
  | .storeHead b => some (.setBucket b (some n), some (.unlock b))
  | .unlock b => some (.unlockBucket b, none)

/-- The loop of `removeNodeFromBucket` on `parent`. -/
def walkTo (b : ℕ) : Option (Fin N) → RemovePC N
  | none => .unlock b false
  | some parent => .walk b parent

/-- The second component is the new program counter, or the returned value. -/
def nextRemove (cfg : Config N K) (s : State N K V T) (n : Fin N) :
    RemovePC N → Option (Act N K V × (RemovePC N ⊕ Bool))
  | .hash => some (.read, .inl (.lock (cfg.keyToBucketNr (s.mem.key n))))
  | .lock b =>
      if (s.bucketLock (lockIndex b)).isNone then some (.lockBucket b, .inl (.recheck b)) else none
  | .recheck b => some (.read, .inl (if s.mem.markedRecent n then .unlock b false else .load b))
  | .load b =>
      some (.read, .inl (if s.mem.buckets b = some n then .headNext b else walkTo b (s.mem.buckets b)))
  | .headNext b => some (.read, .inl (.storeHead b (s.mem.bucketNext n)))
  | .storeHead b q => some (.setBucket b q, .inl (.clear b))
  | .walk b p =>
      some (.read, .inl (if s.mem.bucketNext p = some n then .nodeNext b p
        else walkTo b (s.mem.bucketNext p)))
  | .nodeNext b p => some (.read, .inl (.storeParent b p (s.mem.bucketNext n)))
  | .storeParent b p q => some (.setBucketNext p q, .inl (.clear b))
  | .clear b => some (.setBucketNext n none, .inl (.unlock b true))
  | .unlock b removed => some (.unlockBucket b, .inr removed)

/-- `none` as the new program counter says that the call returns. -/
def nextDispose (m : Mem N K V) (fails : Bool) (n : Fin N) :
    DisposePC N → Option (Act N K V × Option (DisposePC N))
  | .load => some (.read, some (.store m.emptyHead))
  | .store p => some (.setNext (.node n) p, some (.cas p))
  | .cas p =>
      if m.emptyHead = p ∧ fails = false then some (.setEmptyHead (.node n), none)
      else some (.read, some (.store m.emptyHead))

/-- The condition of the loop of `purgeOld`, whose parameter is not zero. -/
def purgeAt (cfg : Config N K) (node : Ptr N) (freed : ℕ) : Option (PurgePC N) :=
  if node = .lruHead ∨ cfg.purgeThreshold ≤ freed then none else some (.prev node freed)

/-- One access of `purgeOld`, with those of the functions that it calls. -/
def nextPurge (cfg : Config N K) (s : State N K V T) (fails : Bool) :
    PurgePC N → Option (Act N K V × Option (PurgePC N))
  | .tail => some (.read, purgeAt cfg (s.mem.lruPrev .lruTail) 0)
  | .prev (.node n) freed =>
      some (.read, if s.mem.lruPrev (.node n) = .lruHead then none
        else some (.test n (s.mem.lruPrev (.node n)) freed))
  | .prev _ _ => none
  | .test n next freed =>
      some (.read, if s.mem.markedRecent n then purgeAt cfg next freed
        else some (.bucket n next freed .hash))
  | .bucket n next freed p =>
      (nextRemove cfg s n p).map fun (act, p') => (act, match p' with
        | .inl p' => some (.bucket n next freed p')
        | .inr true => some (.unlink n next freed .loadPrev)
        | .inr false => purgeAt cfg next freed)
  | .unlink n next freed p =>
      (nextUnlink s.mem n p).map fun (act, p') => (act, match p' with
        | some p' => some (.unlink n next freed p')
        | none => some (.onDelete n next freed))
  | .onDelete n next freed => some (.read, some (.count n next freed))
  | .count n next freed => some (.countDown, some (.dispose n next freed .load))
  | .dispose n next freed p =>
      (nextDispose s.mem fails n p).map fun (act, p') => (act, match p' with
        | some p' => some (.dispose n next freed p')
        | none => purgeAt cfg next (freed + 1))

/-- The condition of the loop of `pullRecent`, and the test after it. -/
def pullAt (current prev : Ptr N) : Option (PullPC N) :=
  if current = .dummy then (if prev = .localHead then none else some (.first prev))
  else some (.prev current prev)

/-- One access of `pullRecent`, with those of the functions that it calls. -/
def nextPull (m : Mem N K V) (fails : Bool) :
    PullPC N → Option (Act N K V × Option (PullPC N))
  | .exchange => some (.setRecentHead .dummy, some (.reset m.recentHead))
  | .reset slice => some (.recentReset, some (.initHead slice))
  | .initHead slice => some (.setNext .localHead .null, pullAt slice .localHead)
  | .prev (.node n) prev =>
      some (.read, some (if m.lruPrev (.node n) = .lruHead then .skipLoad n prev
        else .unlink n prev .loadPrev))
  | .prev _ _ => none
  | .skipLoad n prev => some (.read, some (.skipStore n (m.recentNext n) prev))
  | .skipStore n next prev => some (.setRecent n .null, pullAt next prev)
  | .unlink n prev p =>
      (nextUnlink m n p).map fun (act, p') => (act, match p' with
        | some p' => some (.unlink n prev p')
        | none => some (.appendNext n prev))
  | .appendNext n prev =>
      if prev.isBase then some (.setNext prev (.node n), some (.appendPrev n prev)) else none
  | .appendPrev n prev => some (.setPrev (.node n) prev, some (.takenLoad n))
  | .takenLoad n => some (.read, some (.takenStore n (m.recentNext n)))
  | .takenStore n next => some (.setRecent n .null, pullAt next (.node n))
  | .first prev => some (.read, some (.add (m.lruNext .localHead) prev .storePrev))
  | .add first last p =>
      (nextAdd m fails first last p).map fun (act, p') => (act, match p' with
        | some p' => some (.add first last p')
        | none => none)

/-- The end of a `find`; `consumeCachedOrCompute` inserts if the key was not found. -/
def afterFind (producer : Option V) (k : K) (consumer : Option V) : PC N K V :=
  match producer, consumer with
  | none, _ => .idle
  | some _, some v => .delivered k v
  | some x, none => .insert true k x .count

/-- Where the caller goes on. -/
def Back.pc : Back K V → PC N K V
  | .request => .idle
  | .find producer k consumer => afterFind producer k consumer
  | .insert consume k v => .insert consume k v (.allocate .load)

/-- One access of `consolidateCache`, which returns at once if `try_lock` fails. -/
def nextConsolidate (cfg : Config N K) (s : State N K V T) (fails : Bool) (back : Back K V) :
    ConsolidatePC N → Option (Act N K V × PC N K V)
  | .raisePull => some (.setPullRequest true, .consolidate back .tryLock)
  | .raisePurge => some (.setPurgeRequest true, .consolidate back .tryLock)
  | .tryLock =>
      if s.lruLock.isNone then some (.lockLru, .consolidate back .testPurge)
      else some (.read, back.pc)
  | .testPurge =>
      some (.read, .consolidate back (if s.mem.purgeRequest then .purge .tail else .testPull))
  | .purge p =>
      (nextPurge cfg s fails p).map fun (act, p') => (act, match p' with
        | some p' => .consolidate back (.purge p')
        | none => .consolidate back .clearPurge)
  | .clearPurge => some (.setPurgeRequest false, .consolidate back .testPull)
  | .testPull =>
      some (.read, .consolidate back (if s.mem.pullRequest then .pull .exchange else .unlock))
  | .pull p =>
      (nextPull s.mem fails p).map fun (act, p') => (act, match p' with
        | some p' => .consolidate back (.pull p')
        | none => .consolidate back .clearPull)
  | .clearPull => some (.setPullRequest false, .consolidate back .unlock)
  | .unlock => some (.unlockLru, back.pc)

/-- The node just loaded from `empty_head_`, in the loop of `allocateNode`. -/
def allocateAt (consume : Bool) (k : K) (v : V) : Ptr N → PC N K V
  | .null => .consolidate (.insert consume k v) .raisePurge
  | p => .insert consume k v (.allocate (.loadNext p))

/-- One access of `insert`, with those of the functions that it calls. -/
def nextInsert (cfg : Config N K) (s : State N K V T) (fails consume : Bool) (k : K) (v : V) :
    InsertPC N → Option (Act N K V × PC N K V)
  | .count => some (.countUp, .insert consume k v (.allocate .load))
  | .allocate .load => some (.read, allocateAt consume k v s.mem.emptyHead)
  | .allocate (.loadNext p) =>
      if p.isBase then some (.read, .insert consume k v (.allocate (.cas p (s.mem.lruNext p))))
      else none
  | .allocate (.cas p next) =>
      if s.mem.emptyHead = p ∧ fails = false then
        match p with
        | .node n => some (.setEmptyHead next, .insert consume k v (.key n))
        | _ => none
      else some (.read, allocateAt consume k v s.mem.emptyHead)
  | .key n => some (.setKey n k, .insert consume k v (.value n))
  | .value n => some (.setValue n v, .insert consume k v (.guard n))
  | .guard n => some (.setRecent n .dummy, .insert consume k v (.bucket n .hash))
  | .bucket n p =>
      (nextLink cfg s n p).map fun (act, p') => (act, match p' with
        | some p' => .insert consume k v (.bucket n p')
        | none => .insert consume k v (.add n .storePrev))
  | .add n p =>
      (nextAdd s.mem fails (.node n) (.node n) p).map fun (act, p') => (act, match p' with
        | some p' => .insert consume k v (.add n p')
        | none => .insert consume k v (.reset n))
  | .reset n => some (.setRecent n .null, if consume then .delivered k v else .idle)

/-- The loop of `searchBucket` on `node`. -/
def searchAt : Option (Fin N) → FindPC N V
  | none => .unlock none
  | some n => .key n

/-- One access of `find`, with those of the functions that it calls. -/
def nextFind [DecidableEq K] (cfg : Config N K) (s : State N K V T) (fails : Bool)
    (producer : Option V) (k : K) : FindPC N V → Option (Act N K V × PC N K V)
  | .lock =>
      if (s.bucketLock (lockIndex (cfg.keyToBucketNr k))).isNone then
        some (.lockBucket (cfg.keyToBucketNr k), .find producer k .load)
      else none
  | .load => some (.read, .find producer k (searchAt (s.mem.buckets (cfg.keyToBucketNr k))))
  | .key n => some (.read, .find producer k (if s.mem.key n = k then .value n else .next n))
  | .next n => some (.read, .find producer k (searchAt (s.mem.bucketNext n)))
  | .value n => some (.read, .find producer k (.mark n (s.mem.value n) .test))
  | .mark n r p =>
      (nextMark s.mem fails n p).map fun (act, p') => (act, match p' with
        | some p' => .find producer k (.mark n r p')
        | none => .find producer k (.unlock (some r)))
  | .unlock r => some (.unlockBucket (cfg.keyToBucketNr k), .find producer k (.threshold r))
  | .threshold r =>
      some (.read, if recentThresholdHit cfg s.mem then .consolidate (.find producer k r) .raisePull
        else afterFind producer k r)

/-- The entry of a call. -/
def Call.pc : Call K V → PC N K V
  | .find k => .find none k .lock
  | .insert k v => .insert false k v .count
  | .consumeCachedOrCompute k x => .find (some x) k .lock
  | .requestPull => .consolidate .request .raisePull
  | .requestPurge => .consolidate .request .raisePurge

/-! ## Steps and runs -/

/-- What the scheduler chooses for a thread: the call it makes next, or one access of the running
    call. -/
inductive Move (K V : Type) where
  | call (c : Call K V)
  | go (fails : Bool)

variable [DecidableEq K]

/-- The call that a thread at rest makes, or the next access of the running one. -/
def next (cfg : Config N K) (s : State N K V T) : PC N K V → Move K V → Option (Act N K V × PC N K V)
  | .idle, .call c => some (.read, c.pc)
  | .delivered _ _, .call c => some (.read, c.pc)
  | .find producer k p, .go fails => nextFind cfg s fails producer k p
  | .insert consume k v p, .go fails => nextInsert cfg s fails consume k v p
  | .consolidate back p, .go fails => nextConsolidate cfg s fails back p
  | _, _ => none

/-- The cases of `next`: a thread calls a function, or the running one makes an access. -/
inductive Transition (cfg : Config N K) (s : State N K V T) :
    PC N K V → Move K V → Act N K V → PC N K V → Prop
  | call {pc : PC N K V} (hpc : pc = .idle ∨ ∃ k v, pc = .delivered k v) (c : Call K V) :
      Transition cfg s pc (.call c) .read c.pc
  | find {producer : Option V} {k : K} {p : FindPC N V} {fails : Bool} {act : Act N K V}
      {pc' : PC N K V} (h : nextFind cfg s fails producer k p = some (act, pc')) :
      Transition cfg s (.find producer k p) (.go fails) act pc'
  | insert {consume : Bool} {k : K} {v : V} {p : InsertPC N} {fails : Bool} {act : Act N K V}
      {pc' : PC N K V} (h : nextInsert cfg s fails consume k v p = some (act, pc')) :
      Transition cfg s (.insert consume k v p) (.go fails) act pc'
  | consolidate {back : Back K V} {p : ConsolidatePC N} {fails : Bool} {act : Act N K V}
      {pc' : PC N K V} (h : nextConsolidate cfg s fails back p = some (act, pc')) :
      Transition cfg s (.consolidate back p) (.go fails) act pc'

theorem next_transition {cfg : Config N K} {s : State N K V T} {pc pc' : PC N K V}
    {move : Move K V} {act : Act N K V} (h : next cfg s pc move = some (act, pc')) :
    Transition cfg s pc move act pc' := by
  cases pc <;> cases move <;> simp only [next, reduceCtorEq] at h
  case idle.call c =>
    cases h
    exact .call (Or.inl rfl) c
  case delivered.call k v c =>
    cases h
    exact .call (Or.inr ⟨k, v, rfl⟩) c
  case find.go => exact .find h
  case insert.go => exact .insert h
  case consolidate.go => exact .consolidate h

variable [DecidableEq T]

/-- Thread `t` makes the access `act` and goes to `pc'`. -/
def State.apply (s : State N K V T) (t : T) (act : Act N K V) (pc' : PC N K V) : State N K V T where
  mem := act.onMem s.mem
  lruLock := act.onLruLock t s.lruLock
  bucketLock := act.onBucketLock t s.bucketLock
  pc := Function.update s.pc t pc'

/-- One step of thread `t`, with the access it makes. -/
def step (cfg : Config N K) (s : State N K V T) (t : T) (move : Move K V) :
    Option (Act N K V × State N K V T) :=
  (next cfg s (s.pc t) move).map fun (act, pc') => (act, s.apply t act pc')

/-- A fresh cache and threads that have not called anything. -/
def initial (N : ℕ) (K V T : Type) [Inhabited K] [Inhabited V] : State N K V T where
  mem := allocateMemory N K V
  lruLock := none
  bucketLock _ := none
  pc _ := .idle

/-- A step as it stands in a run: the thread, where it stood, its move and its access. -/
structure Label (N : ℕ) (K V T : Type) where
  thread : T
  pc : PC N K V
  move : Move K V
  act : Act N K V

/-- The states reached by steps that all meet `ok`, with the steps made, oldest first. -/
inductive Run [Inhabited K] [Inhabited V] (cfg : Config N K)
    (ok : State N K V T → Label N K V T → Prop) :
    State N K V T → List (Label N K V T) → Prop
  | start : Run cfg ok (initial N K V T) []
  | step {s s' : State N K V T} {trace : List (Label N K V T)} {t : T} {move : Move K V}
      {act : Act N K V} : Run cfg ok s trace → step cfg s t move = some (act, s') →
      ok s ⟨t, s.pc t, move, act⟩ → Run cfg ok s' (trace ++ [⟨t, s.pc t, move, act⟩])

/-- Plays the moves of a schedule; each step must pass the check. -/
def play (cfg : Config N K) (check : State N K V T → Label N K V T → Bool) :
    State N K V T → List (T × Move K V) → Option (State N K V T × List (Label N K V T))
  | s, [] => some (s, [])
  | s, (t, move) :: moves =>
      match step cfg s t move with
      | none => none
      | some (act, s') =>
          if check s ⟨t, s.pc t, move, act⟩ then
            (play cfg check s' moves).map fun r => (r.1, ⟨t, s.pc t, move, act⟩ :: r.2)
          else none

theorem Run.play [Inhabited K] [Inhabited V] {cfg : Config N K}
    {ok : State N K V T → Label N K V T → Prop} {check : State N K V T → Label N K V T → Bool}
    (hcheck : ∀ s l, check s l = true → ok s l) {s s' : State N K V T}
    {trace trace' : List (Label N K V T)} {moves : List (T × Move K V)} (h : Run cfg ok s trace)
    (hplay : Threads.play cfg check s moves = some (s', trace')) : Run cfg ok s' (trace ++ trace') := by
  induction moves generalizing s trace trace' with
  | nil =>
      cases hplay
      rw [List.append_nil]
      exact h
  | cons move moves ih =>
      obtain ⟨t, move⟩ := move
      simp only [Threads.play] at hplay
      cases hstep : Threads.step cfg s t move with
      | none =>
          rw [hstep] at hplay
          cases hplay
      | some r =>
          obtain ⟨act, s₁⟩ := r
          rw [hstep] at hplay
          dsimp only at hplay
          split_ifs at hplay with hc
          obtain ⟨⟨s₂, rest⟩, hrest, heq⟩ := Option.map_eq_some_iff.1 hplay
          cases heq
          rw [List.append_cons]
          exact ih (h.step hstep (hcheck _ _ hc)) hrest

omit [DecidableEq K] [DecidableEq T] in
/-- The `n` next accesses of the thread, without spurious failures. -/
def goes (t : T) (n : ℕ) : List (T × Move K V) := List.replicate n (t, .go false)

/-- A schedule that can be played to a good end shows that the end is reachable. -/
theorem Run.of_play [Inhabited K] [Inhabited V] (cfg : Config N K)
    (ok : State N K V T → Label N K V T → Prop) (check : State N K V T → Label N K V T → Bool)
    (hcheck : ∀ s l, check s l = true → ok s l) (moves : List (T × Move K V))
    (good : State N K V T → List (Label N K V T) → Bool)
    (h : (Threads.play cfg check (initial N K V T) moves).any (fun r => good r.1 r.2) = true) :
    ∃ s trace, Run cfg ok s trace ∧ good s trace = true := by
  cases hplay : Threads.play cfg check (initial N K V T) moves with
  | none =>
      rw [hplay] at h
      cases h
  | some r =>
      rw [hplay] at h
      exact ⟨r.1, r.2, Run.start.play hcheck hplay, h⟩

end DeferredLru.Threads
