import DeferredLru.Lib.Schedule
import Mathlib.Algebra.Group.Nat.Defs
import Mathlib.Data.Fin.Basic
import Mathlib.Logic.Function.Basic

set_option autoImplicit false

/-! # `ConcurrentLRU`

The list with a lock in each node of `benchmark/src/containers/concurrent_lru.h`, cut into its single
shared accesses, sequentially consistent. A thread stands at a program counter (`PC`, one inductive
per source function); `next` is the access it makes there, an `Act` on the shared state, and where it
goes. The links that a splice changes under the locks of the nodes are changed in one access.

Lock bit, flags and bucket link of a `folly::PackedSyncPtr` are independent. A thread waits at the
lock of a node or a bucket that is taken; `current_element_count_` is no atomic, so that its updates
are a load and a store.

`htInsert` returns `true` on every path, and the branch of `insert` for `false`, the only one that
puts a node back into the pool, is left out. -/

namespace DeferredLru.ConcurrentLru

variable {N : ℕ} {K V T : Type}

/-! ## Shared state -/

/-- A `Node*`: an element of `data_` or one of the four ends. -/
inductive Ptr (N : ℕ) where
  | null
  | node (n : Fin N)
  | lruHead
  | lruTail
  | poolHead
  | poolTail
  deriving DecidableEq

/-- The template and constructor arguments of a cache for `N` elements. -/
structure Config (N : ℕ) (K : Type) where
  hasher : K → ℕ
  ignoreBitsInHash : ℕ
  loadFactor : ℕ
  loadFactor_pos : 1 ≤ loadFactor
  capacity_pos : 1 ≤ N
  capacity_lt : N < 2 ^ 63

namespace Config

/-- The size of `ht_`. -/
def bucketCount (cfg : Config N K) : ℕ := (N + cfg.loadFactor - 1) / cfg.loadFactor

/-- `whichBucket(key)`. -/
def whichBucket (cfg : Config N K) (k : K) : ℕ :=
  (cfg.hasher k >>> cfg.ignoreBitsInHash) % cfg.bucketCount

end Config

/-- The members of the cache, with those of its nodes, but for the locks. -/
structure Mem (N : ℕ) (K V : Type) where
  lruNext : Ptr N → Ptr N
  lruPrev : Ptr N → Ptr N
  key : Fin N → K
  value : Fin N → V
  lruFlag : Fin N → Bool
  htFlag : Fin N → Bool
  htNext : Fin N → Option (Fin N)
  ht : ℕ → Option (Fin N)
  currentElementCount : ℕ

/-- `allocateMemory`. -/
def allocateMemory (N : ℕ) (K V : Type) [Inhabited K] [Inhabited V] : Mem N K V where
  lruNext
    | .lruHead => .lruTail
    | .poolHead => if h : 0 < N then .node ⟨0, h⟩ else .null
    | .node n => if h : n.val + 1 < N then .node ⟨n.val + 1, h⟩ else .poolTail
    | _ => .null
  lruPrev
    | .lruTail => .lruHead
    | .poolTail => if h : 0 < N then .node ⟨N - 1, by omega⟩ else .null
    | .node n => if n.val = 0 then .poolHead else .node ⟨n.val - 1, by omega⟩
    | _ => .null
  key _ := default
  value _ := default
  lruFlag _ := false
  htFlag _ := false
  htNext _ := none
  ht _ := none
  currentElementCount := 0

/-! ## Program counters -/

/-- `listEvictNext(prev, last_node)`. -/
inductive EvictPC (N : ℕ) where
  | lockPrev
  | load
  | unlockEmpty
  | lockNode (n : Fin N)
  | loadNext (n : Fin N)
  | lockNext (n : Fin N) (next : Ptr N)
  | splice (n : Fin N) (next : Ptr N)
  | unlockPrev (n : Fin N) (next : Ptr N)
  | unlockNext (n : Fin N) (next : Ptr N)
  | clear (n : Fin N)

/-- `listInsertBefore(node, new_prev)`. -/
inductive InsertBeforePC (N : ℕ) where
  | load
  | lockPrev (prev : Ptr N)
  | test (prev : Ptr N)
  | retry (prev : Ptr N)
  | lockNode (prev : Ptr N)
  | splice (prev : Ptr N)
  | unlockPrev (prev : Ptr N)
  | unlockNode

/-- `lruRemoveNode(node)`. -/
inductive RemovePC (N : ℕ) where
  | load
  | tryLock (prev : Ptr N)
  | unlockNode (prev : Ptr N)
  | lockPrev (prev : Ptr N)
  | test (prev : Ptr N)
  | lockSame (prev : Ptr N)
  | testSame (prev : Ptr N)
  | unlockGone (prev : Ptr N)
  | unlockChanged (prev : Ptr N)
  | lockChanged
  | testChanged
  | loadNext (prev : Ptr N)
  | lockNext (prev next : Ptr N)
  | splice (prev next : Ptr N)
  | unlockPrev (prev next : Ptr N)
  | unlockNext (next : Ptr N)
  | clear

/-- `htInsert(node)`. -/
inductive HtInsertPC where
  | hash
  | lock (b : ℕ)
  | setNext (b : ℕ)
  | setHead (b : ℕ)
  | setFlag (b : ℕ)
  | unlock (b : ℕ)

/-- `htFind(key)`. -/
inductive HtFindPC (N : ℕ) where
  | lock
  | load
  | compare (n : Fin N)
  | next (n : Fin N)
  | unlock (r : Option (Fin N))

/-- `htRemove(node)`, where no `prev` stands for the bucket itself. -/
inductive HtRemovePC (N : ℕ) where
  | hash
  | lock (b : ℕ)
  | load (b : ℕ)
  | walk (b : ℕ) (prev current : Option (Fin N))
  | tryLock (b : ℕ) (prev : Fin N)
  | setNext (b : ℕ) (prev : Option (Fin N))
  | unlockPrev (b : ℕ) (prev : Fin N)
  | clearNext (b : ℕ)
  | clearFlag (b : ℕ)
  | unlock (b : ℕ) (r : Bool)

/-- `find(key, consumer)`. -/
inductive FindPC (N : ℕ) (V : Type) where
  | search (pc : HtFindPC N)
  | lock (n : Fin N)
  | test (n : Fin N)
  | value (n : Fin N)
  | remove (n : Fin N) (consumer : V) (pc : RemovePC N)
  | insertLast (n : Fin N) (consumer : V) (pc : InsertBeforePC N)
  | unlock (n : Fin N) (consumer : Option V)

/-- `insert(key, value)`, up to `value` inside `acquireFreeNode`. -/
inductive InsertPC (N : ℕ) where
  | getNodeFromPool (pc : EvictPC N)
  | lruEvictHead (pc : EvictPC N)
  | unsetFlag (n : Fin N)
  | await (n : Fin N)
  | htRemove (n : Fin N) (pc : HtRemovePC N)
  | onDelete (n : Fin N)
  | loadDown (n : Fin N)
  | storeDown (n : Fin N) (count : ℕ)
  | key (n : Fin N)
  | value (n : Fin N)
  | loadUp (n : Fin N)
  | storeUp (n : Fin N) (count : ℕ)
  | setFlag (n : Fin N)
  | insertLast (n : Fin N) (pc : InsertBeforePC N)
  | htInsert (n : Fin N) (pc : HtInsertPC)
  | unlock (n : Fin N)

/-- A call. -/
inductive Call (K V : Type) where
  | find (k : K)
  | insert (k : K) (v : V)
  /-- The call whose producer returns `x`. -/
  | consumeCachedOrCompute (k : K) (x : V)

/-- Where a thread stands. A `find` on behalf of `consumeCachedOrCompute` carries what the producer
    would return. -/
inductive PC (N : ℕ) (K V : Type) where
  | idle
  | find (producer : Option V) (k : K) (pc : FindPC N V)
  | insert (k : K) (v : V) (pc : InsertPC N)

/-! ## Accesses -/

/-- One access to the shared state. -/
inductive Act (N : ℕ) (K V : Type) where
  /-- A load or a failed `try_lock`. -/
  | read
  | lock (p : Ptr N)
  | unlock (p : Ptr N)
  | lockBucket (b : ℕ)
  | unlockBucket (b : ℕ)
  /-- Makes the two nodes neighbours. -/
  | join (prev next : Ptr N)
  /-- Puts the node between two neighbours. -/
  | insertBetween (prev : Ptr N) (n : Fin N) (next : Ptr N)
  | clearLinks (n : Fin N)
  | setKey (n : Fin N) (k : K)
  | setValue (n : Fin N) (v : V)
  | lruSetFlag (n : Fin N) (set : Bool)
  | htSetFlag (n : Fin N) (set : Bool)
  | htSetNext (n : Fin N) (q : Option (Fin N))
  | setHt (b : ℕ) (q : Option (Fin N))
  | setCount (c : ℕ)

/-- The shared memory with the locks and the program counters of the threads. -/
structure State (N : ℕ) (K V T : Type) where
  mem : Mem N K V
  nodeLock : Ptr N → Option T
  bucketLock : ℕ → Option T
  pc : T → PC N K V

/-- What an access does to the memory. -/
def Act.onMem (m : Mem N K V) : Act N K V → Mem N K V
  | .join prev next =>
      { m with
        lruNext := Function.update m.lruNext prev next
        lruPrev := Function.update m.lruPrev next prev }
  | .insertBetween prev n next =>
      { m with
        lruNext := Function.update (Function.update m.lruNext prev (.node n)) (.node n) next
        lruPrev := Function.update (Function.update m.lruPrev (.node n) prev) next (.node n) }
  | .clearLinks n =>
      { m with
        lruNext := Function.update m.lruNext (.node n) .null
        lruPrev := Function.update m.lruPrev (.node n) .null }
  | .setKey n k => { m with key := Function.update m.key n k }
  | .setValue n v => { m with value := Function.update m.value n v }
  | .lruSetFlag n set => { m with lruFlag := Function.update m.lruFlag n set }
  | .htSetFlag n set => { m with htFlag := Function.update m.htFlag n set }
  | .htSetNext n q => { m with htNext := Function.update m.htNext n q }
  | .setHt b q => { m with ht := Function.update m.ht b q }
  | .setCount c => { m with currentElementCount := c }
  | _ => m

/-- What an access of thread `t` does to the locks of the nodes. -/
def Act.onNodeLock (t : T) (l : Ptr N → Option T) : Act N K V → Ptr N → Option T
  | .lock p => Function.update l p (some t)
  | .unlock p => Function.update l p none
  | _ => l

/-- What an access of thread `t` does to the locks of the buckets. -/
def Act.onBucketLock (t : T) (l : ℕ → Option T) : Act N K V → ℕ → Option T
  | .lockBucket b => Function.update l b (some t)
  | .unlockBucket b => Function.update l b none
  | _ => l

/-- A lock can be taken if it is free, and if there is one: a null pointer has none. -/
def Act.enabled (s : State N K V T) : Act N K V → Bool
  | .lock p => p ≠ .null && (s.nodeLock p).isNone
  | .lockBucket b => (s.bucketLock b).isNone
  | _ => true

/-! ## The functions, access by access -/

/-- The second component is the new program counter, or the returned node. -/
def nextEvict (m : Mem N K V) (prev last : Ptr N) :
    EvictPC N → Option (Act N K V × (EvictPC N ⊕ Option (Fin N)))
  | .lockPrev => some (.lock prev, .inl .load)
  | .load =>
      if m.lruNext prev = last then some (.read, .inl .unlockEmpty)
      else match m.lruNext prev with
        | .node n => some (.read, .inl (.lockNode n))
        | _ => none
  | .unlockEmpty => some (.unlock prev, .inr none)
  | .lockNode n => some (.lock (.node n), .inl (.loadNext n))
  | .loadNext n => some (.read, .inl (.lockNext n (m.lruNext (.node n))))
  | .lockNext n next => some (.lock next, .inl (.splice n next))
  | .splice n next => some (.join prev next, .inl (.unlockPrev n next))
  | .unlockPrev n next => some (.unlock prev, .inl (.unlockNext n next))
  | .unlockNext n next => some (.unlock next, .inl (.clear n))
  | .clear n => some (.clearLinks n, .inr (some n))

/-- `none` as the new program counter says that the call returns. -/
def nextInsertBefore (m : Mem N K V) (node : Ptr N) (n : Fin N) :
    InsertBeforePC N → Act N K V × Option (InsertBeforePC N)
  | .load => (.read, some (.lockPrev (m.lruPrev node)))
  | .lockPrev p => (.lock p, some (.test p))
  | .test p => (.read, some (if m.lruNext p = node then .lockNode p else .retry p))
  | .retry p => (.unlock p, some .load)
  | .lockNode p => (.lock node, some (.splice p))
  | .splice p => (.insertBetween p n node, some (.unlockPrev p))
  | .unlockPrev p => (.unlock p, some .unlockNode)
  | .unlockNode => (.unlock node, none)

/-- The second component is the new program counter, or the returned value. -/
def nextRemove (s : State N K V T) (n : Fin N) : RemovePC N → Act N K V × (RemovePC N ⊕ Bool)
  | .load => (.read, .inl (.tryLock (s.mem.lruPrev (.node n))))
  | .tryLock p =>
      if (s.nodeLock p).isNone then (.lock p, .inl (.loadNext p)) else (.read, .inl (.unlockNode p))
  | .unlockNode p => (.unlock (.node n), .inl (.lockPrev p))
  | .lockPrev p => (.lock p, .inl (.test p))
  | .test p => (.read, .inl (if s.mem.lruNext p = .node n then .lockSame p else .unlockChanged p))
  | .lockSame p => (.lock (.node n), .inl (.testSame p))
  | .testSame p => (.read, .inl (if s.mem.lruFlag n then .loadNext p else .unlockGone p))
  | .unlockGone p => (.unlock p, .inr false)
  | .unlockChanged p => (.unlock p, .inl .lockChanged)
  | .lockChanged => (.lock (.node n), .inl .testChanged)
  | .testChanged => (.read, if s.mem.lruFlag n then .inl .load else .inr false)
  | .loadNext p => (.read, .inl (.lockNext p (s.mem.lruNext (.node n))))
  | .lockNext p next => (.lock next, .inl (.splice p next))
  | .splice p next => (.join p next, .inl (.unlockPrev p next))
  | .unlockPrev p next => (.unlock p, .inl (.unlockNext next))
  | .unlockNext next => (.unlock next, .inl .clear)
  | .clear => (.clearLinks n, .inr true)

/-- `none` as the new program counter says that the call returns. -/
def nextHtInsert (cfg : Config N K) (m : Mem N K V) (n : Fin N) :
    HtInsertPC → Act N K V × Option HtInsertPC
  | .hash => (.read, some (.lock (cfg.whichBucket (m.key n))))
  | .lock b => (.lockBucket b, some (.setNext b))
  | .setNext b => (.htSetNext n (m.ht b), some (.setHead b))
  | .setHead b => (.setHt b (some n), some (.setFlag b))
  | .setFlag b => (.htSetFlag n true, some (.unlock b))
  | .unlock b => (.unlockBucket b, none)

/-- The loop of `htFind` on `node`. -/
def htFindAt : Option (Fin N) → HtFindPC N
  | none => .unlock none
  | some n => .compare n

/-- The second component is the new program counter, or the returned node. -/
def nextHtFind [DecidableEq K] (cfg : Config N K) (m : Mem N K V) (k : K) :
    HtFindPC N → Act N K V × (HtFindPC N ⊕ Option (Fin N))
  | .lock => (.lockBucket (cfg.whichBucket k), .inl .load)
  | .load => (.read, .inl (htFindAt (m.ht (cfg.whichBucket k))))
  | .compare n => (.read, .inl (if m.key n = k then .unlock (some n) else .next n))
  | .next n => (.read, .inl (htFindAt (m.htNext n)))
  | .unlock r => (.unlockBucket (cfg.whichBucket k), .inr r)

/-- The loop of `htRemove`. -/
def htRemoveAt (m : Mem N K V) (n : Fin N) (b : ℕ) (prev : Option (Fin N)) :
    Option (Fin N) → HtRemovePC N
  | none => .unlock b true
  | some current =>
      if current = n then
        match prev with
        | none => .setNext b none
        | some p => .tryLock b p
      else .walk b (some current) (m.htNext current)

/-- The second component is the new program counter, or the returned value. -/
def nextHtRemove (cfg : Config N K) (s : State N K V T) (n : Fin N) :
    HtRemovePC N → Act N K V × (HtRemovePC N ⊕ Bool)
  | .hash => (.read, .inl (.lock (cfg.whichBucket (s.mem.key n))))
  | .lock b => (.lockBucket b, .inl (.load b))
  | .load b => (.read, .inl (.walk b none (s.mem.ht b)))
  | .walk b prev current => (.read, .inl (htRemoveAt s.mem n b prev current))
  | .tryLock b p =>
      if (s.nodeLock (.node p)).isNone then (.lock (.node p), .inl (.setNext b (some p)))
      else (.read, .inl (.unlock b false))
  | .setNext b none => (.setHt b (s.mem.htNext n), .inl (.clearNext b))
  | .setNext b (some p) => (.htSetNext p (s.mem.htNext n), .inl (.unlockPrev b p))
  | .unlockPrev b p => (.unlock (.node p), .inl (.clearNext b))
  | .clearNext b => (.htSetNext n none, .inl (.clearFlag b))
  | .clearFlag b => (.htSetFlag n false, .inl (.unlock b true))
  | .unlock b r => (.unlockBucket b, .inr r)

/-- `insert` runs `acquireFreeNode` first. -/
def InsertPC.start : InsertPC N := .getNodeFromPool .lockPrev

/-- The end of a `find`; `consumeCachedOrCompute` inserts if the key was not found. -/
def afterFind (producer : Option V) (k : K) (consumer : Option V) : PC N K V :=
  match producer, consumer with
  | some x, none => .insert k x .start
  | _, _ => .idle

/-- One access of `find`, with those of the functions that it calls. -/
def nextFind [DecidableEq K] (cfg : Config N K) (s : State N K V T) (producer : Option V) (k : K) :
    FindPC N V → Act N K V × PC N K V
  | .search p =>
      let (act, p') := nextHtFind cfg s.mem k p
      (act, match p' with
        | .inl p' => .find producer k (.search p')
        | .inr (some n) => .find producer k (.lock n)
        | .inr none => afterFind producer k none)
  | .lock n => (.lock (.node n), .find producer k (.test n))
  | .test n =>
      (.read, .find producer k
        (if s.mem.lruFlag n = true ∧ s.mem.key n = k then .value n else .unlock n none))
  | .value n => (.read, .find producer k (.remove n (s.mem.value n) .load))
  | .remove n r p =>
      let (act, p') := nextRemove s n p
      (act, .find producer k (match p' with
        | .inl p' => .remove n r p'
        | .inr true => .insertLast n r .load
        | .inr false => .unlock n (some r)))
  | .insertLast n r p =>
      let (act, p') := nextInsertBefore s.mem .lruTail n p
      (act, .find producer k (match p' with
        | some p' => .insertLast n r p'
        | none => .unlock n (some r)))
  | .unlock n r => (.unlock (.node n), afterFind producer k r)

/-- One access of `insert`, with those of the functions that it calls. -/
def nextInsert (cfg : Config N K) (s : State N K V T) (k : K) (v : V) :
    InsertPC N → Option (Act N K V × PC N K V)
  | .getNodeFromPool p =>
      (nextEvict s.mem .poolHead .poolTail p).map fun (act, p') => (act, .insert k v (match p' with
        | .inl p' => .getNodeFromPool p'
        | .inr (some n) => .key n
        | .inr none => .lruEvictHead .lockPrev))
  | .lruEvictHead p =>
      (nextEvict s.mem .lruHead .lruTail p).map fun (act, p') => (act, .insert k v (match p' with
        | .inl p' => .lruEvictHead p'
        | .inr (some n) => .unsetFlag n
        | .inr none => .start))
  | .unsetFlag n => some (.lruSetFlag n false, .insert k v (.await n))
  | .await n => some (.read, .insert k v (if s.mem.htFlag n then .htRemove n .hash else .await n))
  | .htRemove n p =>
      let (act, p') := nextHtRemove cfg s n p
      some (act, .insert k v (match p' with
        | .inl p' => .htRemove n p'
        | .inr true => .onDelete n
        | .inr false => .htRemove n .hash))
  | .onDelete n => some (.read, .insert k v (.loadDown n))
  | .loadDown n => some (.read, .insert k v (.storeDown n s.mem.currentElementCount))
  | .storeDown n c => some (.setCount ((c + (2 ^ 64 - 1)) % 2 ^ 64), .insert k v (.key n))
  | .key n => some (.setKey n k, .insert k v (.value n))
  | .value n => some (.setValue n v, .insert k v (.loadUp n))
  | .loadUp n => some (.read, .insert k v (.storeUp n s.mem.currentElementCount))
  | .storeUp n c => some (.setCount ((c + 1) % 2 ^ 64), .insert k v (.setFlag n))
  | .setFlag n => some (.lruSetFlag n true, .insert k v (.insertLast n .load))
  | .insertLast n p =>
      let (act, p') := nextInsertBefore s.mem .lruTail n p
      some (act, .insert k v (match p' with
        | some p' => .insertLast n p'
        | none => .htInsert n .hash))
  | .htInsert n p =>
      let (act, p') := nextHtInsert cfg s.mem n p
      some (act, .insert k v (match p' with
        | some p' => .htInsert n p'
        | none => .unlock n))
  | .unlock n => some (.unlock (.node n), .idle)

/-- The entry of a call. -/
def Call.pc : Call K V → PC N K V
  | .find k => .find none k (.search .lock)
  | .insert k v => .insert k v .start
  | .consumeCachedOrCompute k x => .find (some x) k (.search .lock)

/-! ## Steps and runs -/

/-- What the scheduler chooses for a thread: the call it makes next, or one access of the running
    call. -/
inductive Move (K V : Type) where
  | call (c : Call K V)
  | go

variable [DecidableEq K]

/-- The call that an idle thread makes, or the next access of the running one. -/
def next (cfg : Config N K) (s : State N K V T) : PC N K V → Move K V → Option (Act N K V × PC N K V)
  | .idle, .call c => some (.read, c.pc)
  | .find producer k p, .go => some (nextFind cfg s producer k p)
  | .insert k v p, .go => nextInsert cfg s k v p
  | _, _ => none

variable [DecidableEq T]

/-- Thread `t` makes the access `act` and goes to `pc'`. -/
def State.apply (s : State N K V T) (t : T) (act : Act N K V) (pc' : PC N K V) : State N K V T where
  mem := act.onMem s.mem
  nodeLock := act.onNodeLock t s.nodeLock
  bucketLock := act.onBucketLock t s.bucketLock
  pc := Function.update s.pc t pc'

/-- One step of thread `t`, with the access it makes. There is none while the thread has to wait for
    a lock. -/
def step (cfg : Config N K) (s : State N K V T) (t : T) (move : Move K V) :
    Option (Act N K V × State N K V T) :=
  (next cfg s (s.pc t) move).bind fun (act, pc') =>
    if act.enabled s then some (act, s.apply t act pc') else none

/-- A fresh cache and threads that have not called anything. -/
def initial (N : ℕ) (K V T : Type) [Inhabited K] [Inhabited V] : State N K V T where
  mem := allocateMemory N K V
  nodeLock _ := none
  bucketLock _ := none
  pc _ := .idle

/-- A step as it stands in a run: the thread, where it stood, its move and its access. -/
structure Label (N : ℕ) (K V T : Type) where
  thread : T
  pc : PC N K V
  move : Move K V
  act : Act N K V

/-- The states reached by steps that all meet `ok`, with the steps made, oldest first. -/
inductive Run [Inhabited K] [Inhabited V] (cfg : Config N K)
    (ok : State N K V T → Label N K V T → Prop) :
    State N K V T → List (Label N K V T) → Prop
  | start : Run cfg ok (initial N K V T) []
  | step {s s' : State N K V T} {trace : List (Label N K V T)} {t : T} {move : Move K V}
      {act : Act N K V} : Run cfg ok s trace → step cfg s t move = some (act, s') →
      ok s ⟨t, s.pc t, move, act⟩ → Run cfg ok s' (trace ++ [⟨t, s.pc t, move, act⟩])

/-- The step of a schedule. -/
def labelled (cfg : Config N K) (s : State N K V T) (move : T × Move K V) :
    Option (Label N K V T × State N K V T) :=
  (step cfg s move.1 move.2).map fun (act, s') => (⟨move.1, s.pc move.1, move.2, act⟩, s')

theorem Run.of_play [Inhabited K] [Inhabited V] (cfg : Config N K)
    (ok : State N K V T → Label N K V T → Prop) (check : State N K V T → Label N K V T → Bool)
    (hcheck : ∀ s l, check s l = true → ok s l) (moves : List (T × Move K V))
    (good : State N K V T → List (Label N K V T) → Bool)
    (h : (Intrusive.play (labelled cfg) check (initial N K V T) moves).any
      (fun r => good r.1 r.2) = true) :
    ∃ s trace, Run cfg ok s trace ∧ good s trace = true := by
  refine Intrusive.exists_of_play (fun s trace move l s' hrun hstep hc => ?_) Run.start moves good h
  obtain ⟨⟨act, s₁⟩, hact, heq⟩ := Option.map_eq_some_iff.1 hstep
  cases heq
  exact hrun.step hact (hcheck s _ hc)

omit [DecidableEq K] [DecidableEq T] in
/-- A call of the thread and its first `n` accesses. -/
def calls (t : T) (c : Call K V) (n : ℕ) : List (T × Move K V) :=
  (t, .call c) :: List.replicate n (t, .go)

omit [DecidableEq K] [DecidableEq T] in
/-- The `n` next accesses of the thread. -/
def goes (t : T) (n : ℕ) : List (T × Move K V) := List.replicate n (t, .go)

end DeferredLru.ConcurrentLru
