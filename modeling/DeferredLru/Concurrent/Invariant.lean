import DeferredLru.Concurrent.Machine
import DeferredLru.Lib.Chain
import DeferredLru.Lib.Ends
import DeferredLru.Lib.Locks
import DeferredLru.Lib.Trace

set_option autoImplicit false

/-! # The invariant of `ConcurrentLRU`

`Lists` is the abstract state: the two lists of nodes and the chains of the buckets. A node is at rest
in one of the lists, in the LRU list with both flags set and linked into the bucket of its key
(`Live`), or some thread holds its lock. All that a thread may rely on where it stands (`Standing`)
is about nodes and buckets whose locks it holds, and nobody else writes to these, nor moves them in
or out of a list (`Kept`).

`lruRemoveNode` may give up the lock of its node. What it finds when it has the lock again is a node
at rest, but not necessarily the one it left. -/

namespace DeferredLru.ConcurrentLru

open Intrusive

variable {N : ℕ} {K V T : Type} {cfg : Config N K} {m m' : Mem N K V}

/-! ## Lists -/

/-- The LRU list and the pool. -/
inductive ListId where
  | lru
  | pool

/-- The end from which nodes are taken. -/
def ListId.head : ListId → Ptr N
  | .lru => .lruHead
  | .pool => .poolHead

/-- The other end. -/
def ListId.tail : ListId → Ptr N
  | .lru => .lruTail
  | .pool => .poolTail

theorem ends (i : ListId) : Ends (Ptr.node (N := N)) i.head i.tail := by
  cases i <;> exact ⟨fun _ _ h => Ptr.node.inj h, nofun, nofun, nofun⟩

/-- The nodes of the two lists and of the buckets, in order. -/
structure Lists (N : ℕ) where
  lru : List (Fin N)
  pool : List (Fin N)
  bucket : ℕ → List (Fin N)

namespace Lists

/-- The nodes of one of the two lists. -/
def list (a : Lists N) : ListId → List (Fin N)
  | .lru => a.lru
  | .pool => a.pool

/-- The node is taken out of the list it is in. -/
def erase (a : Lists N) (n : Fin N) : Lists N := ⟨a.lru.erase n, a.pool.erase n, a.bucket⟩

/-- The node is put behind the LRU list. -/
def append (a : Lists N) (n : Fin N) : Lists N := ⟨a.lru ++ [n], a.pool, a.bucket⟩

/-- One bucket is replaced. -/
def setBucket (a : Lists N) (b : ℕ) (l : List (Fin N)) : Lists N :=
  ⟨a.lru, a.pool, Function.update a.bucket b l⟩

/-- The node is in neither of the two lists. -/
def Off (a : Lists N) (n : Fin N) : Prop := n ∉ a.lru ∧ n ∉ a.pool

/-- The node is in no bucket. -/
def Bare (a : Lists N) (n : Fin N) : Prop := ∀ b, n ∉ a.bucket b

end Lists

variable {a a' : Lists N}

/-- The memory links exactly these lists. -/
structure Shape (cfg : Config N K) (m : Mem N K V) (a : Lists N) : Prop where
  strung : ∀ i : ListId, Strung m.lruNext m.lruPrev .node i.head i.tail (a.list i)
  nodup : (a.lru ++ a.pool).Nodup
  chains : ∀ b, Chain m.htNext some (m.ht b) (a.bucket b) none
  hashed : ∀ b n, n ∈ a.bucket b → cfg.whichBucket (m.key n) = b
  pooled : ∀ n ∈ a.pool, m.lruFlag n = false ∧ a.Bare n

/-! ## Nodes -/

/-- Some `insert` has stored the value together with the key. -/
def Stored (trace : List (Label N K V T)) (k : K) (v : V) : Prop :=
  ∃ t n, ⟨t, .insert k v (.value n), .go, .setValue n v⟩ ∈ trace

variable {trace trace' : List (Label N K V T)} {k : K} {v : V}

theorem Stored.mono (h : Stored trace k v) : Stored (trace ++ trace') k v := by
  obtain ⟨t, n, hl⟩ := h
  exact ⟨t, n, List.mem_append_left _ hl⟩

/-- The node is linked into the bucket of its key, with the flag set. -/
def Hashed (cfg : Config N K) (m : Mem N K V) (a : Lists N) (n : Fin N) : Prop :=
  m.htFlag n = true ∧ n ∈ a.bucket (cfg.whichBucket (m.key n))

/-- The node holds a pair and can be found by its key. -/
structure Live (cfg : Config N K) (m : Mem N K V) (a : Lists N) (trace : List (Label N K V T))
    (n : Fin N) : Prop where
  flag : m.lruFlag n = true
  hashed : Hashed cfg m a n
  stored : Stored trace (m.key n) (m.value n)

/-- The node is in one of the lists, and nobody is working on it. -/
def AtRest (cfg : Config N K) (m : Mem N K V) (a : Lists N) (trace : List (Label N K V T))
    (n : Fin N) : Prop :=
  n ∈ a.lru ∧ Live cfg m a trace n ∨ n ∈ a.pool

/-- If this is the address of a node, the node is at rest. -/
def Rest (cfg : Config N K) (m : Mem N K V) (a : Lists N) (trace : List (Label N K V T))
    (p : Ptr N) : Prop :=
  ∀ n, p = .node n → AtRest cfg m a trace n

/-- Somewhere a node of the LRU list can come after. -/
def Front (p : Ptr N) : Prop := p = .lruHead ∨ ∃ n, p = .node n

/-! ## Locks held -/

/-- The locks that `listEvictNext` holds, the latest first. -/
def EvictPC.holds (prev : Ptr N) : EvictPC N → List (Ptr N)
  | .lockPrev => []
  | .load => [prev]
  | .unlockEmpty => [prev]
  | .lockNode _ => [prev]
  | .loadNext n => [.node n, prev]
  | .lockNext n _ => [.node n, prev]
  | .splice n next => [next, .node n, prev]
  | .unlockPrev n next => [next, .node n, prev]
  | .unlockNext n next => [next, .node n]
  | .clear n => [.node n]

/-- The locks held in `listInsertBefore`, with that of the node itself. -/
def InsertBeforePC.holds (node : Ptr N) (n : Fin N) : InsertBeforePC N → List (Ptr N)
  | .load => [.node n]
  | .lockPrev _ => [.node n]
  | .test p => [p, .node n]
  | .retry p => [p, .node n]
  | .lockNode p => [p, .node n]
  | .splice p => [node, p, .node n]
  | .unlockPrev p => [node, p, .node n]
  | .unlockNode => [node, .node n]

/-- The locks held in `lruRemoveNode`, which gives the lock of the node back on its slow path. -/
def RemovePC.holds (n : Fin N) : RemovePC N → List (Ptr N)
  | .load => [.node n]
  | .tryLock _ => [.node n]
  | .unlockNode _ => [.node n]
  | .lockPrev _ => []
  | .test p => [p]
  | .lockSame p => [p]
  | .testSame p => [.node n, p]
  | .unlockGone p => [.node n, p]
  | .unlockChanged p => [p]
  | .lockChanged => []
  | .testChanged => [.node n]
  | .loadNext p => [.node n, p]
  | .lockNext p _ => [.node n, p]
  | .splice p next => [next, .node n, p]
  | .unlockPrev p next => [next, .node n, p]
  | .unlockNext next => [next, .node n]
  | .clear => [.node n]

/-- The locks held in `htRemove`, with that of the node itself. -/
def HtRemovePC.holds (n : Fin N) : HtRemovePC N → List (Ptr N)
  | .setNext _ (some p) => [.node p, .node n]
  | .unlockPrev _ p => [.node p, .node n]
  | _ => [.node n]

/-- The locks of nodes held in a `find`. -/
def FindPC.holds : FindPC N V → List (Ptr N)
  | .search _ => []
  | .lock _ => []
  | .test n => [.node n]
  | .value n => [.node n]
  | .remove n _ p => p.holds n
  | .insertLast n _ p => p.holds .lruTail n
  | .unlock n _ => [.node n]

/-- The locks of nodes held in an `insert`. -/
def InsertPC.holds : InsertPC N → List (Ptr N)
  | .getNodeFromPool p => p.holds .poolHead
  | .lruEvictHead p => p.holds .lruHead
  | .unsetFlag n => [.node n]
  | .await n => [.node n]
  | .htRemove n p => p.holds n
  | .onDelete n => [.node n]
  | .loadDown n => [.node n]
  | .storeDown n _ => [.node n]
  | .key n => [.node n]
  | .value n => [.node n]
  | .loadUp n => [.node n]
  | .storeUp n _ => [.node n]
  | .setFlag n => [.node n]
  | .insertLast n p => p.holds .lruTail n
  | .htInsert n _ => [.node n]
  | .unlock n => [.node n]

/-- The nodes whose locks a thread holds. -/
def PC.holds : PC N K V → List (Ptr N)
  | .idle => []
  | .find _ _ p => p.holds
  | .insert _ _ p => p.holds

/-- The bucket whose lock `htInsert` holds. -/
def HtInsertPC.bucket : HtInsertPC → List ℕ
  | .hash => []
  | .lock _ => []
  | .setNext b => [b]
  | .setHead b => [b]
  | .setFlag b => [b]
  | .unlock b => [b]

/-- The bucket whose lock `htFind` holds. -/
def HtFindPC.bucket (b : ℕ) : HtFindPC N → List ℕ
  | .lock => []
  | _ => [b]

/-- The bucket whose lock `htRemove` holds. -/
def HtRemovePC.bucket : HtRemovePC N → List ℕ
  | .hash => []
  | .lock _ => []
  | .load b => [b]
  | .walk b _ _ => [b]
  | .tryLock b _ => [b]
  | .setNext b _ => [b]
  | .unlockPrev b _ => [b]
  | .clearNext b => [b]
  | .clearFlag b => [b]
  | .unlock b _ => [b]

/-- The bucket whose lock a thread holds. -/
def PC.bucket (cfg : Config N K) : PC N K V → List ℕ
  | .find _ k (.search p) => p.bucket (cfg.whichBucket k)
  | .insert _ _ (.htRemove _ p) => p.bucket
  | .insert _ _ (.htInsert _ p) => p.bucket
  | _ => []

/-! ## What a thread relies on -/

section Standing

variable (cfg m a) (trace : List (Label N K V T))

/-- What is known of a node that was just taken out of a list. -/
def Taken : ListId → Fin N → Prop
  | .lru, n => Live cfg m a trace n
  | .pool, n => a.Bare n

/-- What `listEvictNext` relies on: the links it has read, and later the node being its own. -/
def EvictPC.Standing (i : ListId) : EvictPC N → Prop
  | .lockPrev => True
  | .load => True
  | .unlockEmpty => True
  | .lockNode n => m.lruNext i.head = .node n
  | .loadNext n => m.lruNext i.head = .node n ∧ n ∈ a.list i ∧ Taken cfg m a trace i n
  | .lockNext n next => m.lruNext i.head = .node n ∧ n ∈ a.list i ∧ Taken cfg m a trace i n ∧
      m.lruNext (.node n) = next
  | .splice n next => m.lruNext i.head = .node n ∧ n ∈ a.list i ∧ Taken cfg m a trace i n ∧
      m.lruNext (.node n) = next ∧ Rest cfg m a trace next
  | .unlockPrev n next => a.Off n ∧ Taken cfg m a trace i n ∧ Rest cfg m a trace next
  | .unlockNext n next => a.Off n ∧ Taken cfg m a trace i n ∧ Rest cfg m a trace next
  | .clear n => a.Off n ∧ Taken cfg m a trace i n

/-- What `listInsertBefore` relies on: the node is in no list until it is spliced in. -/
def InsertBeforePC.Standing (n : Fin N) : InsertBeforePC N → Prop
  | .load => a.Off n
  | .lockPrev p => a.Off n ∧ Front p
  | .test p => a.Off n ∧ Front p ∧ Rest cfg m a trace p
  | .retry p => a.Off n ∧ Rest cfg m a trace p
  | .lockNode p => a.Off n ∧ Front p ∧ Rest cfg m a trace p ∧ m.lruNext p = .lruTail
  | .splice p => a.Off n ∧ Front p ∧ Rest cfg m a trace p ∧ m.lruNext p = .lruTail
  | .unlockPrev p => n ∈ a.lru ∧ Rest cfg m a trace p
  | .unlockNode => n ∈ a.lru

/-- What `lruRemoveNode` relies on: the links of the neighbours it has locked. -/
def RemovePC.Standing (n : Fin N) : RemovePC N → Prop
  | .load => n ∈ a.lru ∧ Live cfg m a trace n
  | .tryLock p => n ∈ a.lru ∧ Live cfg m a trace n ∧ m.lruPrev (.node n) = p
  | .unlockNode p => n ∈ a.lru ∧ Live cfg m a trace n ∧ Front p
  | .lockPrev p => Front p
  | .test p => Front p ∧ Rest cfg m a trace p
  | .lockSame p => Front p ∧ Rest cfg m a trace p ∧ m.lruNext p = .node n
  | .testSame p => Front p ∧ Rest cfg m a trace p ∧ m.lruNext p = .node n ∧ AtRest cfg m a trace n
  | .unlockGone p => Rest cfg m a trace p ∧ AtRest cfg m a trace n
  | .unlockChanged p => Rest cfg m a trace p
  | .lockChanged => True
  | .testChanged => AtRest cfg m a trace n
  | .loadNext p => n ∈ a.lru ∧ Live cfg m a trace n ∧ m.lruPrev (.node n) = p ∧
      Rest cfg m a trace p
  | .lockNext p next => n ∈ a.lru ∧ Live cfg m a trace n ∧ m.lruPrev (.node n) = p ∧
      Rest cfg m a trace p ∧ m.lruNext (.node n) = next
  | .splice p next => n ∈ a.lru ∧ Live cfg m a trace n ∧ m.lruPrev (.node n) = p ∧
      Rest cfg m a trace p ∧ m.lruNext (.node n) = next ∧ Rest cfg m a trace next
  | .unlockPrev p next => a.Off n ∧ Live cfg m a trace n ∧ Rest cfg m a trace p ∧
      Rest cfg m a trace next
  | .unlockNext next => a.Off n ∧ Live cfg m a trace n ∧ Rest cfg m a trace next
  | .clear => a.Off n ∧ Live cfg m a trace n

/-- What `htInsert` relies on: the node is in no bucket, and then in that of its key. -/
def HtInsertPC.Standing (n : Fin N) : HtInsertPC → Prop
  | .hash => a.Bare n
  | .lock b => a.Bare n ∧ b = cfg.whichBucket (m.key n)
  | .setNext b => a.Bare n ∧ b = cfg.whichBucket (m.key n)
  | .setHead b => a.Bare n ∧ b = cfg.whichBucket (m.key n) ∧ m.htNext n = m.ht b
  | .setFlag _ => n ∈ a.bucket (cfg.whichBucket (m.key n))
  | .unlock _ => Hashed cfg m a n

/-- What `htFind` relies on: it stands in the bucket. -/
def HtFindPC.Standing (b : ℕ) : HtFindPC N → Prop
  | .compare n => n ∈ a.bucket b
  | .next n => n ∈ a.bucket b
  | _ => True

/-- `htRemove` has passed the nodes up to `prev` and stands before `current`. -/
def Passed (b : ℕ) (n : Fin N) (prev current : Option (Fin N)) : Prop :=
  ∃ l₁ l₂, a.bucket b = l₁ ++ l₂ ∧ l₁.getLast? = prev ∧ l₂.head? = current ∧ n ∈ l₂

/-- What `htRemove` relies on: the node is hashed, and the walk has it still ahead. -/
def HtRemovePC.Standing (n : Fin N) : HtRemovePC N → Prop
  | .hash => Hashed cfg m a n
  | .lock b => Hashed cfg m a n ∧ b = cfg.whichBucket (m.key n)
  | .load b => Hashed cfg m a n ∧ b = cfg.whichBucket (m.key n)
  | .walk b prev current => Hashed cfg m a n ∧ b = cfg.whichBucket (m.key n) ∧
      Passed a b n prev current
  | .tryLock b p => Hashed cfg m a n ∧ b = cfg.whichBucket (m.key n) ∧ Passed a b n (some p) (some n)
  | .setNext b none => b = cfg.whichBucket (m.key n) ∧ Passed a b n none (some n)
  | .setNext b (some p) => b = cfg.whichBucket (m.key n) ∧ Passed a b n (some p) (some n) ∧
      AtRest cfg m a trace p
  | .unlockPrev _ p => a.Bare n ∧ AtRest cfg m a trace p
  | .clearNext _ => a.Bare n
  | .clearFlag _ => a.Bare n
  | .unlock _ true => a.Bare n
  | .unlock _ false => Hashed cfg m a n

/-- What a `find` relies on: the node it has locked, and the value it has read. -/
def FindPC.Standing (k : K) : FindPC N V → Prop
  | .search p => p.Standing a (cfg.whichBucket k)
  | .lock _ => True
  | .test n => AtRest cfg m a trace n
  | .value n => n ∈ a.lru ∧ Live cfg m a trace n ∧ m.key n = k
  | .remove n r p => p.Standing cfg m a trace n ∧ Stored trace k r
  | .insertLast n r p => p.Standing cfg m a trace n ∧ Live cfg m a trace n ∧ Stored trace k r
  | .unlock n r => AtRest cfg m a trace n ∧ ∀ v ∈ r, Stored trace k v

/-- What is known of the new node of an `insert` until it is hashed. -/
def Filled (n : Fin N) : Prop := m.lruFlag n = true ∧ Stored trace (m.key n) (m.value n)

/-- What an `insert` relies on: where its node is, and how far it is filled. -/
def InsertPC.Standing (k : K) (v : V) : InsertPC N → Prop
  | .getNodeFromPool p => p.Standing cfg m a trace .pool
  | .lruEvictHead p => p.Standing cfg m a trace .lru
  | .unsetFlag n => a.Off n ∧ Hashed cfg m a n
  | .await n => a.Off n ∧ Hashed cfg m a n
  | .htRemove n p => a.Off n ∧ p.Standing cfg m a trace n
  | .onDelete n => a.Off n ∧ a.Bare n
  | .loadDown n => a.Off n ∧ a.Bare n
  | .storeDown n _ => a.Off n ∧ a.Bare n
  | .key n => a.Off n ∧ a.Bare n
  | .value n => a.Off n ∧ a.Bare n ∧ m.key n = k
  | .loadUp n => a.Off n ∧ a.Bare n ∧ m.key n = k ∧ m.value n = v ∧ Stored trace k v
  | .storeUp n _ => a.Off n ∧ a.Bare n ∧ m.key n = k ∧ m.value n = v ∧ Stored trace k v
  | .setFlag n => a.Off n ∧ a.Bare n ∧ m.key n = k ∧ m.value n = v ∧ Stored trace k v
  | .insertLast n p => p.Standing cfg m a trace n ∧ a.Bare n ∧ Filled m trace n
  | .htInsert n p => n ∈ a.lru ∧ p.Standing cfg m a n ∧ Filled m trace n
  | .unlock n => n ∈ a.lru ∧ Live cfg m a trace n

/-- What holds where a thread stands. -/
def Standing : PC N K V → Prop
  | .idle => True
  | .find _ k p => p.Standing cfg m a trace k
  | .insert k v p => p.Standing cfg m a trace k v

end Standing

/-- **The invariant.** -/
structure Inv (cfg : Config N K) (s : State N K V T) (a : Lists N) (trace : List (Label N K V T)) :
    Prop where
  shape : Shape cfg s.mem a
  nodes : Held PC.holds s.pc s.nodeLock
  buckets : Held (PC.bucket cfg) s.pc s.bucketLock
  rest : ∀ n, s.nodeLock (.node n) = none → AtRest cfg s.mem a trace n
  standing : ∀ t, Standing cfg s.mem a trace (s.pc t)
  found : ∀ past l rest, trace = past ++ l :: rest → ∀ producer k n v,
    l.pc = .find producer k (.unlock n (some v)) → Stored past k v

/-! ## Threads that do not move -/

/-- Nothing happens to these nodes and buckets. -/
structure Kept (nodes : List (Ptr N)) (buckets : List ℕ) (m m' : Mem N K V) (a a' : Lists N) :
    Prop where
  links : ∀ p ∈ nodes, m'.lruNext p = m.lruNext p ∧ m'.lruPrev p = m.lruPrev p
  contents : ∀ n, .node n ∈ nodes → m'.key n = m.key n ∧ m'.value n = m.value n ∧
    m'.lruFlag n = m.lruFlag n ∧ m'.htFlag n = m.htFlag n ∧ m'.htNext n = m.htNext n
  places : ∀ n, .node n ∈ nodes → (n ∈ a'.lru ↔ n ∈ a.lru) ∧ (n ∈ a'.pool ↔ n ∈ a.pool) ∧
    ∀ b, n ∈ a'.bucket b ↔ n ∈ a.bucket b
  buckets : ∀ b ∈ buckets, m'.ht b = m.ht b ∧ a'.bucket b = a.bucket b

namespace Kept

variable {nodes : List (Ptr N)} {buckets : List ℕ} {n : Fin N} {p : Ptr N}

theorem mono {nodes' : List (Ptr N)} {buckets' : List ℕ} (h : Kept nodes buckets m m' a a')
    (hn : ∀ p ∈ nodes', p ∈ nodes) (hb : ∀ b ∈ buckets', b ∈ buckets) :
    Kept nodes' buckets' m m' a a' :=
  ⟨fun p hp => h.links p (hn p hp), fun n hp => h.contents n (hn _ hp),
    fun n hp => h.places n (hn _ hp), fun b hp => h.buckets b (hb b hp)⟩

theorem off (h : Kept nodes buckets m m' a a') (hn : .node n ∈ nodes) : a'.Off n ↔ a.Off n := by
  obtain ⟨hlru, hpool, -⟩ := h.places n hn
  rw [Lists.Off, Lists.Off, hlru, hpool]

theorem bare (h : Kept nodes buckets m m' a a') (hn : .node n ∈ nodes) : a'.Bare n ↔ a.Bare n :=
  forall_congr' fun b => not_congr ((h.places n hn).2.2 b)

theorem hashed (h : Kept nodes buckets m m' a a') (hn : .node n ∈ nodes) :
    Hashed cfg m' a' n ↔ Hashed cfg m a n := by
  obtain ⟨hkey, -, -, hflag, -⟩ := h.contents n hn
  rw [Hashed, Hashed, hkey, hflag, (h.places n hn).2.2]

theorem live (h : Kept nodes buckets m m' a a') (hn : .node n ∈ nodes)
    (hl : Live cfg m a trace n) : Live cfg m' a' (trace ++ trace') n := by
  obtain ⟨hkey, hvalue, hflag, -⟩ := h.contents n hn
  refine ⟨hflag.trans hl.flag, (h.hashed hn).2 hl.hashed, ?_⟩
  rw [hkey, hvalue]
  exact hl.stored.mono

theorem atRest (h : Kept nodes buckets m m' a a') (hn : .node n ∈ nodes)
    (hr : AtRest cfg m a trace n) : AtRest cfg m' a' (trace ++ trace') n := by
  obtain ⟨hlru, hpool, -⟩ := h.places n hn
  exact hr.imp (fun ⟨hm, hl⟩ => ⟨hlru.2 hm, h.live hn hl⟩) hpool.2

theorem rest (h : Kept nodes buckets m m' a a') (hp : p ∈ nodes) (hr : Rest cfg m a trace p) :
    Rest cfg m' a' (trace ++ trace') p := by
  rintro n rfl
  exact h.atRest hp (hr n rfl)

theorem taken {i : ListId} (h : Kept nodes buckets m m' a a') (hn : .node n ∈ nodes)
    (ht : Taken cfg m a trace i n) : Taken cfg m' a' (trace ++ trace') i n := by
  cases i with
  | lru => exact h.live hn ht
  | pool => exact (h.bare hn).2 ht

theorem mem_list {i : ListId} (h : Kept nodes buckets m m' a a') (hn : .node n ∈ nodes) :
    n ∈ a'.list i ↔ n ∈ a.list i := by
  cases i with
  | lru => exact (h.places n hn).1
  | pool => exact (h.places n hn).2.1

theorem evict {i : ListId} {pc : EvictPC N} (h : Kept (pc.holds i.head) buckets m m' a a')
    (hs : pc.Standing cfg m a trace i) : pc.Standing cfg m' a' (trace ++ trace') i := by
  cases pc with
  | lockPrev => trivial
  | load => trivial
  | unlockEmpty => trivial
  | lockNode n => exact (h.links _ (by simp [EvictPC.holds])).1.trans hs
  | loadNext n =>
      have hn : Ptr.node n ∈ (EvictPC.loadNext n).holds i.head := by simp [EvictPC.holds]
      obtain ⟨hnext, hmem, htaken⟩ := hs
      exact ⟨(h.links _ (by simp [EvictPC.holds])).1.trans hnext, (h.mem_list hn).2 hmem,
        h.taken hn htaken⟩
  | lockNext n next =>
      have hn : Ptr.node n ∈ (EvictPC.lockNext n next).holds i.head := by simp [EvictPC.holds]
      obtain ⟨hnext, hmem, htaken, hlink⟩ := hs
      exact ⟨(h.links _ (by simp [EvictPC.holds])).1.trans hnext, (h.mem_list hn).2 hmem,
        h.taken hn htaken, (h.links _ hn).1.trans hlink⟩
  | splice n next =>
      have hn : Ptr.node n ∈ (EvictPC.splice n next).holds i.head := by simp [EvictPC.holds]
      obtain ⟨hnext, hmem, htaken, hlink, hrest⟩ := hs
      exact ⟨(h.links _ (by simp [EvictPC.holds])).1.trans hnext, (h.mem_list hn).2 hmem,
        h.taken hn htaken, (h.links _ hn).1.trans hlink, h.rest (by simp [EvictPC.holds]) hrest⟩
  | unlockPrev n next =>
      have hn : Ptr.node n ∈ (EvictPC.unlockPrev n next).holds i.head := by simp [EvictPC.holds]
      exact ⟨(h.off hn).2 hs.1, h.taken hn hs.2.1, h.rest (by simp [EvictPC.holds]) hs.2.2⟩
  | unlockNext n next =>
      have hn : Ptr.node n ∈ (EvictPC.unlockNext n next).holds i.head := by simp [EvictPC.holds]
      exact ⟨(h.off hn).2 hs.1, h.taken hn hs.2.1, h.rest (by simp [EvictPC.holds]) hs.2.2⟩
  | clear n =>
      have hn : Ptr.node n ∈ (EvictPC.clear n).holds i.head := by simp [EvictPC.holds]
      exact ⟨(h.off hn).2 hs.1, h.taken hn hs.2⟩

theorem insertBefore {pc : InsertBeforePC N} (h : Kept (pc.holds .lruTail n) buckets m m' a a')
    (hs : pc.Standing cfg m a trace n) : pc.Standing cfg m' a' (trace ++ trace') n := by
  have hn : Ptr.node n ∈ pc.holds .lruTail n := by cases pc <;> simp [InsertBeforePC.holds]
  cases pc with
  | load => exact (h.off hn).2 hs
  | lockPrev p => exact ⟨(h.off hn).2 hs.1, hs.2⟩
  | test p =>
      exact ⟨(h.off hn).2 hs.1, hs.2.1, h.rest (by simp [InsertBeforePC.holds]) hs.2.2⟩
  | retry p => exact ⟨(h.off hn).2 hs.1, h.rest (by simp [InsertBeforePC.holds]) hs.2⟩
  | lockNode p =>
      obtain ⟨hoff, hfront, hrest, hnext⟩ := hs
      have hp : p ∈ (InsertBeforePC.lockNode p).holds .lruTail n := by simp [InsertBeforePC.holds]
      exact ⟨(h.off hn).2 hoff, hfront, h.rest hp hrest, (h.links p hp).1.trans hnext⟩
  | splice p =>
      obtain ⟨hoff, hfront, hrest, hnext⟩ := hs
      have hp : p ∈ (InsertBeforePC.splice p).holds .lruTail n := by simp [InsertBeforePC.holds]
      exact ⟨(h.off hn).2 hoff, hfront, h.rest hp hrest, (h.links p hp).1.trans hnext⟩
  | unlockPrev p =>
      exact ⟨(h.places n hn).1.2 hs.1, h.rest (by simp [InsertBeforePC.holds]) hs.2⟩
  | unlockNode => exact (h.places n hn).1.2 hs

theorem remove {pc : RemovePC N} (h : Kept (pc.holds n) buckets m m' a a')
    (hs : pc.Standing cfg m a trace n) : pc.Standing cfg m' a' (trace ++ trace') n := by
  cases pc with
  | load =>
      have hn : Ptr.node n ∈ (RemovePC.load).holds n := by simp [RemovePC.holds]
      exact ⟨(h.places n hn).1.2 hs.1, h.live hn hs.2⟩
  | tryLock p =>
      have hn : Ptr.node n ∈ (RemovePC.tryLock p).holds n := by simp [RemovePC.holds]
      exact ⟨(h.places n hn).1.2 hs.1, h.live hn hs.2.1, (h.links _ hn).2.trans hs.2.2⟩
  | unlockNode p =>
      have hn : Ptr.node n ∈ (RemovePC.unlockNode p).holds n := by simp [RemovePC.holds]
      exact ⟨(h.places n hn).1.2 hs.1, h.live hn hs.2.1, hs.2.2⟩
  | lockPrev p => exact hs
  | test p => exact ⟨hs.1, h.rest (by simp [RemovePC.holds]) hs.2⟩
  | lockSame p =>
      have hp : p ∈ (RemovePC.lockSame p).holds n := by simp [RemovePC.holds]
      exact ⟨hs.1, h.rest hp hs.2.1, (h.links p hp).1.trans hs.2.2⟩
  | testSame p =>
      have hp : p ∈ (RemovePC.testSame p).holds n := by simp [RemovePC.holds]
      obtain ⟨hfront, hrest, hnext, hn⟩ := hs
      exact ⟨hfront, h.rest hp hrest, (h.links p hp).1.trans hnext,
        h.atRest (by simp [RemovePC.holds]) hn⟩
  | unlockGone p =>
      exact ⟨h.rest (by simp [RemovePC.holds]) hs.1, h.atRest (by simp [RemovePC.holds]) hs.2⟩
  | unlockChanged p => exact h.rest (by simp [RemovePC.holds]) hs
  | lockChanged => trivial
  | testChanged => exact h.atRest (by simp [RemovePC.holds]) hs
  | loadNext p =>
      have hn : Ptr.node n ∈ (RemovePC.loadNext p).holds n := by simp [RemovePC.holds]
      obtain ⟨hmem, hlive, hprev, hrest⟩ := hs
      exact ⟨(h.places n hn).1.2 hmem, h.live hn hlive, (h.links _ hn).2.trans hprev,
        h.rest (by simp [RemovePC.holds]) hrest⟩
  | lockNext p next =>
      have hn : Ptr.node n ∈ (RemovePC.lockNext p next).holds n := by simp [RemovePC.holds]
      obtain ⟨hmem, hlive, hprev, hrest, hnext⟩ := hs
      exact ⟨(h.places n hn).1.2 hmem, h.live hn hlive, (h.links _ hn).2.trans hprev,
        h.rest (by simp [RemovePC.holds]) hrest, (h.links _ hn).1.trans hnext⟩
  | splice p next =>
      have hn : Ptr.node n ∈ (RemovePC.splice p next).holds n := by simp [RemovePC.holds]
      obtain ⟨hmem, hlive, hprev, hrest, hnext, hrest'⟩ := hs
      exact ⟨(h.places n hn).1.2 hmem, h.live hn hlive, (h.links _ hn).2.trans hprev,
        h.rest (by simp [RemovePC.holds]) hrest, (h.links _ hn).1.trans hnext,
        h.rest (by simp [RemovePC.holds]) hrest'⟩
  | unlockPrev p next =>
      have hn : Ptr.node n ∈ (RemovePC.unlockPrev p next).holds n := by simp [RemovePC.holds]
      exact ⟨(h.off hn).2 hs.1, h.live hn hs.2.1, h.rest (by simp [RemovePC.holds]) hs.2.2.1,
        h.rest (by simp [RemovePC.holds]) hs.2.2.2⟩
  | unlockNext next =>
      have hn : Ptr.node n ∈ (RemovePC.unlockNext next).holds n := by simp [RemovePC.holds]
      exact ⟨(h.off hn).2 hs.1, h.live hn hs.2.1, h.rest (by simp [RemovePC.holds]) hs.2.2⟩
  | clear =>
      have hn : Ptr.node n ∈ (RemovePC.clear).holds n := by simp [RemovePC.holds]
      exact ⟨(h.off hn).2 hs.1, h.live hn hs.2⟩

theorem htInsert {pc : HtInsertPC} (h : Kept nodes pc.bucket m m' a a') (hn : .node n ∈ nodes)
    (hs : pc.Standing cfg m a n) : pc.Standing cfg m' a' n := by
  have hkey := (h.contents n hn).1
  cases pc with
  | hash => exact (h.bare hn).2 hs
  | lock b => exact ⟨(h.bare hn).2 hs.1, by rw [hkey]; exact hs.2⟩
  | setNext b => exact ⟨(h.bare hn).2 hs.1, by rw [hkey]; exact hs.2⟩
  | setHead b =>
      refine ⟨(h.bare hn).2 hs.1, by rw [hkey]; exact hs.2.1, ?_⟩
      rw [(h.contents n hn).2.2.2.2, (h.buckets b (by simp [HtInsertPC.bucket])).1]
      exact hs.2.2
  | setFlag b =>
      show n ∈ a'.bucket (cfg.whichBucket (m'.key n))
      rw [hkey]
      exact ((h.places n hn).2.2 _).2 hs
  | unlock b => exact (h.hashed hn).2 hs

theorem htFind {b : ℕ} {pc : HtFindPC N} (h : Kept nodes (pc.bucket b) m m' a a')
    (hs : pc.Standing a b) : pc.Standing a' b := by
  cases pc with
  | compare n =>
      show n ∈ a'.bucket b
      rw [(h.buckets b (by simp [HtFindPC.bucket])).2]
      exact hs
  | next n =>
      show n ∈ a'.bucket b
      rw [(h.buckets b (by simp [HtFindPC.bucket])).2]
      exact hs
  | lock => trivial
  | load => trivial
  | unlock r => trivial

theorem passed {b : ℕ} {prev current : Option (Fin N)} (h : Kept nodes buckets m m' a a')
    (hb : b ∈ buckets) (hs : Passed a b n prev current) : Passed a' b n prev current := by
  rw [Passed, (h.buckets b hb).2]
  exact hs

theorem htRemove {pc : HtRemovePC N} (h : Kept (pc.holds n) pc.bucket m m' a a')
    (hs : pc.Standing cfg m a trace n) : pc.Standing cfg m' a' (trace ++ trace') n := by
  have hn : Ptr.node n ∈ pc.holds n := by
    cases pc with
    | setNext b prev => cases prev <;> simp [HtRemovePC.holds]
    | _ => simp [HtRemovePC.holds]
  have hkey := (h.contents n hn).1
  cases pc with
  | hash => exact (h.hashed hn).2 hs
  | lock b => exact ⟨(h.hashed hn).2 hs.1, by rw [hkey]; exact hs.2⟩
  | load b => exact ⟨(h.hashed hn).2 hs.1, by rw [hkey]; exact hs.2⟩
  | walk b prev current =>
      exact ⟨(h.hashed hn).2 hs.1, by rw [hkey]; exact hs.2.1,
        h.passed (by simp [HtRemovePC.bucket]) hs.2.2⟩
  | tryLock b p =>
      exact ⟨(h.hashed hn).2 hs.1, by rw [hkey]; exact hs.2.1,
        h.passed (by simp [HtRemovePC.bucket]) hs.2.2⟩
  | setNext b prev =>
      cases prev with
      | none => exact ⟨by rw [hkey]; exact hs.1, h.passed (by simp [HtRemovePC.bucket]) hs.2⟩
      | some p =>
          exact ⟨by rw [hkey]; exact hs.1, h.passed (by simp [HtRemovePC.bucket]) hs.2.1,
            h.atRest (by simp [HtRemovePC.holds]) hs.2.2⟩
  | unlockPrev b p => exact ⟨(h.bare hn).2 hs.1, h.atRest (by simp [HtRemovePC.holds]) hs.2⟩
  | clearNext b => exact (h.bare hn).2 hs
  | clearFlag b => exact (h.bare hn).2 hs
  | unlock b r =>
      cases r with
      | true => exact (h.bare hn).2 hs
      | false => exact (h.hashed hn).2 hs

theorem find {pc : FindPC N V} (h : Kept pc.holds buckets m m' a a')
    (hb : ∀ p, pc = .search p → ∀ c ∈ p.bucket (cfg.whichBucket k), c ∈ buckets)
    (hs : pc.Standing cfg m a trace k) : pc.Standing cfg m' a' (trace ++ trace') k := by
  cases pc with
  | search p => exact (h.mono (fun _ hp => hp) (hb p rfl)).htFind hs
  | lock n => trivial
  | test n => exact h.atRest (by simp [FindPC.holds]) hs
  | value n =>
      have hn : Ptr.node n ∈ (FindPC.value (V := V) n).holds := by simp [FindPC.holds]
      exact ⟨(h.places n hn).1.2 hs.1, h.live hn hs.2.1, (h.contents n hn).1.trans hs.2.2⟩
  | remove n r p => exact ⟨Kept.remove h hs.1, hs.2.mono⟩
  | insertLast n r p =>
      have hn : Ptr.node n ∈ p.holds .lruTail n := by cases p <;> simp [InsertBeforePC.holds]
      exact ⟨Kept.insertBefore h hs.1, h.live hn hs.2.1, hs.2.2.mono⟩
  | unlock n r => exact ⟨h.atRest (by simp [FindPC.holds]) hs.1, fun v hv => (hs.2 v hv).mono⟩

theorem insert {pc : InsertPC N} (h : Kept pc.holds buckets m m' a a')
    (hb : ∀ c ∈ (PC.insert k v pc).bucket cfg, c ∈ buckets)
    (hs : pc.Standing cfg m a trace k v) : pc.Standing cfg m' a' (trace ++ trace') k v := by
  have hb' := h.mono (fun _ hp => hp) hb
  have hspare : ∀ n, .node n ∈ pc.holds → a.Off n ∧ a.Bare n → a'.Off n ∧ a'.Bare n :=
    fun n hn hs => ⟨(h.off hn).2 hs.1, (h.bare hn).2 hs.2⟩
  have hfresh : ∀ n, .node n ∈ pc.holds → a.Off n ∧ a.Bare n ∧ m.key n = k ∧ m.value n = v ∧
      Stored trace k v → a'.Off n ∧ a'.Bare n ∧ m'.key n = k ∧ m'.value n = v ∧
        Stored (trace ++ trace') k v := fun n hn hs =>
    ⟨(h.off hn).2 hs.1, (h.bare hn).2 hs.2.1, (h.contents n hn).1.trans hs.2.2.1,
      (h.contents n hn).2.1.trans hs.2.2.2.1, hs.2.2.2.2.mono⟩
  cases pc with
  | getNodeFromPool p => exact Kept.evict h hs
  | lruEvictHead p => exact Kept.evict h hs
  | unsetFlag n =>
      have hn : Ptr.node n ∈ (InsertPC.unsetFlag n).holds := by simp [InsertPC.holds]
      exact ⟨(h.off hn).2 hs.1, (h.hashed hn).2 hs.2⟩
  | await n =>
      have hn : Ptr.node n ∈ (InsertPC.await n).holds := by simp [InsertPC.holds]
      exact ⟨(h.off hn).2 hs.1, (h.hashed hn).2 hs.2⟩
  | htRemove n p =>
      have hn : Ptr.node n ∈ p.holds n := by
        cases p with
        | setNext b prev => cases prev <;> simp [HtRemovePC.holds]
        | _ => simp [HtRemovePC.holds]
      exact ⟨(h.off hn).2 hs.1, Kept.htRemove hb' hs.2⟩
  | onDelete n => exact hspare n (by simp [InsertPC.holds]) hs
  | loadDown n => exact hspare n (by simp [InsertPC.holds]) hs
  | storeDown n c => exact hspare n (by simp [InsertPC.holds]) hs
  | key n => exact hspare n (by simp [InsertPC.holds]) hs
  | value n =>
      have hn : Ptr.node n ∈ (InsertPC.value n).holds := by simp [InsertPC.holds]
      exact ⟨(h.off hn).2 hs.1, (h.bare hn).2 hs.2.1, (h.contents n hn).1.trans hs.2.2⟩
  | loadUp n => exact hfresh n (by simp [InsertPC.holds]) hs
  | storeUp n c => exact hfresh n (by simp [InsertPC.holds]) hs
  | setFlag n => exact hfresh n (by simp [InsertPC.holds]) hs
  | insertLast n p =>
      have hn : Ptr.node n ∈ p.holds .lruTail n := by cases p <;> simp [InsertBeforePC.holds]
      obtain ⟨hp, hbare, hflag, hstored⟩ := hs
      obtain ⟨hkey, hvalue, hflag', -⟩ := h.contents n hn
      refine ⟨Kept.insertBefore h hp, (h.bare hn).2 hbare, hflag'.trans hflag, ?_⟩
      rw [hkey, hvalue]
      exact hstored.mono
  | htInsert n p =>
      have hn : Ptr.node n ∈ (InsertPC.htInsert n p).holds := by simp [InsertPC.holds]
      obtain ⟨hmem, hp, hflag, hstored⟩ := hs
      obtain ⟨hkey, hvalue, hflag', -⟩ := h.contents n hn
      refine ⟨(h.places n hn).1.2 hmem, hb'.htInsert hn hp, hflag'.trans hflag, ?_⟩
      rw [hkey, hvalue]
      exact hstored.mono
  | unlock n =>
      have hn : Ptr.node n ∈ (InsertPC.unlock n).holds := by simp [InsertPC.holds]
      exact ⟨(h.places n hn).1.2 hs.1, h.live hn hs.2⟩

/-- What a thread relies on stays true. -/
theorem standing {pc : PC N K V} (h : Kept pc.holds (pc.bucket cfg) m m' a a')
    (hs : Standing cfg m a trace pc) : Standing cfg m' a' (trace ++ trace') pc := by
  cases pc with
  | idle => trivial
  | find producer k p =>
      refine Kept.find h ?_ hs
      rintro p rfl c hc
      exact hc
  | insert k v p => exact Kept.insert h (fun c hc => hc) hs

end Kept

/-! ## What a step does -/

/-- Nothing happens to other nodes and buckets than these. -/
structure Within (nodes : List (Ptr N)) (buckets : List ℕ) (m m' : Mem N K V) (a a' : Lists N) :
    Prop where
  links : ∀ p ∉ nodes, m'.lruNext p = m.lruNext p ∧ m'.lruPrev p = m.lruPrev p
  contents : ∀ n, .node n ∉ nodes → m'.key n = m.key n ∧ m'.value n = m.value n ∧
    m'.lruFlag n = m.lruFlag n ∧ m'.htFlag n = m.htFlag n ∧ m'.htNext n = m.htNext n
  places : ∀ n, .node n ∉ nodes → (n ∈ a'.lru ↔ n ∈ a.lru) ∧ (n ∈ a'.pool ↔ n ∈ a.pool) ∧
    ∀ b, n ∈ a'.bucket b ↔ n ∈ a.bucket b
  buckets : ∀ b ∉ buckets, m'.ht b = m.ht b ∧ a'.bucket b = a.bucket b

theorem Within.kept {nodes nodes' : List (Ptr N)} {buckets buckets' : List ℕ}
    (h : Within nodes buckets m m' a a') (hn : ∀ p ∈ nodes', p ∉ nodes)
    (hb : ∀ b ∈ buckets', b ∉ buckets) : Kept nodes' buckets' m m' a a' :=
  ⟨fun p hp => h.links p (hn p hp), fun n hp => h.contents n (hn _ hp),
    fun n hp => h.places n (hn _ hp), fun b hp => h.buckets b (hb b hp)⟩

theorem Within.refl {nodes : List (Ptr N)} {buckets : List ℕ} : Within nodes buckets m m a a :=
  ⟨fun _ _ => ⟨rfl, rfl⟩, fun _ _ => ⟨rfl, rfl, rfl, rfl, rfl⟩,
    fun _ _ => ⟨Iff.rfl, Iff.rfl, fun _ => Iff.rfl⟩, fun _ _ => ⟨rfl, rfl⟩⟩

theorem within_nil : Within [] [] m m a a := Within.refl

/-- The locks held before and after an access. -/
def Act.Locks (nodes nodes' : List (Ptr N)) (buckets buckets' : List ℕ) : Act N K V → Prop
  | .lock p => nodes'.Perm (p :: nodes) ∧ buckets' = buckets
  | .unlock p => nodes.Perm (p :: nodes') ∧ buckets' = buckets
  | .lockBucket b => nodes' = nodes ∧ buckets'.Perm (b :: buckets)
  | .unlockBucket b => nodes' = nodes ∧ buckets.Perm (b :: buckets')
  | _ => nodes'.Perm nodes ∧ buckets' = buckets

/-- **What one step does**: it writes within the locks held, keeps the shape and puts down only nodes
    that are at rest. -/
structure Effect (cfg : Config N K) (m : Mem N K V) (a a' : Lists N) (trace : List (Label N K V T))
    (act : Act N K V) (nodes nodes' : List (Ptr N)) (buckets buckets' : List ℕ) : Prop where
  within : Within nodes buckets m (act.onMem m) a a'
  shape : Shape cfg (act.onMem m) a'
  locks : act.Locks nodes nodes' buckets buckets'
  rest : ∀ n, act = .unlock (.node n) → AtRest cfg (act.onMem m) a' trace n

section Steps

variable {s : State N K V T} {t : T} {act : Act N K V} {l : Label N K V T} [DecidableEq T]

theorem Effect.nodes {pc : T → PC N K V} {lock : Ptr N → Option T} {p : PC N K V}
    {buckets buckets' : List ℕ} (h : Held PC.holds pc lock)
    (hfree : ∀ q, act = .lock q → lock q = none)
    (he : act.Locks (pc t).holds p.holds buckets buckets') :
    Held PC.holds (Function.update pc t p) (act.onNodeLock t lock) := by
  cases act with
  | lock q => exact h.acquire (hfree q rfl) he.1
  | unlock q => exact h.release he.1
  | lockBucket b => exact h.keep (List.Perm.of_eq he.1)
  | unlockBucket b => exact h.keep (List.Perm.of_eq he.1)
  | _ => exact h.keep he.1

theorem Effect.buckets {pc : T → PC N K V} {lock : ℕ → Option T} {p : PC N K V}
    {nodes nodes' : List (Ptr N)} (h : Held (PC.bucket cfg) pc lock)
    (hfree : ∀ b, act = .lockBucket b → lock b = none)
    (he : act.Locks nodes nodes' ((pc t).bucket cfg) (p.bucket cfg)) :
    Held (PC.bucket cfg) (Function.update pc t p) (act.onBucketLock t lock) := by
  cases act with
  | lockBucket b => exact h.acquire (hfree b rfl) he.2
  | unlockBucket b => exact h.release he.2
  | _ => exact h.keep (List.Perm.of_eq he.2)

/-- **A step keeps the invariant** if its effect is as it should be and the thread can rely on what it
    goes on with. -/
theorem Inv.effect {p : PC N K V} (h : Inv cfg s a trace) (hact : act.enabled s = true)
    (he : Effect cfg s.mem a a' trace act (s.pc t).holds p.holds ((s.pc t).bucket cfg) (p.bucket cfg))
    (hp : Standing cfg (act.onMem s.mem) a' (trace ++ [l]) p)
    (hfound : ∀ producer k n v, l.pc = .find producer k (.unlock n (some v)) → Stored trace k v) :
    Inv cfg (s.apply t act p) a' (trace ++ [l]) := by
  have hlock : ∀ q, act = .lock q → s.nodeLock q = none := by
    rintro q rfl
    simpa [Act.enabled] using (Bool.and_eq_true_iff.1 hact).2
  have hbucket : ∀ b, act = .lockBucket b → s.bucketLock b = none := by
    rintro b rfl
    simpa [Act.enabled] using hact
  refine ⟨he.shape, Effect.nodes h.nodes hlock he.locks, Effect.buckets h.buckets hbucket he.locks,
    fun n hn => ?_, fun u => ?_, fun past l' rest heq => ?_⟩
  · by_cases hun : act = .unlock (.node n)
    · have hkept : Kept [Ptr.node n] [] (act.onMem s.mem) (act.onMem s.mem) a' a' :=
        within_nil.kept (by simp) (by simp)
      exact hkept.atRest (by simp) (he.rest n hun)
    · -- the lock was free before
      have hfree : s.nodeLock (.node n) = none := by
        by_contra htaken
        refine htaken ?_
        cases act with
        | lock q =>
            by_cases hq : .node n = q
            · subst hq
              exact hlock _ rfl
            · exact (Function.update_of_ne hq _ _).symm.trans hn
        | unlock q =>
            have hq : .node n ≠ q := fun hq => hun (by rw [hq])
            exact (Function.update_of_ne hq _ _).symm.trans hn
        | _ => exact hn
      have hkept : Kept [Ptr.node n] [] s.mem (act.onMem s.mem) a a' :=
        he.within.kept (by simpa using h.nodes.not_mem hfree t) (by simp)
      exact hkept.atRest (by simp) (h.rest n hfree)
  · by_cases hu : u = t
    · show Standing cfg _ _ _ (Function.update s.pc t p u)
      rw [hu, Function.update_self]
      exact hp
    · show Standing cfg _ _ _ (Function.update s.pc t p u)
      rw [Function.update_of_ne hu]
      refine (he.within.kept (fun q hq hqt => ?_) (fun b hb hbt => ?_)).standing (h.standing u)
      · exact hu (h.nodes.unique hq hqt)
      · exact hu (h.buckets.unique hb hbt)
  · rcases concat_split heq with ⟨rfl, rfl, -⟩ | ⟨rest', rfl, -⟩
    · exact hfound
    · exact h.found past l' rest' rfl

end Steps

end DeferredLru.ConcurrentLru
