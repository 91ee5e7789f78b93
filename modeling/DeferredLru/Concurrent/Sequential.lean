import DeferredLru.Concurrent.Alone
import DeferredLru.Lru.Refinement

set_option autoImplicit false

/-! # With one thread, `ConcurrentLRU` is the textbook cache

Where the thread stands in a call, the memory already holds the cache with which the call will end, up
to what the thread has still to do to the node in its hands (`PC.OnWay`). Every access brings the call
on, is made at once and is the first try (`Inv.onWay`), so that the call returns, and it does what the
same call of `LRUCache` does (`serve_matches`). -/

namespace DeferredLru.ConcurrentLru

open Intrusive Recency

variable {N : ℕ} {K V : Type} {cfg : Config N K} {s s' : State N K V Unit} {m m' : Mem N K V}
  {a a' : Lists N} {trace : List (Label N K V Unit)} {act : Act N K V} {n : Fin N} {c : Cache K V}
  {k : K} {x v : V} {l : List (Fin N)}

/-! ## A call from its start to its return -/

/-- What a call hands out on the way. -/
inductive Event (K V : Type) where
  | hit (v : V)
  | onDelete (k : K) (v : V)

/-- The value that was found. -/
def Event.delivered : Event K V → Option V
  | .hit v => some v
  | .onDelete _ _ => none

/-- The pair that was deleted. -/
def Event.deleted : Event K V → Option (K × V)
  | .hit _ => none
  | .onDelete k v => some (k, v)

namespace State

/-- What the access made in this state hands out. -/
def event (s : State N K V Unit) : Option (Event K V) :=
  match s.pc () with
  | .find _ _ (.unlock _ (some v)) => some (.hit v)
  | .insert _ _ (.onDelete n) => some (.onDelete (s.mem.key n) (s.mem.value n))
  | _ => none

/-- The thread has to try again: a `try_lock` has failed, a predecessor has changed, both lists were
    empty, or it waits for a flag. -/
def retries (s : State N K V Unit) : Bool :=
  match s.pc () with
  | .find _ _ (.remove _ _ (.unlockNode _)) => true
  | .find _ _ (.insertLast _ _ (.retry _)) => true
  | .insert _ _ (.insertLast _ (.retry _)) => true
  | .insert _ _ (.lruEvictHead .unlockEmpty) => true
  | .insert _ _ (.await n) => !s.mem.htFlag n
  | .insert _ _ (.htRemove _ (.unlock _ removed)) => !removed
  | _ => false

end State

/-- A memoized call that has returned: the key, what the producer would return, the states in which
    the thread made its accesses and the state after the last of them. -/
structure Return (N : ℕ) (K V : Type) where
  key : K
  computed : V
  states : List (State N K V Unit)
  last : State N K V Unit

namespace Return

/-- What the call hands out, in order. -/
def events (r : Return N K V) : List (Event K V) := r.states.filterMap State.event

/-- The value that was found, if any. -/
def hit (r : Return N K V) : Option V := r.events.findSome? Event.delivered

/-- What the caller and the deletion policy have got. -/
def served (r : Return N K V) : Served K V where
  hit := r.hit.isSome
  delivered := r.hit.getD r.computed
  deleted := r.events.filterMap Event.deleted

/-- Every lock is free again, and nothing was tried twice. -/
structure Clean (r : Return N K V) : Prop where
  nodes : ∀ p, r.last.nodeLock p = none
  buckets : ∀ b, r.last.bucketLock b = none
  once : ∀ s ∈ r.states, s.retries = false

end Return

section Calls

variable [DecidableEq K]

/-- The accesses of the running call. There is no result if the thread has to wait for a lock, or if
    the call needs `fuel` accesses or more. -/
def finish (cfg : Config N K) : ℕ → State N K V Unit →
    Option (List (State N K V Unit) × State N K V Unit)
  | 0, _ => none
  | fuel + 1, s =>
      match s.pc () with
      | .idle => some ([], s)
      | _ => do
          let (_, s') ← step cfg s () .go
          let (states, last) ← finish cfg fuel s'
          some (s :: states, last)

/-- Memoized calls, one after the other. -/
def serve (cfg : Config N K) (fuel : ℕ) : State N K V Unit → List (K × V) →
    Option (List (Return N K V))
  | _, [] => some []
  | s, (k, x) :: rest => do
      let (_, s) ← step cfg s () (.call (.consumeCachedOrCompute k x))
      let (states, last) ← finish cfg fuel s
      let returns ← serve cfg fuel last rest
      some (⟨k, x, states, last⟩ :: returns)

end Calls

/-! ## The cache in the memory -/

/-- The nodes `l`, hashed into these buckets, hold the cache. -/
def Keeps (cfg : Config N K) (m : Mem N K V) (bucket : ℕ → List (Fin N)) (l : List (Fin N))
    (c : Cache K V) : Prop :=
  ∃ stamp, Stores c l stamp m.key m.value cfg.whichBucket bucket

namespace Lists

/-- The buckets with the node taken out. -/
def without (a : Lists N) (n : Fin N) (b : ℕ) : List (Fin N) := (a.bucket b).filter (fun i => i ≠ n)

/-- The buckets with the node put in front of one of them. -/
def linked (a : Lists N) (n : Fin N) (b : ℕ) : ℕ → List (Fin N) :=
  Function.update a.bucket b (n :: a.bucket b)

/-- Taking the node out of one bucket and leaving it out is one thing. -/
theorem without_setBucket (a : Lists N) (n : Fin N) (b : ℕ) (hdup : (a.bucket b).Nodup) :
    (a.setBucket b ((a.bucket b).erase n)).without n = a.without n := by
  funext b'
  show (Function.update a.bucket b _ b').filter _ = _
  by_cases hb : b' = b
  · rw [hb, Function.update_self, hdup.erase_eq_filter, List.filter_filter, without]
    refine List.filter_congr (fun i _ => ?_)
    by_cases hi : i = n <;> simp [hi]
  · rw [Function.update_of_ne hb, without]

theorem without_of_bare {a : Lists N} (h : a.Bare n) : a.without n = a.bucket := by
  funext b
  refine List.filter_eq_self.2 (fun i hi => ?_)
  have hne : i ≠ n := fun hin => h b (hin ▸ hi)
  simpa using hne

end Lists

theorem SameTable.keeps (h : SameTable m m' a a') (hk : Keeps cfg m a.bucket l c) :
    Keeps cfg m' a'.bucket l c := by
  rw [Keeps, h.key, h.value, h.bucket]
  exact hk

namespace Keeps

variable {bucket : ℕ → List (Fin N)}

theorem length (h : Keeps cfg m bucket l c) : c.order.length = l.length := by
  obtain ⟨stamp, h⟩ := h
  exact h.length

theorem congr (h : Keeps cfg m bucket l c) (hkey : ∀ i ∈ l, m'.key i = m.key i)
    (hvalue : ∀ i ∈ l, m'.value i = m.value i) : Keeps cfg m' bucket l c := by
  obtain ⟨stamp, h⟩ := h
  exact ⟨stamp, h.congr hkey hvalue⟩

/-- The key is in the cache if the search of its bucket finds it. -/
theorem lookup_eq_none [DecidableEq K] [DecidableEq V] (h : Keeps cfg m bucket l c)
    (hfind : (bucket (cfg.whichBucket k)).find? (fun i => m.key i = k) = none) :
    (c.lookup k).1 = none := by
  obtain ⟨stamp, h⟩ := h
  have hnewest := h.newest k
  rw [hfind, Option.map_none] at hnewest
  rw [Cache.lookup, hnewest]

theorem touch [DecidableEq K] [DecidableEq V] (h : Keeps cfg m bucket l c)
    (hfind : (bucket (cfg.whichBucket k)).find? (fun i => m.key i = k) = some n) :
    (c.lookup k).1 = some (m.value n) ∧ n ∈ l ∧ m.key n = k ∧
      Keeps cfg m bucket (l.erase n ++ [n]) (c.lookup k).2 := by
  obtain ⟨stamp, h⟩ := h
  have hnewest := h.newest k
  have hn := ((h.mem_chain _ n).1 (List.mem_of_find?_eq_some hfind)).1
  rw [hfind, Option.map_some] at hnewest
  rw [Cache.lookup, hnewest]
  exact ⟨rfl, hn, by simpa using List.find?_some hfind, stamp, h.touch hn⟩

/-- The least recently used node is dropped from a full cache. -/
theorem drop (h : Keeps cfg m a.bucket (n :: l) c) (hfull : N ≤ c.order.length) :
    Keeps cfg m (a.without n) l (c.drop N) ∧
      (c.dropped N).map Recency.Entry.pair = [(m.key n, m.value n)] := by
  rw [h.length] at hfull
  obtain ⟨stamp, h⟩ := h
  exact ⟨⟨stamp, h.drop hfull⟩, h.dropped hfull⟩

/-- Nothing is dropped while there is room. -/
theorem room (h : Keeps cfg m bucket l c) (hlt : l.length < N) : c.drop N = c ∧ c.dropped N = [] := by
  rw [Cache.drop, Cache.dropped, h.length, if_neg (by omega), if_neg (by omega)]
  exact ⟨rfl, rfl⟩

/-- A new node comes last, and first in the bucket of its key. -/
theorem push (h : Keeps cfg m a.bucket l c) (hn : n ∉ l) :
    Keeps cfg m (a.linked n (cfg.whichBucket (m.key n))) (l ++ [n]) (c.push (m.key n) (m.value n)) := by
  obtain ⟨stamp, h⟩ := h
  have hpush := h.push hn (m.key n) (m.value n)
  rw [Function.update_eq_self, Function.update_eq_self] at hpush
  exact ⟨_, hpush⟩

end Keeps

/-! ## What becomes of the nodes -/

/-- The LRU list before the eviction. -/
def EvictPC.kept (l : List (Fin N)) : EvictPC N → List (Fin N)
  | .unlockPrev n _ => n :: l
  | .unlockNext n _ => n :: l
  | .clear n => n :: l
  | _ => l

/-- The LRU list before the eviction, told after a step. -/
def evictKept (l : List (Fin N)) : EvictPC N ⊕ Option (Fin N) → List (Fin N)
  | .inl pc => pc.kept l
  | .inr (some n) => n :: l
  | .inr none => l

theorem EvictPC.kept_step {i : ListId} {pc : EvictPC N} {r : EvictPC N ⊕ Option (Fin N)}
    (hnext : nextEvict m i.head i.tail pc = some (act, r)) :
    SameTable m (act.onMem m) a (pc.onLists a) := by
  cases pc with
  | load =>
      simp only [nextEvict] at hnext
      split at hnext
      · cases hnext
        exact SameTable.refl
      · split at hnext <;> cases hnext
        exact SameTable.refl
  | _ =>
      cases hnext
      exact ⟨rfl, rfl, rfl, rfl, rfl⟩

/-- From the LRU list the first node is evicted. -/
theorem Inv.evict_kept (h : Inv cfg s a trace) {pc : EvictPC N} {r : EvictPC N ⊕ Option (Fin N)}
    (hs : pc.Standing cfg s.mem a trace .lru)
    (hnext : nextEvict s.mem .lruHead .lruTail pc = some (act, r)) :
    evictKept (pc.onLists a).lru r = pc.kept a.lru := by
  cases pc with
  | load =>
      simp only [nextEvict] at hnext
      split at hnext
      · cases hnext
        rfl
      · split at hnext <;> cases hnext
        rfl
  | splice n next =>
      cases hnext
      obtain ⟨l, hl⟩ := (h.shape.strung .lru).eq_cons (ends .lru) hs.1
      have hlru : a.lru = n :: l := hl
      show n :: a.lru.erase n = a.lru
      rw [hlru, List.erase_cons_head]
  | _ =>
      cases hnext
      rfl

/-- The LRU list with the node put behind the others. -/
def RemovePC.kept (n : Fin N) (l : List (Fin N)) : RemovePC N → List (Fin N)
  | .unlockPrev _ _ => l ++ [n]
  | .unlockNext _ => l ++ [n]
  | .clear => l ++ [n]
  | _ => l.erase n ++ [n]

/-- The same after a step; a removed node is to be put behind the others. -/
def removeKept (n : Fin N) (l : List (Fin N)) : RemovePC N ⊕ Bool → List (Fin N)
  | .inl pc => pc.kept n l
  | .inr true => l ++ [n]
  | .inr false => l.erase n ++ [n]

theorem RemovePC.kept_step {pc : RemovePC N} {r : RemovePC N ⊕ Bool}
    (hnext : nextRemove s n pc = (act, r)) :
    SameTable s.mem (act.onMem s.mem) a (pc.onLists n a) ∧
      removeKept n (pc.onLists n a).lru r = pc.kept n a.lru := by
  cases pc with
  | tryLock p =>
      simp only [nextRemove] at hnext
      split at hnext <;> cases hnext <;> exact ⟨SameTable.refl, rfl⟩
  | test p =>
      simp only [nextRemove] at hnext
      split at hnext <;> cases hnext <;> exact ⟨SameTable.refl, rfl⟩
  | testSame p =>
      simp only [nextRemove] at hnext
      split at hnext <;> cases hnext <;> exact ⟨SameTable.refl, rfl⟩
  | testChanged =>
      simp only [nextRemove] at hnext
      split at hnext <;> cases hnext <;> exact ⟨SameTable.refl, rfl⟩
  | _ =>
      cases hnext
      exact ⟨⟨rfl, rfl, rfl, rfl, rfl⟩, rfl⟩

/-- The LRU list with the node behind the others. -/
def InsertBeforePC.kept (n : Fin N) (l : List (Fin N)) : InsertBeforePC N → List (Fin N)
  | .unlockPrev _ => l
  | .unlockNode => l
  | _ => l ++ [n]

/-- The same after a step, which may be the last one. -/
def insertBeforeKept (n : Fin N) (l : List (Fin N)) : Option (InsertBeforePC N) → List (Fin N)
  | some pc => pc.kept n l
  | none => l

theorem InsertBeforePC.kept_step {pc : InsertBeforePC N} {r : Option (InsertBeforePC N)}
    (hnext : nextInsertBefore m .lruTail n pc = (act, r)) :
    SameTable m (act.onMem m) a (pc.onLists n a) ∧
      insertBeforeKept n (pc.onLists n a).lru r = pc.kept n a.lru := by
  cases pc with
  | test p =>
      simp only [nextInsertBefore] at hnext
      split at hnext <;> cases hnext <;> exact ⟨SameTable.refl, rfl⟩
  | _ =>
      cases hnext
      exact ⟨⟨rfl, rfl, rfl, rfl, rfl⟩, rfl⟩

/-- The buckets with the node in front of its own. -/
def HtInsertPC.kept (a : Lists N) (n : Fin N) (b : ℕ) : HtInsertPC → ℕ → List (Fin N)
  | .setFlag _ => a.bucket
  | .unlock _ => a.bucket
  | _ => a.linked n b

/-- The same after a step, which may be the last one. -/
def htInsertKept (a : Lists N) (n : Fin N) (b : ℕ) : Option HtInsertPC → ℕ → List (Fin N)
  | some pc => pc.kept a n b
  | none => a.bucket

theorem HtInsertPC.kept_step {pc : HtInsertPC} {r : Option HtInsertPC}
    (hs : pc.Standing cfg m a n) (hnext : nextHtInsert cfg m n pc = (act, r)) :
    (act.onMem m).key = m.key ∧ (act.onMem m).value = m.value ∧
      htInsertKept (pc.onLists n a) n (cfg.whichBucket (m.key n)) r =
        pc.kept a n (cfg.whichBucket (m.key n)) := by
  cases pc with
  | setHead b =>
      cases hnext
      obtain ⟨-, rfl, -⟩ := hs
      exact ⟨rfl, rfl, rfl⟩
  | _ =>
      cases hnext
      exact ⟨rfl, rfl, rfl⟩

theorem HtRemovePC.kept_step {pc : HtRemovePC N} {r : HtRemovePC N ⊕ Bool}
    (hdup : ∀ b, (a.bucket b).Nodup) (hnext : nextHtRemove cfg s n pc = (act, r)) :
    (act.onMem s.mem).key = s.mem.key ∧ (act.onMem s.mem).value = s.mem.value ∧
      (pc.onLists n a).without n = a.without n ∧ (pc.onLists n a).lru = a.lru := by
  cases pc with
  | tryLock b p =>
      simp only [nextHtRemove] at hnext
      split at hnext <;> cases hnext <;> exact ⟨rfl, rfl, rfl, rfl⟩
  | setNext b prev =>
      cases prev <;> cases hnext <;> exact ⟨rfl, rfl, a.without_setBucket n b (hdup b), rfl⟩
  | _ =>
      cases hnext
      exact ⟨rfl, rfl, rfl, rfl⟩

/-! ## On the way -/

section Way

variable [DecidableEq K] [DecidableEq V] (cfg : Config N K) (m : Mem N K V) (a : Lists N)
  (c : Cache K V) (k : K) (x : V)

/-- A thread that looks the key `k` up in the cache `c`. -/
def FindPC.OnWay : FindPC N V → Prop
  | .search p => Keeps cfg m a.bucket a.lru c ∧ p.Alone m.key k (a.bucket (cfg.whichBucket k))
  | .lock n => Keeps cfg m a.bucket a.lru c ∧
      (a.bucket (cfg.whichBucket k)).find? (fun i => m.key i = k) = some n
  | .test n => Keeps cfg m a.bucket a.lru c ∧
      (a.bucket (cfg.whichBucket k)).find? (fun i => m.key i = k) = some n
  | .value n => Keeps cfg m a.bucket a.lru c ∧
      (a.bucket (cfg.whichBucket k)).find? (fun i => m.key i = k) = some n
  | .remove n v p => Keeps cfg m a.bucket (p.kept n a.lru) (c.lookup k).2 ∧
      (c.lookup k).1 = some v ∧ p.Alone
  | .insertLast n v p => Keeps cfg m a.bucket (p.kept n a.lru) (c.lookup k).2 ∧
      (c.lookup k).1 = some v ∧ p.Alone m
  | .unlock _ r => Keeps cfg m a.bucket a.lru (c.lookup k).2 ∧ (c.lookup k).1 = r ∧ r.isSome

/-- The node is out of the cache, after the eviction if there was one. -/
def Dropped (n : Fin N) : Prop := Keeps cfg m (a.without n) a.lru (c.drop N)

/-- The node is all that was dropped. -/
def Victim (n : Fin N) : Prop :=
  Dropped cfg m a c n ∧ (c.dropped N).map Recency.Entry.pair = [(m.key n, m.value n)]

/-- A thread that inserts the pair `k`, `x` into the cache `c`. -/
def InsertPC.OnWay : InsertPC N → Prop
  | .getNodeFromPool p => Keeps cfg m a.bucket a.lru c ∧ p.Alone a .pool
  | .lruEvictHead p => Keeps cfg m a.bucket (p.kept a.lru) c ∧ N ≤ c.order.length ∧ p.Alone a .lru
  | .unsetFlag n => Victim cfg m a c n
  | .await n => Victim cfg m a c n
  | .htRemove n p => Victim cfg m a c n ∧ p.Alone
  | .onDelete n => Victim cfg m a c n
  | .loadDown n => Dropped cfg m a c n
  | .storeDown n _ => Dropped cfg m a c n
  | .key n => Dropped cfg m a c n
  | .value n => Dropped cfg m a c n
  | .loadUp n => Dropped cfg m a c n
  | .storeUp n _ => Dropped cfg m a c n
  | .setFlag n => Dropped cfg m a c n
  | .insertLast n p => Keeps cfg m (a.linked n (cfg.whichBucket (m.key n))) (p.kept n a.lru)
      (c.insert N k x) ∧ p.Alone m
  | .htInsert n p => Keeps cfg m (p.kept a n (cfg.whichBucket (m.key n))) a.lru (c.insert N k x)
  | .unlock _ => Keeps cfg m a.bucket a.lru (c.insert N k x)

/-- A thread that serves a request for `k`, with `x` to be computed, on the cache `c`. -/
def PC.OnWay : PC N K V → Prop
  | .idle => Keeps cfg m a.bucket a.lru (c.consume N k x).2
  | .find producer k' p => producer = some x ∧ k' = k ∧ p.OnWay cfg m a c k
  | .insert k' x' p => k' = k ∧ x' = x ∧ (c.lookup k).1 = none ∧ p.OnWay cfg m a c k x

end Way

/-- The pairs that an insertion deletes. -/
def deletions (N : ℕ) (c : Cache K V) : List (Event K V) :=
  ((c.dropped N).map Recency.Entry.pair).map fun (k, v) => .onDelete k v

/-- The evicted node has not yet been handed to the deletion policy. -/
def InsertPC.deletes : InsertPC N → Bool
  | .getNodeFromPool _ => true
  | .lruEvictHead _ => true
  | .unsetFlag _ => true
  | .await _ => true
  | .htRemove _ _ => true
  | .onDelete _ => true
  | _ => false

/-- What the call has still to hand out. -/
def PC.pending [DecidableEq K] [DecidableEq V] (c : Cache K V) (k : K) : PC N K V → List (Event K V)
  | .idle => []
  | .find _ _ _ =>
      match (c.lookup k).1 with
      | some v => [.hit v]
      | none => deletions N c
  | .insert _ _ p => if p.deletes then deletions N c else []

/-- A bound on the accesses that the call has still to make. -/
def FindPC.left (cfg : Config N K) (a : Lists N) (k : K) : FindPC N V → ℕ
  | .search p => p.left (a.bucket (cfg.whichBucket k)) + (N + 52)
  | .lock _ => 20
  | .test _ => 19
  | .value _ => 18
  | .remove _ _ p => p.left + 9
  | .insertLast _ _ p => p.left + 1
  | .unlock _ _ => 1

/-- A bound on the accesses that the call has still to make. -/
def InsertPC.left (a : Lists N) : InsertPC N → ℕ
  | .getNodeFromPool p => p.left + (N + 43)
  | .lruEvictHead p => p.left + (N + 34)
  | .unsetFlag _ => N + 34
  | .await _ => N + 33
  | .htRemove _ p => p.left a + 23
  | .onDelete _ => 23
  | .loadDown _ => 22
  | .storeDown _ _ => 21
  | .key _ => 20
  | .value _ => 19
  | .loadUp _ => 18
  | .storeUp _ _ => 17
  | .setFlag _ => 16
  | .insertLast _ p => p.left + 8
  | .htInsert _ p => p.left + 1
  | .unlock _ => 1

/-- A bound on the number of accesses still to make. -/
def PC.left (cfg : Config N K) (a : Lists N) : PC N K V → ℕ
  | .idle => 0
  | .find _ k p => p.left cfg a k
  | .insert _ _ p => p.left a

/-- What one access of the thread does: it is possible at once, a first try, and brings the call on. -/
structure Moves [DecidableEq K] [DecidableEq V] (cfg : Config N K) (s : State N K V Unit)
    (a : Lists N) (c : Cache K V) (k : K) (x : V) (pc : PC N K V) (act : Act N K V) (p : PC N K V) :
    Prop where
  enabled : act.enabled s = true
  once : s.retries = false
  onWay : p.OnWay cfg (act.onMem s.mem) (pc.onLists a) c k x
  left : p.left cfg (pc.onLists a) < pc.left cfg a
  pending : pc.pending c k = s.event.toList ++ p.pending c k

/-- A node outside the LRU list leaves room in it. -/
theorem Inv.room (h : Inv cfg s a trace) (hn : n ∉ a.lru) : a.lru.length < N := by
  have hlen := (List.nodup_cons.2 ⟨hn, h.shape.list_nodup .lru⟩).length_le_card
  rw [Fintype.card_fin] at hlen
  exact hlen

/-- All nodes are in the LRU list if the pool is empty and nothing is locked. -/
theorem Inv.full (h : Inv cfg s a trace) (hpool : a.pool = [])
    (hfree : ∀ n, s.nodeLock (.node n) = none) : N ≤ a.lru.length := by
  have hall : ∀ n, n ∈ a.lru := fun n => by
    rcases h.rest n (hfree n) with hn | hn
    · exact hn.1
    · rw [hpool] at hn
      cases hn
  have hsub := (List.nodup_finRange N).subperm (fun n _ => hall n)
  simpa using hsub.length_le

theorem EvictPC.eq_unlockEmpty {prev last : Ptr N} {pc : EvictPC N}
    (hnext : nextEvict m prev last pc = some (act, .inr none)) : pc = .unlockEmpty := by
  cases pc with
  | unlockEmpty => rfl
  | load =>
      simp only [nextEvict] at hnext
      split at hnext
      · cases hnext
      · split at hnext <;> cases hnext
  | _ => cases hnext

theorem SameTable.keeps_linked (h : SameTable m m' a a')
    (hk : Keeps cfg m (a.linked n (cfg.whichBucket (m.key n))) l c) :
    Keeps cfg m' (a'.linked n (cfg.whichBucket (m'.key n))) l c := by
  rw [Keeps, Lists.linked, h.key, h.value, h.bucket]
  exact hk

section Moves

variable [DecidableEq K] [DecidableEq V]

/-- An access of `find` that hands nothing out. -/
theorem Moves.find {pc p : FindPC N V} (hact : act.enabled s = true)
    (hquiet : s.retries = false ∧ s.event = none)
    (hw : p.OnWay cfg (act.onMem s.mem) ((PC.find (some x) k pc).onLists a) c k)
    (hleft : p.left cfg ((PC.find (some x) k pc).onLists a) k < pc.left cfg a k) :
    Moves cfg s a c k x (.find (some x) k pc) act (.find (some x) k p) where
  enabled := hact
  once := hquiet.1
  onWay := ⟨rfl, rfl, hw⟩
  left := hleft
  pending := by
    rw [hquiet.2]
    rfl

/-- An access of `insert` that hands nothing out. -/
theorem Moves.insert {pc p : InsertPC N} (hmiss : (c.lookup k).1 = none)
    (hact : act.enabled s = true) (hquiet : s.retries = false ∧ s.event = none)
    (hw : p.OnWay cfg (act.onMem s.mem) ((PC.insert k x pc).onLists a) c k x)
    (hleft : p.left ((PC.insert k x pc).onLists a) < pc.left a) (hdel : p.deletes = pc.deletes) :
    Moves cfg s a c k x (.insert k x pc) act (.insert k x p) where
  enabled := hact
  once := hquiet.1
  onWay := ⟨rfl, rfl, hmiss, hw⟩
  left := hleft
  pending := by
    rw [hquiet.2, PC.pending, PC.pending, hdel]
    rfl

theorem Inv.search_moves (h : Inv cfg s a trace) {q : HtFindPC N}
    (hpc : s.pc () = .find (some x) k (.search q))
    (hw : (FindPC.search q : FindPC N V).OnWay cfg s.mem a c k) :
    ∃ act p, nextFind cfg s (some x) k (.search q) = (act, p) ∧
      Moves cfg s a c k x (.find (some x) k (.search q)) act p := by
  obtain ⟨hkeeps, hal⟩ := hw
  have hbucket : ∀ b ∉ q.bucket (cfg.whichBucket k), s.bucketLock b = none := fun b hb =>
    h.bucket_free (by rw [hpc]; exact hb)
  obtain ⟨act, r, hr, hact, hmem, hal', hleft⟩ := h.htFind_alone hal hbucket
  have hquiet : s.retries = false ∧ s.event = none := by simp [State.retries, State.event, hpc]
  rw [← hmem] at hkeeps
  rw [nextFind, hr]
  rcases r with q' | _ | n
  case inl =>
      refine ⟨_, _, rfl, .find hact hquiet ⟨hkeeps, ?_⟩ (Nat.add_lt_add_right hleft _)⟩
      rw [hmem]
      exact hal'
  case inr.some =>
      refine ⟨_, _, rfl, .find hact hquiet ⟨hkeeps, ?_⟩ ?_⟩
      · rw [hmem]
        exact hal'.symm
      · show 20 < q.left _ + (N + 52)
        omega
  case inr.none =>
      -- the key is not there: the call goes on as an insertion
      have hmiss := (hmem ▸ hkeeps).lookup_eq_none (Eq.symm hal')
      refine ⟨_, _, rfl, hact, hquiet.1, ⟨rfl, rfl, hmiss, hkeeps, trivial⟩, ?_, ?_⟩
      · show 9 + (N + 43) < q.left _ + (N + 52)
        omega
      · rw [hquiet.2, PC.pending, hmiss]
        rfl

theorem Inv.find_moves (h : Inv cfg s a trace) {pc : FindPC N V}
    (hpc : s.pc () = .find (some x) k pc) (hw : pc.OnWay cfg s.mem a c k) :
    ∃ act p, nextFind cfg s (some x) k pc = (act, p) ∧
      Moves cfg s a c k x (.find (some x) k pc) act p := by
  have hs := h.standing ()
  have hfree : ∀ p ∉ pc.holds, s.nodeLock p = none := fun p hp =>
    h.lock_free (by rw [hpc]; exact hp)
  rw [hpc] at hs
  cases pc with
  | search q => exact h.search_moves hpc hw
  | lock n =>
      have hact : (Act.lock (.node n) : Act N K V).enabled s = true :=
        enabled_lock (by simp) (hfree _ (by simp [FindPC.holds]))
      have hquiet : s.retries = false ∧ s.event = none := by simp [State.retries, State.event, hpc]
      exact ⟨_, _, rfl, .find hact hquiet hw (Nat.lt_succ_self _)⟩
  | test n =>
      obtain ⟨hkeeps, hfind⟩ := hw
      obtain ⟨-, hn, hkey, -⟩ := hkeeps.touch hfind
      have hlive := (hs.resolve_right (h.shape.not_mem_pool hn)).2
      have hquiet : s.retries = false ∧ s.event = none := by simp [State.retries, State.event, hpc]
      refine ⟨_, _, rfl, ?_⟩
      -- nobody removed the node since the search, so the second test succeeds
      rw [if_pos ⟨hlive.flag, hkey⟩]
      exact .find rfl hquiet ⟨hkeeps, hfind⟩ (Nat.lt_succ_self _)
  | value n =>
      obtain ⟨hkeeps, hfind⟩ := hw
      obtain ⟨hlookup, -, -, hkeeps'⟩ := hkeeps.touch hfind
      have hquiet : s.retries = false ∧ s.event = none := by simp [State.retries, State.event, hpc]
      exact ⟨_, _, rfl, .find rfl hquiet ⟨hkeeps', hlookup, trivial⟩ (Nat.lt_succ_self _)⟩
  | remove n v q =>
      obtain ⟨hkeeps, hlookup, hal⟩ := hw
      obtain ⟨act, r, hr, hact, hal', hleft⟩ := h.remove_alone hs.1 hal hfree
      obtain ⟨hsame, hkept⟩ := RemovePC.kept_step (a := a) hr
      have hquiet : s.retries = false ∧ s.event = none := by
        cases q <;> first | exact hal.elim | simp [State.retries, State.event, hpc]
      rw [← hkept] at hkeeps
      rw [nextFind, hr]
      rcases r with q' | _ | _
      case inl =>
          exact ⟨_, _, rfl, .find hact hquiet ⟨hsame.keeps hkeeps, hlookup, hal'⟩
            (Nat.add_lt_add_right hleft 9)⟩
      case inr.true =>
          refine ⟨_, _, rfl, .find hact hquiet ⟨hsame.keeps hkeeps, hlookup, trivial⟩ ?_⟩
          show 7 + 1 < q.left + 9
          omega
      case inr.false => cases hal'
  | insertLast n v q =>
      obtain ⟨hkeeps, hlookup, hal⟩ := hw
      obtain ⟨act, r, hr, hact, hal', hleft⟩ := h.insertBefore_alone hs.1 hal hfree
      obtain ⟨hsame, hkept⟩ := InsertBeforePC.kept_step (a := a) hr
      have hquiet : s.retries = false ∧ s.event = none := by
        cases q <;> first | exact hal.elim | simp [State.retries, State.event, hpc]
      rw [← hkept] at hkeeps
      rw [nextFind, hr]
      cases r with
      | some q' =>
          exact ⟨_, _, rfl, .find hact hquiet ⟨hsame.keeps hkeeps, hlookup, hal'⟩
            (Nat.add_lt_add_right hleft 1)⟩
      | none =>
          exact ⟨_, _, rfl, .find hact hquiet ⟨hsame.keeps hkeeps, hlookup, rfl⟩
            (Nat.add_lt_add_right hleft 1)⟩
  | unlock n r =>
      obtain ⟨hkeeps, hlookup, hsome⟩ := hw
      obtain ⟨v, rfl⟩ := Option.isSome_iff_exists.1 hsome
      refine ⟨_, _, rfl, rfl, by simp [State.retries, hpc], ?_, Nat.lt_succ_self 0, ?_⟩
      · show Keeps cfg s.mem a.bucket a.lru (c.consume N k x).2
        rw [Cache.consume_hit x hlookup]
        exact hkeeps
      · simp [State.event, hpc, PC.pending, hlookup, afterFind]

theorem Inv.getNodeFromPool_moves (h : Inv cfg s a trace) {q : EvictPC N}
    (hpc : s.pc () = .insert k x (.getNodeFromPool q)) (hmiss : (c.lookup k).1 = none)
    (hw : (InsertPC.getNodeFromPool q).OnWay cfg s.mem a c k x) :
    ∃ act p, nextInsert cfg s k x (.getNodeFromPool q) = some (act, p) ∧
      Moves cfg s a c k x (.insert k x (.getNodeFromPool q)) act p := by
  have hs := h.standing ()
  have hdup := h.nodes.nodup ()
  have hfree : ∀ p ∉ q.holds .poolHead, s.nodeLock p = none := fun p hp =>
    h.lock_free (by rw [hpc]; exact hp)
  have hquiet : s.retries = false ∧ s.event = none := by simp [State.retries, State.event, hpc]
  rw [hpc] at hs hdup
  obtain ⟨hkeeps, hal⟩ := hw
  obtain ⟨act, r, hr, hact, hal', hleft⟩ := h.evict_alone (i := .pool) hs hal hfree
  have hr' : nextEvict s.mem .poolHead .poolTail q = some (act, r) := hr
  have hpost := (h.evict (i := .pool) [] hact hs hdup hr).2
  have hsame : SameTable s.mem (act.onMem s.mem) a (q.onLists a) :=
    EvictPC.kept_step (i := .pool) hr
  have hlru : (q.onLists a).lru = a.lru := EvictPC.onLists_pool h.shape hs
  rw [← hlru] at hkeeps
  rw [nextInsert, hr']
  rcases r with q' | _ | n
  case inl =>
      exact ⟨_, _, rfl, .insert hmiss hact hquiet ⟨hsame.keeps hkeeps, hal'⟩
        (Nat.add_lt_add_right hleft _) rfl⟩
  case inr.some =>
      -- the pool had a node, so the cache is not full and drops nothing
      obtain ⟨hoff, hbare⟩ := hpost
      have hroom := h.room (hlru ▸ hoff.1)
      rw [← hlru] at hroom
      obtain ⟨hdrop, hdropped⟩ := hkeeps.room hroom
      refine ⟨_, _, rfl, hact, hquiet.1, ⟨rfl, rfl, hmiss, ?_⟩, ?_, ?_⟩
      · show Keeps cfg _ ((q.onLists a).without n) _ _
        rw [Lists.without_of_bare hbare, hdrop]
        exact hsame.keeps hkeeps
      · show 20 < q.left + (N + 43)
        omega
      · rw [hquiet.2]
        show deletions N c = []
        rw [deletions, hdropped]
        rfl
  case inr.none =>
      obtain rfl := EvictPC.eq_unlockEmpty hr
      -- nothing is in the pool or in flight, so every node is in the LRU list
      have hfull := h.full hal (fun n => hfree _ (by simp [EvictPC.holds]))
      refine ⟨_, _, rfl, .insert hmiss hact hquiet ⟨hsame.keeps hkeeps, ?_, trivial⟩ ?_ rfl⟩
      · rw [hkeeps.length]
        exact hfull
      · show 9 + (N + 34) < 1 + (N + 43)
        omega

theorem Inv.lruEvictHead_moves (h : Inv cfg s a trace) {q : EvictPC N}
    (hpc : s.pc () = .insert k x (.lruEvictHead q)) (hmiss : (c.lookup k).1 = none)
    (hw : (InsertPC.lruEvictHead q).OnWay cfg s.mem a c k x) :
    ∃ act p, nextInsert cfg s k x (.lruEvictHead q) = some (act, p) ∧
      Moves cfg s a c k x (.insert k x (.lruEvictHead q)) act p := by
  have hs := h.standing ()
  have hfree : ∀ p ∉ q.holds .lruHead, s.nodeLock p = none := fun p hp =>
    h.lock_free (by rw [hpc]; exact hp)
  rw [hpc] at hs
  obtain ⟨hkeeps, hfull, hal⟩ := hw
  have hpos := cfg.capacity_pos
  have hlen := hkeeps.length
  obtain ⟨act, r, hr, hact, hal', hleft⟩ := h.evict_alone (i := .lru) hs hal hfree
  have hr' : nextEvict s.mem .lruHead .lruTail q = some (act, r) := hr
  have hsame : SameTable s.mem (act.onMem s.mem) a (q.onLists a) :=
    EvictPC.kept_step (i := .lru) hr
  have hkept := h.evict_kept hs hr
  have hquiet : s.retries = false ∧ s.event = none := by
    -- a full list is not empty
    have hq : q ≠ .unlockEmpty := by
      rintro rfl
      have hlru : a.lru = [] := hal
      have hnone : c.order.length = 0 := hlen.trans (congrArg List.length hlru)
      omega
    cases q <;> first | exact absurd rfl hq | simp [State.retries, State.event, hpc]
  rw [← hkept] at hkeeps hlen
  rw [nextInsert, hr']
  rcases r with q' | _ | n
  case inl =>
      exact ⟨_, _, rfl, .insert hmiss hact hquiet ⟨hsame.keeps hkeeps, hfull, hal'⟩
        (Nat.add_lt_add_right hleft _) rfl⟩
  case inr.some =>
      refine ⟨_, _, rfl, .insert hmiss hact hquiet ((hsame.keeps hkeeps).drop hfull) ?_ rfl⟩
      show N + 34 < q.left + (N + 34)
      exact Nat.lt_add_of_pos_left (Nat.zero_lt_of_lt hleft)
  case inr.none =>
      have hlru : (q.onLists a).lru = [] := hal'
      rw [evictKept, hlru, List.length_nil] at hlen
      omega

theorem Inv.htRemove_moves (h : Inv cfg s a trace) {q : HtRemovePC N}
    (hpc : s.pc () = .insert k x (.htRemove n q)) (hmiss : (c.lookup k).1 = none)
    (hw : (InsertPC.htRemove n q).OnWay cfg s.mem a c k x) :
    ∃ act p, nextInsert cfg s k x (.htRemove n q) = some (act, p) ∧
      Moves cfg s a c k x (.insert k x (.htRemove n q)) act p := by
  have hs := h.standing ()
  have hfree : ∀ p ∉ q.holds n, s.nodeLock p = none := fun p hp =>
    h.lock_free (by rw [hpc]; exact hp)
  have hbucket : ∀ b ∉ q.bucket, s.bucketLock b = none := fun b hb =>
    h.bucket_free (by rw [hpc]; exact hb)
  rw [hpc] at hs
  obtain ⟨⟨hdropped, hpair⟩, hal⟩ := hw
  obtain ⟨act, r, hr, hact, hal', hleft⟩ := h.htRemove_alone hs.2 hal hfree hbucket
  obtain ⟨hkey, hvalue, hwithout, hlru⟩ := HtRemovePC.kept_step h.shape.bucket_nodup hr
  have hquiet : s.retries = false ∧ s.event = none := by
    cases q with
    | unlock b removed => simp [State.retries, State.event, hpc, show removed = true from hal]
    | _ => simp [State.retries, State.event, hpc]
  have hvictim : Victim cfg (act.onMem s.mem) (q.onLists n a) c n := by
    refine ⟨?_, by rw [hkey, hvalue]; exact hpair⟩
    rw [Dropped, Keeps, hkey, hvalue, hwithout, hlru]
    exact hdropped
  rw [nextInsert, hr]
  rcases r with q' | _ | _
  case inl =>
      exact ⟨_, _, rfl, .insert hmiss hact hquiet ⟨hvictim, hal'⟩ (Nat.add_lt_add_right hleft _) rfl⟩
  case inr.true =>
      refine ⟨_, _, rfl, .insert hmiss hact hquiet hvictim ?_ rfl⟩
      show 23 < q.left a + 23
      exact Nat.lt_add_of_pos_left (Nat.zero_lt_of_lt hleft)
  case inr.false => cases hal'

theorem Inv.insertLast_moves (h : Inv cfg s a trace) {q : InsertBeforePC N}
    (hpc : s.pc () = .insert k x (.insertLast n q)) (hmiss : (c.lookup k).1 = none)
    (hw : (InsertPC.insertLast n q).OnWay cfg s.mem a c k x) :
    ∃ act p, nextInsert cfg s k x (.insertLast n q) = some (act, p) ∧
      Moves cfg s a c k x (.insert k x (.insertLast n q)) act p := by
  have hs := h.standing ()
  have hfree : ∀ p ∉ q.holds .lruTail n, s.nodeLock p = none := fun p hp =>
    h.lock_free (by rw [hpc]; exact hp)
  rw [hpc] at hs
  obtain ⟨hkeeps, hal⟩ := hw
  obtain ⟨act, r, hr, hact, hal', hleft⟩ := h.insertBefore_alone hs.1 hal hfree
  obtain ⟨hsame, hkept⟩ := InsertBeforePC.kept_step (a := a) hr
  have hquiet : s.retries = false ∧ s.event = none := by
    cases q <;> first | exact hal.elim | simp [State.retries, State.event, hpc]
  rw [← hkept] at hkeeps
  rw [nextInsert, hr]
  cases r with
  | some q' =>
      exact ⟨_, _, rfl, .insert hmiss hact hquiet ⟨hsame.keeps_linked hkeeps, hal'⟩
        (Nat.add_lt_add_right hleft _) rfl⟩
  | none =>
      refine ⟨_, _, rfl, .insert hmiss hact hquiet (hsame.keeps_linked hkeeps) ?_ rfl⟩
      show 6 + 1 < q.left + 8
      omega

theorem Inv.htInsert_moves (h : Inv cfg s a trace) {q : HtInsertPC}
    (hpc : s.pc () = .insert k x (.htInsert n q)) (hmiss : (c.lookup k).1 = none)
    (hw : (InsertPC.htInsert n q).OnWay cfg s.mem a c k x) :
    ∃ act p, nextInsert cfg s k x (.htInsert n q) = some (act, p) ∧
      Moves cfg s a c k x (.insert k x (.htInsert n q)) act p := by
  have hs := h.standing ()
  have hbucket : ∀ b ∉ q.bucket, s.bucketLock b = none := fun b hb =>
    h.bucket_free (by rw [hpc]; exact hb)
  have hquiet : s.retries = false ∧ s.event = none := by simp [State.retries, State.event, hpc]
  rw [hpc] at hs
  obtain ⟨act, r, hr, hact, hleft⟩ := htInsert_alone cfg n q hbucket
  obtain ⟨hkey, hvalue, hkept⟩ := HtInsertPC.kept_step hs.2.1 hr
  have hlru : (q.onLists n a).lru = a.lru := HtInsertPC.onLists_lru n a q
  have hkeeps : Keeps cfg (act.onMem s.mem)
      (htInsertKept (q.onLists n a) n (cfg.whichBucket ((act.onMem s.mem).key n)) r)
      (q.onLists n a).lru (c.insert N k x) := by
    rw [Keeps, hkey, hvalue, hkept, hlru]
    exact hw
  rw [nextInsert, hr]
  cases r with
  | some q' =>
      exact ⟨_, _, rfl, .insert hmiss hact hquiet hkeeps (Nat.add_lt_add_right hleft 1) rfl⟩
  | none =>
      exact ⟨_, _, rfl, .insert hmiss hact hquiet hkeeps (Nat.add_lt_add_right hleft 1) rfl⟩

theorem Inv.insert_moves (h : Inv cfg s a trace) {pc : InsertPC N}
    (hpc : s.pc () = .insert k x pc) (hmiss : (c.lookup k).1 = none)
    (hw : pc.OnWay cfg s.mem a c k x) :
    ∃ act p, nextInsert cfg s k x pc = some (act, p) ∧
      Moves cfg s a c k x (.insert k x pc) act p := by
  have hs := h.standing ()
  rw [hpc] at hs
  cases pc with
  | getNodeFromPool q => exact h.getNodeFromPool_moves hpc hmiss hw
  | lruEvictHead q => exact h.lruEvictHead_moves hpc hmiss hw
  | htRemove n q => exact h.htRemove_moves hpc hmiss hw
  | insertLast n q => exact h.insertLast_moves hpc hmiss hw
  | htInsert n q => exact h.htInsert_moves hpc hmiss hw
  | unsetFlag n =>
      exact ⟨_, _, rfl, .insert hmiss rfl (by simp [State.retries, State.event, hpc]) hw
        (Nat.lt_succ_self _) rfl⟩
  | await n =>
      -- the victim is hashed, so the wait for its flag is over at once
      have hflag : s.mem.htFlag n = true := hs.2.1
      refine ⟨_, _, rfl, ?_⟩
      rw [if_pos hflag]
      refine .insert hmiss rfl (by simp [State.retries, State.event, hpc, hflag]) ⟨hw, trivial⟩ ?_ rfl
      show N + 9 + 23 < N + 33
      omega
  | onDelete n =>
      refine ⟨_, _, rfl, rfl, by simp [State.retries, hpc], ⟨rfl, rfl, hmiss, hw.1⟩,
        Nat.lt_succ_self _, ?_⟩
      simp [State.event, hpc, PC.pending, InsertPC.deletes, deletions, hw.2]
  | loadDown n =>
      exact ⟨_, _, rfl, .insert hmiss rfl (by simp [State.retries, State.event, hpc]) hw
        (Nat.lt_succ_self _) rfl⟩
  | storeDown n d =>
      exact ⟨_, _, rfl, .insert hmiss rfl (by simp [State.retries, State.event, hpc])
        (Keeps.congr hw (fun _ _ => rfl) (fun _ _ => rfl)) (Nat.lt_succ_self _) rfl⟩
  | key n =>
      -- the node is in no list yet, and no entry of the cache sees its new key
      have hne : ∀ i ∈ a.lru, i ≠ n := fun i hi hin => hs.1.1 (hin ▸ hi)
      refine ⟨_, _, rfl, .insert hmiss rfl (by simp [State.retries, State.event, hpc]) ?_
        (Nat.lt_succ_self _) rfl⟩
      exact Keeps.congr hw (fun i hi => Function.update_of_ne (hne i hi) _ _) (fun _ _ => rfl)
  | value n =>
      have hne : ∀ i ∈ a.lru, i ≠ n := fun i hi hin => hs.1.1 (hin ▸ hi)
      refine ⟨_, _, rfl, .insert hmiss rfl (by simp [State.retries, State.event, hpc]) ?_
        (Nat.lt_succ_self _) rfl⟩
      exact Keeps.congr hw (fun _ _ => rfl) (fun i hi => Function.update_of_ne (hne i hi) _ _)
  | loadUp n =>
      exact ⟨_, _, rfl, .insert hmiss rfl (by simp [State.retries, State.event, hpc]) hw
        (Nat.lt_succ_self _) rfl⟩
  | storeUp n d =>
      exact ⟨_, _, rfl, .insert hmiss rfl (by simp [State.retries, State.event, hpc])
        (Keeps.congr hw (fun _ _ => rfl) (fun _ _ => rfl)) (Nat.lt_succ_self _) rfl⟩
  | setFlag n =>
      obtain ⟨hoff, hbare, rfl, rfl, -⟩ := hs
      rw [InsertPC.OnWay, Dropped, Lists.without_of_bare hbare] at hw
      exact ⟨_, _, rfl, .insert hmiss rfl (by simp [State.retries, State.event, hpc])
        ⟨hw.push hoff.1, trivial⟩ (Nat.lt_succ_self _) rfl⟩
  | unlock n =>
      refine ⟨_, _, rfl, rfl, by simp [State.retries, hpc], ?_, Nat.lt_succ_self 0, ?_⟩
      · show Keeps cfg s.mem a.bucket a.lru (c.consume N k x).2
        rw [Cache.consume_miss x hmiss]
        exact hw
      · simp [State.event, hpc, PC.pending, InsertPC.deletes]

/-- **An access of the running call** is made at once, is the first try and brings the call on. -/
theorem Inv.moves (h : Inv cfg s a trace) (hw : (s.pc ()).OnWay cfg s.mem a c k x)
    (hidle : s.pc () ≠ .idle) :
    ∃ act p, ConcurrentLru.step cfg s () .go = some (act, s.apply () act p) ∧
      Moves cfg s a c k x (s.pc ()) act p := by
  have hnext : ∃ act p, ConcurrentLru.next cfg s (s.pc ()) .go = some (act, p) ∧
      Moves cfg s a c k x (s.pc ()) act p := by
    cases hpc : s.pc () with
    | idle => exact absurd hpc hidle
    | find producer k' q =>
        rw [hpc] at hw
        obtain ⟨rfl, rfl, hw⟩ := hw
        obtain ⟨act, p, hnext, hmoves⟩ := h.find_moves hpc hw
        exact ⟨act, p, congrArg some hnext, hmoves⟩
    | insert k' x' q =>
        rw [hpc] at hw
        obtain ⟨rfl, rfl, hmiss, hw⟩ := hw
        exact h.insert_moves hpc hmiss hw
  obtain ⟨act, p, hnext, hmoves⟩ := hnext
  refine ⟨act, p, ?_, hmoves⟩
  rw [ConcurrentLru.step, hnext, Option.bind_some]
  exact if_pos hmoves.enabled

/-- **The running call returns.** -/
theorem Inv.finish {fuel : ℕ} (h : Inv cfg s a trace) (hw : (s.pc ()).OnWay cfg s.mem a c k x)
    (hleft : (s.pc ()).left cfg a < fuel) :
    ∃ states last a' trace', ConcurrentLru.finish cfg fuel s = some (states, last) ∧
      (∀ s ∈ states, s.retries = false) ∧
      states.filterMap State.event = (s.pc ()).pending c k ∧ Inv cfg last a' trace' ∧
      last.pc () = .idle ∧ Keeps cfg last.mem a'.bucket a'.lru (c.consume N k x).2 := by
  induction fuel generalizing s a trace with
  | zero => exact absurd hleft (Nat.not_lt_zero _)
  | succ fuel ih =>
      by_cases hidle : s.pc () = .idle
      · rw [hidle] at hw
        refine ⟨[], s, a, trace, ?_, by simp, by rw [hidle]; rfl, h, hidle, hw⟩
        rw [ConcurrentLru.finish, hidle]
      · obtain ⟨act, p, hstep, hmoves⟩ := h.moves hw hidle
        have hpc : (s.apply () act p).pc () = p := by simp [State.apply]
        obtain ⟨states, last, a', trace', hrun, honce, hevents, hinv, hlast, hkeeps⟩ :=
          ih (h.step hstep) (hpc ▸ hmoves.onWay)
            (by rw [hpc]; exact lt_of_lt_of_le hmoves.left (Nat.lt_succ_iff.1 hleft))
        refine ⟨s :: states, last, a', trace', ?_, ?_, ?_, hinv, hlast, hkeeps⟩
        · rw [ConcurrentLru.finish, hstep]
          cases hp : s.pc () with
          | idle => exact absurd hp hidle
          | _ => simp [hrun]
        · rintro u hu
          rcases List.mem_cons.1 hu with rfl | hu
          · exact hmoves.once
          · exact honce u hu
        · rw [hpc] at hevents
          rw [List.filterMap_cons, hevents, hmoves.pending]
          cases s.event <;> rfl

/-- What the caller and the deletion policy get from a call, read off what it hands out. -/
theorem served_eq {r : Return N K V}
    (hevents : r.events = (PC.find (N := N) (some x) k (.search .lock)).pending c k)
    (hx : r.computed = x) : r.served = (c.consume N k x).1 := by
  rw [PC.pending] at hevents
  cases hlookup : (c.lookup k).1 with
  | some v =>
      rw [hlookup] at hevents
      rw [Cache.consume_hit x hlookup, Return.served, Return.hit, hevents]
      rfl
  | none =>
      rw [hlookup] at hevents
      have hnone : (deletions N c).findSome? Event.delivered = none := by
        rw [List.findSome?_eq_none_iff]
        simp [deletions, Event.delivered]
      have hdeleted : (deletions N c).filterMap Event.deleted =
          (c.dropped N).map Recency.Entry.pair := by
        rw [deletions, List.filterMap_map]
        exact List.filterMap_some
      rw [Cache.consume_miss x hlookup, Return.served, Return.hit, hevents, hx]
      simp only [hnone, hdeleted, Option.isSome_none, Option.getD_none]

/-- **The same requests** are served as by the textbook cache. -/
theorem Inv.serve {fuel : ℕ} (h : Inv cfg s a trace) (hidle : s.pc () = .idle)
    (hkeeps : Keeps cfg s.mem a.bucket a.lru c) (hfuel : 3 * N + 55 < fuel)
    (requests : List (K × V)) :
    ∃ returns, ConcurrentLru.serve cfg fuel s requests = some returns ∧
      (∀ r ∈ returns, r.Clean) ∧ returns.map Return.served = c.serve N requests := by
  induction requests generalizing s a trace c with
  | nil => exact ⟨[], rfl, by simp, rfl⟩
  | cons request requests ih =>
      obtain ⟨k, x⟩ := request
      have hcall : ConcurrentLru.step cfg s () (.call (.consumeCachedOrCompute k x)) =
          some (.read, s.apply () .read (.find (some x) k (.search .lock))) := by
        rw [ConcurrentLru.step, hidle]
        rfl
      have hpc : (s.apply () .read (.find (some x) k (.search .lock))).pc () =
          .find (some x) k (.search .lock) := by simp [State.apply]
      have hinv := h.step hcall
      rw [hidle] at hinv
      obtain ⟨states, last, a', trace', hrun, honce, hevents, hinv', hlast, hkeeps'⟩ :=
        hinv.finish (c := c) (k := k) (x := x) (by rw [hpc]; exact ⟨rfl, rfl, hkeeps, trivial⟩)
          (by rw [hpc]; show 2 * N + 3 + (N + 52) < fuel; omega)
      obtain ⟨returns, hrest, hclean, hserved⟩ := ih hinv' hlast hkeeps'
      refine ⟨⟨k, x, states, last⟩ :: returns, ?_, ?_, ?_⟩
      · rw [ConcurrentLru.serve, hcall]
        simp [hrun, hrest]
      · rintro r hr
        rcases List.mem_cons.1 hr with rfl | hr
        · refine ⟨fun p => hinv'.lock_free ?_, fun b => hinv'.bucket_free ?_, honce⟩
          · rw [hlast]
            exact List.not_mem_nil
          · rw [hlast]
            exact List.not_mem_nil
        · exact hclean r hr
      · rw [hpc] at hevents
        rw [List.map_cons, Cache.serve, hserved]
        exact congrArg (· :: _) (served_eq hevents rfl)

end Moves

/-- A fresh cache serves as the textbook cache does, without ever waiting. -/
theorem serve_fresh [DecidableEq K] [DecidableEq V] [Inhabited K] [Inhabited V] (cfg : Config N K)
    {fuel : ℕ} (hfuel : 3 * N + 55 < fuel) (requests : List (K × V)) :
    ∃ returns, serve cfg fuel (initial N K V Unit) requests = some returns ∧
      (∀ r ∈ returns, r.Clean) ∧ returns.map Return.served = Cache.empty.serve N requests := by
  have hkeeps : Keeps cfg (initial N K V Unit).mem (fun _ => []) [] Cache.empty :=
    ⟨fun _ => 0, rfl, List.nodup_nil, by simp, by simp, by simp, by simp⟩
  exact (Inv.initial cfg).serve rfl hkeeps hfuel requests

/-- **With one thread, `ConcurrentLRU` and `LRUCache` agree.** On any requests, whatever the hash
    functions, every call of a fresh `ConcurrentLRU` returns after at most `3 * N + 55` accesses without
    having to wait or to try again, and leaves every lock free; and a fresh `LRUCache` with the same
    room hits on the same requests, delivers the same values and deletes the same pairs in the same
    order. -/
theorem serve_matches [DecidableEq K] [Inhabited K] [Inhabited V] (cfg : Config N K)
    (plain : LruCache.Config N K) {fuel : ℕ} (hfuel : 3 * N + 55 < fuel) (requests : List (K × V)) :
    ∃ returns, serve cfg fuel (initial N K V Unit) requests = some returns ∧
      (∀ r ∈ returns, r.Clean) ∧
      (LruCache.allocateMemory (V := V) plain).bind
        (fun s => LruCache.serve plain.toArguments fuel s.1 requests) =
          some (returns.map Return.served) := by
  classical
  obtain ⟨returns, hrun, hclean, hserved⟩ := serve_fresh cfg hfuel requests
  refine ⟨returns, hrun, hclean, ?_⟩
  rw [hserved, LruCache.allocateMemory_eq, Option.bind_some]
  exact LruCache.serve_eq (LruCache.initialState_represents plain) (by omega) requests

theorem serve_matches_twoNodes : ∃ returns : List (Return 2 ℕ ℕ),
    serve twoNodes 62 (initial 2 ℕ ℕ Unit) [(1, 10), (2, 20), (1, 11), (3, 30), (2, 21)] =
        some returns ∧
      (∀ r ∈ returns, r.Clean) ∧
      (LruCache.allocateMemory (V := ℕ) LruCache.twoElements).bind
        (fun s => LruCache.serve LruCache.twoElements.toArguments 62 s.1
          [(1, 10), (2, 20), (1, 11), (3, 30), (2, 21)]) = some (returns.map Return.served) :=
  serve_matches twoNodes LruCache.twoElements (by decide) _

theorem beyondInt_lt : 2 ^ 31 + 1 < 2 ^ 63 := by decide

/-- The `ConcurrentLRU` of the size at which `LRUCache` runs out of numbers. -/
def beyondInt : Config (2 ^ 31 + 1) ℕ :=
  ⟨id, 0, 1, Nat.one_pos, LruCache.one_le_beyondInt, beyondInt_lt⟩

/-- **Without the bound on the elements** `ConcurrentLRU` serves what `LRUCache` does not. -/
theorem not_serve_matches :
    (∃ returns, serve beyondInt (2 ^ 33 + 2 ^ 32) (initial (2 ^ 31 + 1) ℕ ℕ Unit) [(2 ^ 31, 10)] =
      some returns) ∧
    ∀ fuel, (LruCache.allocateMemory (V := ℕ) LruCache.beyondInt).bind
        (fun s => LruCache.serve LruCache.beyondInt fuel s.1 [(2 ^ 31, 10)]) = none ∧
      ∀ s, LruCache.serve (V := ℕ) LruCache.beyondInt fuel s [(2 ^ 31, 10)] = none := by
  have hfuel : 3 * (2 ^ 31 + 1) + 55 < 2 ^ 33 + 2 ^ 32 := by omega
  obtain ⟨returns, hrun, -⟩ := serve_fresh (V := ℕ) beyondInt hfuel [(2 ^ 31, 10)]
  refine ⟨⟨returns, hrun⟩, fun fuel => ⟨?_, LruCache.serve_beyondInt fuel⟩⟩
  rw [LruCache.allocateMemory_beyondInt, Option.bind_none]

end DeferredLru.ConcurrentLru
