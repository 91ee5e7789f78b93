import DeferredLru.Lib.DoublyLinked
import DeferredLru.Lru.Code
import Mathlib.Data.Fintype.Card

set_option autoImplicit false

/-! # The lists an `LRUCache` stands for

`Lists` is the abstract state: the LRU list (least recently used first), the empty list and the
buckets. `Links cfg s a` says that the indices of `s` link exactly the lists `a`, in both directions
where the cache keeps two, and that each slot of `storage_` is in one of the first two. The element
count is left out: inside `insert` it runs ahead of the lists. -/

namespace DeferredLru.LruCache

open Intrusive

variable {N : ℕ} {K V : Type} {cfg : Config N K} {s s' : State N K V}

theorem front_ne_index (b : ℕ) (n : Fin N) : (-b - 1 : ℤ) ≠ index n := neg_ne_index (by omega) n

/-- The slots of the LRU list, of the empty list and of the buckets, in order. -/
structure Lists (N : ℕ) where
  lru : List (Fin N)
  free : List (Fin N)
  bucket : ℕ → List (Fin N)

/-- The LRU list and the empty list, which share `list_next` and all slots. -/
structure ListLinks (s : State N K V) (lru free : List (Fin N)) : Prop where
  order : Doubly s.listNext s.listPrev index (-1) s.lruListHead (-1) lru
  tail : s.lruListTail = lastAddr index (-1) lru
  empty : Chain s.listNext index s.emptyNodesHead free (-1)
  slots : (lru ++ free).Perm (List.finRange N)

/-- The buckets: the `bucket_prev` of a first element encodes its bucket. -/
def BucketLinks (cfg : Config N K) (s : State N K V) (bucket : ℕ → List (Fin N)) : Prop :=
  ∀ b < cfg.bucketCount, Doubly s.bucketNext s.bucketPrev index (-b - 1) (s.bucket b) (-1) (bucket b)

/-- The state `s` represents the lists `a`. -/
structure Links (cfg : Config N K) (s : State N K V) (a : Lists N) : Prop where
  lists : ListLinks s a.lru a.free
  buckets : BucketLinks cfg s a.bucket
  mem_bucket : ∀ b n, n ∈ a.bucket b ↔ n ∈ a.lru ∧ cfg.whichBucket (s.key n) = b

namespace ListLinks

variable {lru free : List (Fin N)} {n : Fin N}

theorem nodup (h : ListLinks s lru free) : (lru ++ free).Nodup :=
  h.slots.nodup_iff.2 (List.nodup_finRange N)

theorem lru_nodup (h : ListLinks s lru free) : lru.Nodup := (List.nodup_append.1 h.nodup).1

theorem disjoint (h : ListLinks s lru free) (hn : n ∈ lru) : n ∉ free := fun hf =>
  (List.nodup_append.1 h.nodup).2.2 n hn n hf rfl

theorem length (h : ListLinks s lru free) : lru.length + free.length = N := by
  rw [← List.length_append, h.slots.length_eq, List.length_finRange]

/-- Neither the buckets nor the contents are part of the two lists. -/
theorem congr (h : ListLinks s lru free) (hnext : s'.listNext = s.listNext)
    (hprev : s'.listPrev = s.listPrev) (hhead : s'.lruListHead = s.lruListHead)
    (htail : s'.lruListTail = s.lruListTail) (hempty : s'.emptyNodesHead = s.emptyNodesHead) :
    ListLinks s' lru free := by
  refine ⟨?_, htail.trans h.tail, ?_, h.slots⟩
  · rw [hnext, hprev, hhead]
    exact h.order
  · rw [hnext, hempty]
    exact h.empty

end ListLinks

namespace Links

variable {a : Lists N} {n : Fin N}

theorem mem_own_bucket (h : Links cfg s a) (hn : n ∈ a.lru) :
    n ∈ a.bucket (cfg.whichBucket (s.key n)) := (h.mem_bucket _ n).2 ⟨hn, rfl⟩

theorem bucket_nodup (h : Links cfg s a) {b : ℕ} (hb : b < cfg.bucketCount) : (a.bucket b).Nodup :=
  (h.buckets b hb).nodup index_injective end_ne_index

theorem bucket_length (h : Links cfg s a) {b : ℕ} (hb : b < cfg.bucketCount) :
    (a.bucket b).length ≤ N := by
  simpa using (h.bucket_nodup hb).length_le_card

theorem count (h : Links cfg s a) (count : ℕ) : Links cfg { s with currentElementCount := count } a :=
  ⟨h.lists.congr rfl rfl rfl rfl rfl, h.buckets, h.mem_bucket⟩

end Links

end DeferredLru.LruCache
