import DeferredLru.Lib.Shards
import DeferredLru.Lru.Refinement

set_option autoImplicit false

/-! # What `LRUCache` deletes

`evict` hands the pair of the element it removes to `onDelete`, and `releaseMemory` those of the elements
that are left, along the LRU list. The textbook cache holds every pair it was given until it drops it;
so after `releaseMemory` every inserted pair was deleted exactly once (`exec_deletes`). -/

namespace DeferredLru.LruCache

open Intrusive Recency

variable {N : ℕ} {K V : Type} {cfg : Config N K} {s : State N K V} {c : Cache K V}

/-! ## `releaseMemory` -/

/-- The loop of `releaseMemory`, standing on `i`, with the pairs it hands to `onDelete`. -/
def releaseLoop (s : State N K V) : ℕ → ℤ → Option (List (K × V))
  | 0, _ => none
  | fuel + 1, i =>
      if i = -1 then some []
      else do
        let n ← slot i
        let rest ← releaseLoop s fuel (s.listNext n)
        some ((s.key n, s.value n) :: rest)

/-- `releaseMemory` of a cache whose `storage_` is there or not. It leaves none. -/
def releaseMemory (fuel : ℕ) (s : State N K V) (storage : Bool) : Option (List (K × V) × Bool) := do
  let deleted ← if storage then releaseLoop s fuel s.lruListHead else some []
  some (deleted, false)

/-- So many calls of `releaseMemory` in a row; the destructor makes the last one. -/
def releaseRepeatedly (fuel : ℕ) (s : State N K V) : ℕ → Bool → Option (List (K × V))
  | 0, _ => some []
  | calls + 1, storage => do
      let (deleted, storage) ← releaseMemory fuel s storage
      let rest ← releaseRepeatedly fuel s calls storage
      some (deleted ++ rest)

theorem releaseLoop_chain {fuel : ℕ} {i : ℤ} {l : List (Fin N)}
    (h : Chain s.listNext index i l (-1)) (hfuel : l.length < fuel) :
    releaseLoop s fuel i = some (l.map fun n => (s.key n, s.value n)) := by
  induction l generalizing fuel i with
  | nil =>
      obtain ⟨fuel, rfl⟩ := Nat.exists_eq_add_one.2 hfuel
      rw [releaseLoop, if_pos (chain_nil.1 h)]
      rfl
  | cons n l ih =>
      obtain ⟨fuel, rfl⟩ := Nat.exists_eq_add_one.2 (Nat.zero_lt_of_lt hfuel)
      obtain ⟨rfl, hrest⟩ := h
      rw [List.length_cons] at hfuel
      rw [releaseLoop, if_neg (index_ne_end n), slot_index]
      simp [ih hrest (Nat.lt_of_succ_lt_succ hfuel)]

theorem releaseRepeatedly_released (fuel calls : ℕ) (s : State N K V) :
    releaseRepeatedly fuel s calls false = some [] := by
  induction calls with
  | zero => rfl
  | succ calls ih =>
      rw [releaseRepeatedly]
      simp [releaseMemory, ih]

/-- `releaseMemory` deletes the entries of the textbook cache in their order. -/
theorem Represents.releaseMemory (h : Represents cfg s c) {fuel : ℕ} (hfuel : N < fuel) :
    releaseMemory fuel s true = some (c.order.map Recency.Entry.pair, false) := by
  have hlen := h.length_le
  obtain ⟨a, stamp, hrep, hstores⟩ := h
  have hpairs : c.order.map Recency.Entry.pair = a.lru.map fun n => (s.key n, s.value n) := by
    rw [hstores.order, List.map_map]
    rfl
  have hloop := releaseLoop_chain hrep.lists.order.forward
    (lt_of_le_of_lt (hstores.length ▸ hlen) hfuel)
  rw [LruCache.releaseMemory, if_pos rfl, hloop, hpairs]
  rfl

theorem Represents.releaseRepeatedly (h : Represents cfg s c) {fuel : ℕ} (hfuel : N < fuel)
    (calls : ℕ) :
    releaseRepeatedly fuel s (calls + 1) true = some (c.order.map Recency.Entry.pair) := by
  rw [LruCache.releaseRepeatedly, h.releaseMemory hfuel]
  simp [releaseRepeatedly_released]

/-! ## The balance of the textbook cache -/

/-- The pair a call inserts. -/
def Call.inserted : Call K V → List (K × V)
  | .find _ => []
  | .insert k v => [(k, v)]

variable [DecidableEq K] [DecidableEq V]

theorem textbook_balanced (n : ℕ) : Shards.Balanced (fun c op => some (textbook n c op))
    (fun c : Cache K V => c.order.map Recency.Entry.pair) (fun op _ => op.inserted)
    Result.deleted := by
  intro c op r c' h
  cases op with
  | find k =>
      cases h
      simpa [Call.inserted, textbook] using (c.lookup_perm k).map Recency.Entry.pair
  | insert k v =>
      cases h
      have hpairs := c.insert_pairs n k v
      rw [List.map_append] at hpairs
      exact .of_eq hpairs

theorem serve_textbook (n : ℕ) (c : Cache K V) (ops : List (Call K V)) :
    Shards.serve (fun c op => some (textbook n c op)) c ops = some (textbookCalls n c ops) := by
  induction ops generalizing c with
  | nil => rfl
  | cons op ops ih => exact Shards.serve_cons.2 ⟨_, _, _, rfl, ih _, rfl⟩

/-- **Every inserted pair is deleted exactly once.** Whatever the calls, the pairs they hand to
    `onDelete`, together with those that one or more calls of `releaseMemory` hand to it afterwards, are
    the pairs inserted; and the latter come in the order of the textbook cache, least recently used
    first. -/
theorem exec_deletes [Inhabited K] [Inhabited V] (cfg : Config N K) (ops : List (Call K V))
    {fuel : ℕ} (hfuel : N < fuel) (calls : ℕ) :
    ∃ (results : List (Result K V)) (s : State N K V), exec cfg fuel ops = some (results, s) ∧
      ∃ released, releaseRepeatedly fuel s (calls + 1) true = some released ∧
        released = (textbookCalls N Cache.empty ops).2.order.map Recency.Entry.pair ∧
        (results.flatMap Result.deleted ++ released).Perm (ops.flatMap Call.inserted) := by
  obtain ⟨s, hrun, hrep, -⟩ := exec_refines cfg ops hfuel
  refine ⟨_, s, hrun, _, hrep.releaseRepeatedly hfuel calls, rfl, ?_⟩
  have hserve := serve_textbook N (Cache.empty : Cache K V) ops
  have hbalance := (textbook_balanced N).serve hserve
  have hinserted : ((ops.zip (textbookCalls N (Cache.empty : Cache K V) ops).1).flatMap
      fun p => p.1.inserted) = ops.flatMap Call.inserted := by
    have hfst := List.map_fst_zip (Shards.serve_length hserve).ge
    conv_rhs => rw [← hfst, List.flatMap_map]
  rw [hinserted] at hbalance
  exact hbalance

theorem exec_deletes_twoElements : ∃ (results : List (Result ℕ ℕ)) (s : State 2 ℕ ℕ),
    exec twoElements 3 [.insert 1 10, .insert 2 20, .find 1, .insert 3 30] = some (results, s) ∧
    ∃ released, releaseRepeatedly 3 s (1 + 1) true = some released ∧
      released = (textbookCalls 2 (Cache.empty : Cache ℕ ℕ)
        [.insert 1 10, .insert 2 20, .find 1, .insert 3 30]).2.order.map Recency.Entry.pair ∧
      (results.flatMap Result.deleted ++ released).Perm
        (([.insert 1 10, .insert 2 20, .find 1, .insert 3 30] : List (Call ℕ ℕ)).flatMap
          Call.inserted) :=
  exec_deletes twoElements _ (by decide) 1

end DeferredLru.LruCache
