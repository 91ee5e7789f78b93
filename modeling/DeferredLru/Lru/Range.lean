import DeferredLru.Lru.Refinement

set_option autoImplicit false

/-! # When `LRUCache` stays inside its arrays

`bucket_count_` is rounded down, so a cache with fewer elements than its load factor has no bucket to
choose from. One with a single element cannot evict it: the successor of the only element of the LRU
list is -1, and `evict` writes to `storage_[-1]`. In all other caches whose elements an `int` can count
every access is in range. -/

namespace DeferredLru.LruCache

open Intrusive

variable {N : ℕ} {K V : Type} {cfg : Arguments N K} {s s' : State N K V} {n : Fin N} {fuel : ℕ}

theorem Arguments.bucketCount_eq_zero : cfg.bucketCount = 0 ↔ N < cfg.hashTableLoadFactor :=
  Nat.div_eq_zero_iff.trans (or_iff_right (by have := cfg.loadFactor_pos; omega))

/-- All accesses are inside the arrays: a key has a bucket, and a sequence of calls on a fresh cache
    returns. -/
structure InRange (V : Type) [Inhabited K] [Inhabited V] [DecidableEq K] (cfg : Arguments N K) :
    Prop where
  whichBucket : ∀ k, ∃ b, cfg.whichBucket k = some b ∧ 0 ≤ b ∧ b < cfg.bucketCount
  calls : ∀ (ops : List (Call K V)) (fuel : ℕ), N < fuel → ∃ r, exec cfg fuel ops = some r

/-! ## One element -/

/-- `evict` of an element without a successor. -/
theorem evict_of_last (hhead : s.lruListHead = index n) (hlast : s.listNext n = -1) :
    evict cfg s = none := by
  have hunlink : unlinkVictim s n = none := by
    simp only [unlinkVictim, hlast]
    rfl
  rw [evict, hhead, slot_index]
  cases assertCoherent cfg s with
  | none => rfl
  | some before => simp only [Option.bind_eq_bind, Option.bind_some, hunlink, Option.bind_none]

theorem insert_of_last (hfull : N ≤ s.currentElementCount) (hhead : s.lruListHead = index n)
    (hlast : s.listNext n = -1) (k : K) (v : V) : insert cfg fuel s k v = none := by
  have hevict : evictWhileFull cfg fuel s = none := by
    cases fuel with
    | zero => rfl
    | succ fuel =>
        rw [evictWhileFull, if_pos hfull, evict_of_last hhead hlast]
        rfl
  rw [insert, hevict]
  cases assertCoherent cfg s <;> rfl

/-- The first element of the LRU list has no neighbours. -/
theorem insertAtEnd_first (htail : s.lruListTail = -1) (hhead : s.lruListHead = -1)
    (h : insertAtEnd s n = some s') : s'.currentElementCount = s.currentElementCount ∧
      s'.lruListHead = index n ∧ s'.listNext n = -1 := by
  obtain ⟨s₁, hrun, hsame, -, hnext, -, hfirst, -⟩ := insertAtEnd_eq (x := n) (Or.inl htail)
  rw [hrun] at h
  cases h
  exact ⟨hsame.count, hfirst.trans (if_pos hhead), hnext⟩

theorem insertInBucket_only {b : ℕ} (h : insertInBucket s n b = some s') : BucketsOnly s s' := by
  unfold insertInBucket at h
  dsimp only at h
  split at h
  case isTrue =>
    cases hslot : slot (N := N) (s.bucket b) with
    | none => simp [State.setBucketNext, hslot] at h
    | some first =>
        simp [State.setBucketNext, hslot] at h
        subst h
        exact ⟨rfl, rfl, rfl, rfl, rfl, rfl, rfl, rfl⟩
  case isFalse =>
    cases h
    exact ⟨rfl, rfl, rfl, rfl, rfl, rfl, rfl, rfl⟩

/-- The first element of a cache is the last one of its LRU list. -/
theorem insert_initialState [Inhabited K] [Inhabited V] (cfg : Arguments 1 K) {s : State 1 K V}
    {k : K} {v : V} {events : List (Event K V)}
    (h : insert cfg fuel (initialState 1 K V) k v = some (s, events)) :
    s.currentElementCount = 1 ∧ s.lruListHead = index (0 : Fin 1) ∧ s.listNext 0 = -1 := by
  simp only [insert, Option.bind_eq_bind, Option.bind_eq_some_iff] at h
  obtain ⟨before, -, ⟨s₁, evictions⟩, hroom, ⟨s₂, added⟩, hadd, after, -, heq⟩ := h
  cases heq
  obtain rfl : initialState 1 K V = s₁ := by
    cases fuel with
    | zero => cases hroom
    | succ fuel =>
        have hempty : ¬ 1 ≤ (initialState 1 K V).currentElementCount := Nat.not_succ_le_zero 0
        rw [evictWhileFull, if_neg hempty] at hroom
        cases hroom
        rfl
  simp only [addElement, Option.bind_eq_bind, Option.bind_eq_some_iff] at hadd
  obtain ⟨newelem, -, s₃, hlist, wbuck, -, b, -, s₄, hbucket, heq⟩ := hadd
  obtain rfl : newelem = 0 := Subsingleton.elim _ _
  cases heq
  have hsame := insertInBucket_only hbucket
  obtain ⟨hcount, hhead, hnext⟩ := insertAtEnd_first rfl rfl hlist
  exact ⟨hsame.count.trans hcount, hsame.lruListHead.trans hhead,
    (congrFun hsame.listNext 0).trans hnext⟩

variable [Inhabited K] [Inhabited V] [DecidableEq K]

/-- With one element, the second insertion writes outside `storage_`. -/
theorem exec_twoInsertions (cfg : Arguments 1 K) (k k' : K) (v v' : V) :
    exec cfg fuel [.insert k v, .insert k' v'] = none := by
  have hcalls : calls cfg fuel (initialState 1 K V) [.insert k v, .insert k' v'] = none := by
    rw [calls, call]
    cases hfirst : insert cfg fuel (initialState 1 K V) k v with
    | none => rfl
    | some r =>
        obtain ⟨hcount, hhead, hlast⟩ := insert_initialState cfg hfirst
        simp only [Option.bind_eq_bind, Option.bind_some, calls, call,
          insert_of_last hcount.ge hhead hlast, Option.bind_none]
  rw [exec, allocateMemory]
  split_ifs
  · cases assertCoherent cfg (initialState 1 K V) with
    | none => rfl
    | some events => exact hcalls
  · rfl

/-! ## All other caches -/

/-- **Exactly which caches stay inside their arrays**: those with at least two elements and at least
    as many as the load factor. -/
theorem inRange_iff (hN : N < 2 ^ 31) : InRange V cfg ↔ cfg.hashTableLoadFactor ≤ N ∧ 2 ≤ N := by
  constructor
  · intro h
    have hload : cfg.hashTableLoadFactor ≤ N := by
      obtain ⟨b, -, hpos, hb⟩ := h.whichBucket default
      refine not_lt.1 fun hlt => ?_
      rw [Arguments.bucketCount_eq_zero.2 hlt] at hb
      exact not_lt.2 hpos hb
    refine ⟨hload, not_lt.1 fun hlt => ?_⟩
    obtain rfl : N = 1 := by
      have := cfg.loadFactor_pos
      omega
    obtain ⟨r, hr⟩ := h.calls [.insert default default, .insert default default] 2 (by decide)
    rw [exec_twoInsertions] at hr
    cases hr
  · rintro ⟨hload, htwo⟩
    let works : Config N K := ⟨cfg, htwo, hload, hN⟩
    classical
    refine ⟨fun k => ⟨_, works.whichBucket_eq k, works.whichBucket_range k⟩, fun ops fuel hfuel => ?_⟩
    obtain ⟨s, hrun, -⟩ := calls_represents (initialState_represents (V := V) works) hfuel ops
    have hexec : exec works.toArguments fuel ops =
        some ((textbookCalls N Recency.Cache.empty ops).1, s) := by
      rw [exec, allocateMemory_eq works]
      exact hrun
    exact ⟨_, hexec⟩

end DeferredLru.LruCache
