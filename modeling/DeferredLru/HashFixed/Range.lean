import DeferredLru.HashFixed.Runs
import DeferredLru.Lru.Range

set_option autoImplicit false

/-! # When the containers stay inside their arrays

`HashFixed` rounds `bucket_count_` down as `LRUCache` does, but it never evicts. -/

namespace DeferredLru

open Intrusive

variable {N : ℕ} {K V : Type} [Inhabited K] [Inhabited V] [DecidableEq K]

namespace HashFixed

/-- All accesses are inside the arrays: a key has a bucket, and no thread in a call, of at most `2^31`
    threads, is about to leave an array. -/
structure InRange (V : Type) [Inhabited V] (cfg : Arguments N K) : Prop where
  whichBucket : ∀ k, ∃ b, cfg.whichBucket k = some b ∧ 0 ≤ b ∧ b < cfg.bucketCount
  calls : ∀ (T : Type) [Fintype T] [DecidableEq T], Fintype.card T ≤ 2 ^ 31 →
    ∀ (s : State N K V T) (trace : List (Event N K V T)), Run cfg s trace →
      ∀ t, s.pc t ≠ .idle → ∀ fails, ∃ r, step cfg s t (.go fails) = some r

/-- **Exactly which tables stay inside their arrays**: those with as many elements as the load
    factor. -/
theorem inRange_iff {cfg : Arguments N K} (hN : N < 2 ^ 31) :
    InRange V cfg ↔ cfg.loadFactor ≤ N := by
  constructor
  · intro h
    obtain ⟨b, hb, hpos, hlt⟩ := h.whichBucket default
    have hcount : cfg.bucketCount ≠ 0 := by omega
    exact not_lt.1 fun hload => hcount (Nat.div_eq_of_lt hload)
  · intro hload
    let works : Config N K := ⟨cfg, hload⟩
    have hbuckets : works.bucketCount ≤ N := Nat.div_le_self ..
    refine ⟨fun k => ⟨_, works.whichBucket_eq k, ?_⟩, fun T _ _ hT s trace hrun t ht fails => ?_⟩
    · have hlt := Nat.mod_lt (works.hasher k) works.bucketCount_pos
      have hbelow : ((works.hasher k % works.bucketCount : ℕ) : ℤ) < works.bucketCount := by
        exact_mod_cast hlt
      rw [Config.whichBucket, toIndex_of_lt (by omega)]
      exact ⟨Int.natCast_nonneg _, hbelow⟩
    · have hthreads : limit N + Fintype.card T ≤ maxRacing N := by
        have : limit N ≤ 2 ^ 31 := Nat.min_le_right ..
        unfold maxRacing
        split <;> omega
      have hworks : Run works s trace := hrun
      exact hworks.proceeds hthreads (by omega) ht fails

end HashFixed

/-- **Exactly which capacities the containers work with.** `LRUCache` stays inside its arrays if it has
    at least two elements and at least as many as the load factor, `HashFixed` if the latter holds. -/
theorem ranges_iff (lru : LruCache.Arguments N K) (table : HashFixed.Arguments N K)
    (hN : N < 2 ^ 31) :
    (LruCache.InRange V lru ↔ lru.hashTableLoadFactor ≤ N ∧ 2 ≤ N) ∧
      (HashFixed.InRange V table ↔ table.loadFactor ≤ N) :=
  ⟨LruCache.inRange_iff hN, HashFixed.inRange_iff hN⟩

/-- Four elements in one bucket of each container. -/
theorem ranges_iff_fourElements :
    LruCache.InRange ℕ (⟨id, 0, 4, true, by decide⟩ : LruCache.Arguments 4 ℕ) ∧
      HashFixed.InRange ℕ (⟨id, 4, by decide, by decide⟩ : HashFixed.Arguments 4 ℕ) :=
  have h := ranges_iff (V := ℕ) (⟨id, 0, 4, true, by decide⟩ : LruCache.Arguments 4 ℕ)
    (⟨id, 4, by decide, by decide⟩ : HashFixed.Arguments 4 ℕ) (by decide)
  ⟨h.1.2 ⟨le_rfl, by decide⟩, h.2.2 le_rfl⟩

/-- A cache for one element, with load factor one. -/
def oneElement : LruCache.Arguments 1 ℕ := ⟨id, 0, 1, false, Nat.one_pos⟩

/-- Three elements with the default load factor. -/
def threeElements : LruCache.Arguments 3 ℕ := ⟨id, 0, 4, false, by decide⟩

/-- Three slots with the default load factor. -/
def threeSlots : HashFixed.Arguments 3 ℕ := ⟨id, 4, by decide, by decide⟩

-- the sample computes bucket numbers
attribute [local semireducible] toIndex

/-- Two memoized calls with different keys, a hash value and a bucket access that fail. -/
theorem not_inRange :
    (LruCache.exec oneElement 5 [.find 1, .insert 1 10, .find 2, .insert 2 20] = none ∧
      ¬ LruCache.InRange ℕ oneElement) ∧
    (threeElements.whichBucket 7 = none ∧ ¬ LruCache.InRange ℕ threeElements) ∧
    (threeSlots.whichBucket 7 = none ∧ ¬ HashFixed.InRange ℕ threeSlots) := by
  have hexec : LruCache.exec oneElement 5 [.find 1, .insert 1 10, .find 2, .insert 2 20] = none := rfl
  refine ⟨⟨hexec, fun h => ?_⟩, ⟨rfl, fun h => ?_⟩, ⟨rfl, fun h => ?_⟩⟩
  · obtain ⟨r, hr⟩ := h.calls [.find 1, .insert 1 10, .find 2, .insert 2 20] 5 (by decide)
    rw [hexec] at hr
    cases hr
  · obtain ⟨b, hb, -⟩ := h.whichBucket 7
    cases hb
  · obtain ⟨b, hb, -⟩ := h.whichBucket 7
    cases hb

end DeferredLru
