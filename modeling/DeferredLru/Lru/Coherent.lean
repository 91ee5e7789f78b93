import DeferredLru.Lru.Represent

set_option autoImplicit false

/-! # What `coherent` tests

On a state whose lists are intact every loop of `coherent` reaches its end, its `int` not having passed
the number of elements, and every test passes but one: that no element of a bucket has the index
`current_element_count_` (`coherent_spec`). -/

namespace DeferredLru.LruCache

open Intrusive

variable {N : ℕ} {K V : Type} {cfg : Config N K} {s : State N K V} {a : Lists N}

theorem walkEmpty_spec (fuel nbcount : ℕ) {i : ℤ} {l : List (Fin N)} (hN : N < 2 ^ 31)
    (h : Chain s.listNext index i l (-1)) (hlen : nbcount + l.length ≤ N)
    (hfuel : N + 2 ≤ nbcount + fuel) : walkEmpty s fuel nbcount i = some true := by
  induction fuel generalizing nbcount i l with
  | zero => exact absurd hfuel (by omega)
  | succ fuel ih =>
      cases l with
      | nil => rw [walkEmpty, if_pos (chain_nil.1 h)]
      | cons n l =>
          obtain ⟨rfl, hrest⟩ := h
          rw [List.length_cons] at hlen
          rw [walkEmpty, if_neg (index_ne_end n), if_neg (by omega), slot_index]
          simp only [Option.bind_eq_bind, Option.bind_some,
            increment_of_lt (by omega : nbcount + 1 < 2 ^ 31)]
          exact ih (nbcount + 1) hrest (by omega) (by omega)

theorem walkForward_spec (fuel nbcount : ℕ) {i : ℤ} {l : List (Fin N)}
    (h : Chain s.listNext index i l (-1)) (hlen : nbcount + l.length ≤ N)
    (hfuel : N + 2 ≤ nbcount + fuel)
    (hbucket : ∀ n ∈ l, s.bucketPrev n < 0 → (cfg.whichBucket (s.key n) : ℤ) = -s.bucketPrev n - 1) :
    walkForward cfg s fuel nbcount i = some (some (nbcount + l.length)) := by
  induction fuel generalizing nbcount i l with
  | zero => exact absurd hfuel (by omega)
  | succ fuel ih =>
      cases l with
      | nil => rw [walkForward, if_pos (chain_nil.1 h), List.length_nil, Nat.add_zero]
      | cons n l =>
          obtain ⟨rfl, hrest⟩ := h
          rw [List.length_cons] at hlen ⊢
          rw [walkForward, if_neg (index_ne_end n), if_neg (by omega), slot_index]
          have hgo := ih (nbcount + 1) hrest (by omega) (by omega)
            (fun m hm => hbucket m (by simp [hm]))
          rw [Nat.add_right_comm] at hgo
          have hcount := increment_of_lt (c := nbcount) (by have := cfg.capacity_lt; omega)
          by_cases hneg : s.bucketPrev n < 0
          · simpa [hneg, hbucket n (by simp) hneg, hcount, Nat.add_assoc] using hgo
          · simpa [hneg, hcount, Nat.add_assoc] using hgo

theorem walkBack_spec (fuel nbcount : ℕ) {l : List (Fin N)} (hN : N < 2 ^ 31)
    (h : Back s.listPrev index (-1) l) (hlen : nbcount + l.length ≤ N)
    (hfuel : N + 2 ≤ nbcount + fuel) :
    walkBack s fuel nbcount (lastAddr index (-1) l) = some (some (nbcount + l.length)) := by
  induction fuel generalizing nbcount l with
  | zero => exact absurd hfuel (by omega)
  | succ fuel ih =>
      rcases List.eq_nil_or_concat l with rfl | ⟨l, n, rfl⟩
      · rw [walkBack, if_pos lastAddr_nil, List.length_nil, Nat.add_zero]
      · rw [List.concat_eq_append] at h hlen ⊢
        obtain ⟨hback, hprev, -⟩ := back_append.1 h
        rw [List.length_append, List.length_singleton] at hlen ⊢
        rw [lastAddr_concat, walkBack, if_neg (index_ne_end n), if_neg (by omega), slot_index]
        have hgo := ih (nbcount + 1) hback (by omega) (by omega)
        rw [← hprev] at hgo
        have hcount := increment_of_lt (by omega : nbcount + 1 < 2 ^ 31)
        simpa [hcount, Nat.add_assoc, Nat.add_comm 1] using hgo

/-- No element of a bucket has the same neighbour on both sides. -/
theorem neighbours_differ {b : ℕ} {first : ℤ} {l : List (Fin N)} {n : Fin N}
    (h : Doubly s.bucketNext s.bucketPrev index (-b - 1) first (-1) l) (hn : n ∈ l) :
    ¬ (s.bucketNext n = s.bucketPrev n ∧ 0 ≤ s.bucketPrev n) := by
  rintro ⟨hsame, hpos⟩
  have hdup := h.nodup index_injective end_ne_index
  rcases h.backward.prev_mem hn with hout | ⟨m, hm, hprev⟩
  · omega
  · have hback : s.bucketNext m = index n :=
      (h.prev_eq_iff index_injective end_ne_index (fun y _ => front_ne_index b y) hn hm).1 hprev
    -- the chain behind `n` starts with `m`, whose successor is `n` again
    obtain ⟨l₁, l₂, rfl⟩ := List.append_of_mem hn
    have hrest := (Chain.split h.forward).2
    rw [hsame, hprev] at hrest
    have hnl₂ := (List.nodup_cons.1 (List.nodup_append.1 hdup).2.1).1
    cases l₂ with
    | nil => exact index_ne_end m hrest
    | cons x l₂ =>
        obtain rfl := index_injective hrest.1
        rcases Chain.start_mem hrest.2 with hend | ⟨y, hy, hnext⟩
        · exact index_ne_end n (hback.symm.trans hend)
        · rw [index_injective (hback.symm.trans hnext)] at hnl₂
          exact hnl₂ (by simp [hy])

theorem walkBucket_spec (fuel nbcount : ℕ) {j : ℕ} {i : ℤ} {l : List (Fin N)}
    (h : Chain s.bucketNext index i l (-1)) (hlen : nbcount + l.length ≤ N)
    (hfuel : N + 2 ≤ nbcount + fuel) (hkey : ∀ n ∈ l, cfg.whichBucket (s.key n) = j)
    (hdiffer : ∀ n ∈ l, ¬ (s.bucketNext n = s.bucketPrev n ∧ 0 ≤ s.bucketPrev n)) :
    walkBucket cfg s j fuel nbcount i = some (decide (∀ n ∈ l, n.val ≠ s.currentElementCount)) := by
  induction fuel generalizing nbcount i l with
  | zero => exact absurd hfuel (by omega)
  | succ fuel ih =>
      cases l with
      | nil =>
          rw [walkBucket, if_pos (by rw [chain_nil.1 h]; omega)]
          simp
      | cons n l =>
          obtain ⟨rfl, hrest⟩ := h
          rw [List.length_cons] at hlen
          have hgo := ih (nbcount + 1) hrest (by omega) (by omega)
            (fun m hm => hkey m (by simp [hm])) (fun m hm => hdiffer m (by simp [hm]))
          have hneg : ¬ index n < 0 := by
            have := index_nonneg n
            omega
          rw [walkBucket, if_neg hneg, slot_index]
          by_cases hcount : n.val = s.currentElementCount
          · simp [index, hcount]
          · have hindex : index n ≠ (s.currentElementCount : ℤ) := by
              intro heq
              exact hcount (by simpa [index] using heq)
            have hlt := cfg.capacity_lt
            simp [hindex, hkey n (by simp), hdiffer n (by simp), hgo, hcount,
              increment_of_lt (by omega : nbcount + 1 < 2 ^ 31), show ¬ N < nbcount by omega]

theorem walkBuckets_spec (h : Links cfg s a) (js : List ℕ) (hjs : ∀ j ∈ js, j < cfg.bucketCount) :
    walkBuckets cfg s js =
      some (decide (∀ j ∈ js, ∀ n ∈ a.bucket j, n.val ≠ s.currentElementCount)) := by
  induction js with
  | nil => simp [walkBuckets]
  | cons j js ih =>
      have hj := hjs j (by simp)
      have hlen := h.bucket_length hj
      have hone := walkBucket_spec (N + 2) 0 (h.buckets j hj).forward (by omega) (by omega)
        (fun n hn => ((h.mem_bucket j n).1 hn).2) (fun n hn => neighbours_differ (h.buckets j hj) hn)
      rw [walkBuckets, hone, ih (fun i hi => hjs i (by simp [hi])),
        decide_eq_decide.2 List.forall_mem_cons, Bool.decide_and]
      have hcount := increment_of_lt ((Nat.succ_le_of_lt hj).trans_lt cfg.bucketCount_lt)
      cases decide (∀ n ∈ a.bucket j, n.val ≠ s.currentElementCount) <;> simp [hcount]

/-- Whether `coherent` holds when the LRU list is `lru` and `count` elements are counted. -/
def coherentAt (lru : List (Fin N)) (count : ℕ) : Bool := lru.all (fun n => n.val ≠ count)

theorem coherentAt_iff {lru : List (Fin N)} {count : ℕ} :
    coherentAt lru count = true ↔ ∀ n ∈ lru, n.val ≠ count := by
  simp [coherentAt]

/-- **`coherent` on intact lists**: it holds exactly if the slot numbered by the element count is not
    in use. -/
theorem coherent_spec (h : Links cfg s a) :
    coherent cfg s = some (coherentAt a.lru s.currentElementCount) := by
  have hlen := h.lists.length
  have hbucket : ∀ n ∈ a.lru, s.bucketPrev n < 0 →
      (cfg.whichBucket (s.key n) : ℤ) = -s.bucketPrev n - 1 := by
    intro n hn hneg
    rcases (h.buckets _ (cfg.whichBucket_lt _)).backward.prev_mem (h.mem_own_bucket hn) with
      hout | ⟨m, -, hm⟩
    · omega
    · have := index_nonneg m
      omega
  have hempty := walkEmpty_spec (N + 2) 0 cfg.capacity_lt h.lists.empty (by omega) (by omega)
  have hforward := walkForward_spec (N + 2) 0 h.lists.order.forward
    (by omega) (by omega) hbucket
  have hback := walkBack_spec (N + 2) 0 cfg.capacity_lt h.lists.order.backward
    (by omega) (by omega)
  have hbuckets := walkBuckets_spec h (List.range cfg.bucketCount)
    (fun j hj => List.mem_range.1 hj)
  have hall : (∀ j ∈ List.range cfg.bucketCount, ∀ n ∈ a.bucket j, n.val ≠ s.currentElementCount) ↔
      ∀ n ∈ a.lru, n.val ≠ s.currentElementCount := by
    constructor
    · intro hj n hn
      exact hj _ (List.mem_range.2 (cfg.whichBucket_lt _)) n (h.mem_own_bucket hn)
    · intro hn j _ n hnj
      exact hn n ((h.mem_bucket j n).1 hnj).1
  rw [← h.lists.tail] at hback
  rw [coherent, hempty]
  simp only [Option.bind_eq_bind, Option.bind_some, if_true, hforward, hback, ne_eq, not_true_eq_false,
    if_false]
  rw [hbuckets]
  refine congrArg some (Bool.eq_iff_iff.2 ?_)
  rw [decide_eq_true_iff, hall, coherentAt_iff]

/-- What `assert(coherent())` records. -/
def checked (cfg : Config N K) (ok : Bool) : List (Event K V) :=
  if cfg.enableDebug then [.coherent ok] else []

theorem assertCoherent_spec (h : Links cfg s a) :
    assertCoherent cfg s = some (checked cfg (coherentAt a.lru s.currentElementCount)) := by
  unfold assertCoherent checked
  by_cases hdebug : cfg.enableDebug = true
  · rw [if_pos hdebug, if_pos hdebug, coherent_spec h]
    rfl
  · rw [if_neg hdebug, if_neg hdebug]

end DeferredLru.LruCache
