import DeferredLru.Deferred.Runs

set_option autoImplicit false

/-! # The exact effect of `pullRecent` and `purgeOld`

`consolidateCache` calls both in the middle of an operation, when the counters and flags of `Rep` are
already on the move. What they rely on is `Links`, and for the element counter of a purge that every
linked node has been counted. From any such state they terminate in one determined state: `Pulled`
and `Purged` say which. -/

namespace DeferredLru

open Intrusive

variable {N : ℕ} {K V : Type} {cfg : Config N K} {m m' : Mem N K V} {a : Lists N}

/-! ## `pullRecent` -/

/-- `m'` is what a pull leaves of the memory `m` with the lists `a`. -/
structure Pulled (m m' : Mem N K V) (a : Lists N) : Prop where
  /-- The marked nodes come first, newest mark first; the front node, marked or not, stays with the
      others. -/
  lru : LruList m' (a.recent.filter (fun n => ¬ a.isFront n) ++
    a.lru.filter (fun n => n ∉ a.recent ∨ a.isFront n))
  /-- No listed node is left hooked to the `head` on the stack. -/
  unhooked : ∀ n ∈ a.lru,
    m'.lruNext (.node n) ≠ .localHead ∧ m'.lruPrev (.node n) ≠ .localHead
  others : ∀ n, n ∉ a.lru → SameLinks m m' n
  recentHead : m'.recentHead = .dummy
  recentCount : m'.recentCount = 0
  unmarked : ∀ n, m'.recentNext n = .null
  pool : Chain (fun n => m'.lruNext (.node n)) .node m'.emptyHead a.pool .null
  contents : SameContents m m'

/-- The links of a listed node lead to cells of the list or to its ends. -/
theorem LruList.unhooked {l : List (Fin N)} {n : Fin N} (h : LruList m l) (hn : n ∈ l) :
    m.lruNext (.node n) ≠ .localHead ∧ m.lruPrev (.node n) ≠ .localHead := by
  refine ⟨?_, ?_⟩
  · rcases h.linked.next_mem (isCell_node hn) with heq | ⟨y, -, heq⟩ <;> rw [heq] <;> simp
  · rcases (h.prev_spec hn).1 with heq | ⟨y, -, heq⟩ <;> rw [heq] <;> simp

theorem Links.pulled (h : Links cfg m a) (h' : Links cfg m' a.pull) (hcount : m'.recentCount = 0)
    (hsame : SameContents m m') (hothers : ∀ n, n ∉ a.lru → SameLinks m m' n) : Pulled m m' a where
  lru := by
    have hlists : a.pull.lru = a.recent.filter (fun n => ¬ a.isFront n) ++
        a.lru.filter (fun n => n ∉ a.recent ∨ a.isFront n) := by
      simp [Lists.pull]
    rw [← hlists]
    exact h'.lru
  unhooked n hn := h'.lru.unhooked ((Lists.mem_pull_lru h.recent_sub n).2 hn)
  others := hothers
  recentHead := h'.recent
  recentCount := hcount
  unmarked n := by
    by_contra hmark
    exact absurd ((h'.marked n).1 hmark) (by simp [Lists.pull])
  pool := h'.pool
  contents := hsame

/-- **`pullRecent`, exactly.** It terminates and leaves the LRU list equal to the Recent list without
    the front node, followed by the rest of the LRU list in its old order. The Recent list is empty
    and nothing else has changed. -/
theorem pullRecent_exact (h : Links cfg m a) :
    ∃ m', (∀ fuel, N < fuel → pullRecent fuel m = some m') ∧ Pulled m m' a := by
  have hfuel : a.recent.length < N + 1 := by
    have := length_le_capacity h.recent_nodup
    omega
  obtain ⟨m', hrun, hlinks, hcount, hsame, hothers⟩ := pullRecent_spec h hfuel
  exact ⟨m', fun fuel hN => pullRecent_mono hrun hN, h.pulled hlinks hcount hsame hothers⟩

/-- Three nodes in one bucket; two marks trigger a pull. -/
def threeNodes : Config 3 ℕ where
  pullThreshold := 2
  purgeThreshold := 1
  hasher := id
  bucketCount := 1
  capacity_pos := by decide
  pullThreshold_pos := Nat.two_pos
  purgeThreshold_pos := Nat.one_pos
  bucketCount_pos := Nat.one_pos

/-- A pull of a full cache whose least recently used node is marked. -/
theorem pullRecent_exact_threeNodes : ∃ (m m' : Mem 3 ℕ ℕ) (a : Lists 3) (trace : List (Event 3 ℕ ℕ)),
    Run threeNodes [.insert 1 10, .insert 2 20, .insert 3 30, .find 1] m trace ∧
      m.recentHead = .node 0 ∧ (∀ fuel, 3 < fuel → pullRecent fuel m = some m') ∧ Pulled m m' a := by
  have hrun : Run threeNodes [.insert 1 10, .insert 2 20, .insert 3 30, .find 1] _ _ :=
    (((Run.start.call (.insert (show insert threeNodes 4 _ 1 10 = _ from rfl))).call
      (.insert (show insert threeNodes 4 _ 2 20 = _ from rfl))).call
      (.insert (show insert threeNodes 4 _ 3 30 = _ from rfl))).call
      (.find (show find threeNodes 4 _ 1 = _ from rfl))
  obtain ⟨a, ha⟩ := hrun.evolves
  obtain ⟨m', hpull, hpulled⟩ := pullRecent_exact ha.rep.toLinks
  exact ⟨_, m', a, _, hrun, rfl, hpull, hpulled⟩

/-! ## `purgeOld` -/

/-- `m'` is what a purge of `victims` leaves of the memory `m` with the lists `a`. -/
structure Purged (m m' : Mem N K V) (a : Lists N) (victims : List (Fin N)) : Prop where
  lru : LruList m' (a.lru.filter (fun n => n ∉ victims))
  buckets : ∀ b,
    Chain m'.bucketNext some (m'.buckets b) ((a.bucket b).filter (fun n => n ∉ victims)) none
  pool : Chain (fun n => m'.lruNext (.node n)) .node m'.emptyHead (victims.reverse ++ a.pool) .null
  recent : Chain m'.recentNext .node m'.recentHead a.recent .dummy
  count : m'.currentElementCount + victims.length = m.currentElementCount
  /-- Keys, values, marks and flags stay. -/
  entries : SameEntries m m'

/-- The evictable nodes are those that are neither marked nor the front one. -/
theorem Links.mem_evictable (h : Links cfg m a) (n : Fin N) :
    n ∈ a.evictable ↔ n ∈ a.lru ∧ n ∉ a.recent ∧ ¬ a.isFront n := by
  have hdup := h.lru_nodup
  simp only [Lists.evictable, Lists.isFront, List.mem_filter, List.mem_reverse, decide_eq_true_eq]
  cases hl : a.lru with
  | nil => simp
  | cons f l =>
      rw [hl] at hdup
      have hf : f ∉ l := (List.nodup_cons.1 hdup).1
      by_cases hn : n = f
      · subst hn
        simp [hf]
      · have hfn : f ≠ n := fun heq => hn heq.symm
        simp [hn, hfn]

/-- **`purgeOld`, exactly.** It terminates and evicts, in tail-to-head order, the
    `max requiredNodes 1` nodes nearest to the tail among those that are neither marked nor the front
    one, or all of them if there are fewer. What survives keeps its order, mark, key and value. -/
theorem purgeOld_exact (h : Links cfg m a) (hcount : a.lru.length ≤ m.currentElementCount)
    (requiredNodes : ℕ) :
    ∃ m' victims, victims = a.evictable.take (max requiredNodes 1) ∧
      (∀ n, n ∈ a.evictable ↔ n ∈ a.lru ∧ n ∉ a.recent ∧ ¬ a.isFront n) ∧ a.evictable.Nodup ∧
      victims.length = min (max requiredNodes 1) a.evictable.length ∧
      (∀ fuel, N < fuel → purgeOld cfg fuel m requiredNodes =
        some (victims.map (fun n => (m.key n, m.value n)), m')) ∧
      Purged m m' a victims := by
  obtain ⟨m', hrun, hlinks, hsame, hcount'⟩ := purgeOld_spec h requiredNodes (Nat.lt_succ_self N)
  have hlength := h.purge_length (max requiredNodes 1)
  refine ⟨m', _, rfl, h.mem_evictable, h.evictable_nodup, List.length_take, fun fuel hN =>
    purgeOld_mono hrun hN, ⟨hlinks.lru, hlinks.buckets, hlinks.pool, hlinks.recent, ?_, hsame⟩⟩
  omega

theorem purgeOld_exact_twoNodes : ∃ (m m' : Mem 2 ℕ ℕ) (a : Lists 2) (victims : List (Fin 2))
    (trace : List (Event 2 ℕ ℕ)), Run twoNodes [.insert 7 70, .insert 8 80] m trace ∧
      victims = a.evictable.take 1 ∧
      (∀ fuel, 2 < fuel → purgeOld twoNodes fuel m 0 =
        some (victims.map (fun n => (m.key n, m.value n)), m')) ∧
      Purged m m' a victims := by
  have hrun : Run twoNodes [.insert 7 70, .insert 8 80] _ _ :=
    (Run.start.call (.insert (show insert twoNodes 3 _ 7 70 = _ from rfl))).call
      (.insert (show insert twoNodes 3 _ 8 80 = _ from rfl))
  obtain ⟨a, ha⟩ := hrun.evolves
  obtain ⟨m', victims, hv, -, -, -, hpurge, hpurged⟩ :=
    purgeOld_exact ha.rep.toLinks ha.rep.count.ge 0
  exact ⟨_, m', a, victims, _, hrun, hv, hpurge, hpurged⟩

end DeferredLru
