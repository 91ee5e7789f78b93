import DeferredLru.Concurrent.Steps

set_option autoImplicit false

/-! # `ConcurrentLRU` is coherent

The invariant holds in every reachable state (`Run.inv`), whatever the threads call and in whatever
order they step. `Coherent` is what follows from it for somebody who looks at the memory. -/

namespace DeferredLru.ConcurrentLru

open Intrusive

variable {N : ℕ} {K V T : Type} {cfg : Config N K} {s : State N K V T} {a : Lists N}
  {trace : List (Label N K V T)} {ok : State N K V T → Label N K V T → Prop}

/-- The lists `lru` and `pool` and the buckets, as the memory has them. -/
structure Coherent (cfg : Config N K) (s : State N K V T) (trace : List (Label N K V T))
    (lru pool : List (Fin N)) (bucket : ℕ → List (Fin N)) : Prop where
  /-- From cell to cell, `lru_next` and `lru_prev` agree. -/
  lru_strung : Strung s.mem.lruNext s.mem.lruPrev .node .lruHead .lruTail lru
  pool_strung : Strung s.mem.lruNext s.mem.lruPrev .node .poolHead .poolTail pool
  /-- No node is in both lists, or twice in one of them. -/
  nodup : (lru ++ pool).Nodup
  /-- A node in neither list is locked by exactly one thread. -/
  place : ∀ n, n ∈ lru ∨ n ∈ pool ∨
    ∃ t, s.nodeLock (.node n) = some t ∧ ∀ u, .node n ∈ (s.pc u).holds ↔ u = t
  chains : ∀ b, Chain s.mem.htNext some (s.mem.ht b) (bucket b) none ∧ (bucket b).Nodup
  /-- A node of the LRU list that is not locked has both flags set, and is in the bucket of its key
      and in no other. -/
  unlocked : ∀ n ∈ lru, s.nodeLock (.node n) = none → s.mem.lruFlag n = true ∧
    s.mem.htFlag n = true ∧ ∀ b, n ∈ bucket b ↔ b = cfg.whichBucket (s.mem.key n)
  /-- A `find` that succeeds has delivered a value that some `insert` stored together with the key. -/
  delivered : ∀ past l rest, trace = past ++ l :: rest → ∀ producer k n v,
    l.pc = .find producer k (.unlock n (some v)) → Stored past k v

theorem Inv.coherence (h : Inv cfg s a trace) : Coherent cfg s trace a.lru a.pool a.bucket where
  lru_strung := h.shape.strung .lru
  pool_strung := h.shape.strung .pool
  nodup := h.shape.nodup
  place n := by
    by_cases hn : s.nodeLock (.node n) = none
    · exact (h.rest n hn).imp And.left Or.inl
    · obtain ⟨t, ht⟩ := Option.ne_none_iff_exists'.1 hn
      refine Or.inr (Or.inr ⟨t, ht, fun u => ?_⟩)
      rw [← h.nodes.lock_eq_some u, ht, Option.some.injEq, eq_comm]
  chains b := ⟨h.shape.chains b, h.shape.bucket_nodup b⟩
  unlocked n hn hfree := by
    obtain ⟨-, hlive⟩ := (h.rest n hfree).resolve_right (h.shape.not_mem_pool hn)
    refine ⟨hlive.flag, hlive.hashed.1, fun b => ⟨fun hb => (h.shape.hashed b n hb).symm, ?_⟩⟩
    rintro rfl
    exact hlive.hashed.2
  delivered := h.found

/-- The cells of the pool, before anything is taken from it. -/
theorem pool_getElem {j : ℕ}
    (hj : j + 1 < (cells Ptr.node .poolHead .poolTail (List.finRange N)).length) :
    (cells Ptr.node .poolHead .poolTail (List.finRange N))[j + 1] =
      if h : j < N then .node ⟨j, h⟩ else .poolTail := by
  simp only [cells, List.getElem_cons_succ, List.getElem_append, List.length_map,
    List.length_finRange, List.getElem_map, List.getElem_finRange, List.getElem_singleton]
  rfl

/-- All nodes are in the pool. -/
theorem Shape.allocateMemory [Inhabited K] [Inhabited V] (cfg : Config N K) :
    Shape cfg (allocateMemory N K V) ⟨[], List.finRange N, fun _ => []⟩ := by
  refine ⟨fun i => ?_, ?_, fun b => rfl, fun b n hn => absurd hn (by simp),
    fun n _ => ⟨rfl, by simp [Lists.Bare]⟩⟩
  · cases i with
    | lru => exact List.isChain_pair.2 ⟨rfl, rfl⟩
    | pool =>
        have hN := cfg.capacity_pos
        show List.IsChain _ (cells Ptr.node .poolHead .poolTail (List.finRange N))
        refine List.isChain_iff_getElem.2 fun j hj => ?_
        have hlen : j < N + 1 := by simpa [cells] using hj
        rw [pool_getElem]
        cases j with
        | zero =>
            rw [dif_pos (by omega)]
            exact ⟨dif_pos (by omega), rfl⟩
        | succ j =>
            rw [pool_getElem, dif_pos (by omega)]
            by_cases hlast : j + 1 < N
            · rw [dif_pos hlast]
              exact ⟨dif_pos hlast, rfl⟩
            · rw [dif_neg hlast]
              refine ⟨dif_neg hlast, (dif_pos (by omega)).trans ?_⟩
              exact congrArg Ptr.node (Fin.ext (by show N - 1 = j; omega))
  · simpa using List.nodup_finRange N

theorem Inv.initial [Inhabited K] [Inhabited V] (cfg : Config N K) :
    Inv cfg (initial N K V T) ⟨[], List.finRange N, fun _ => []⟩ [] where
  shape := Shape.allocateMemory cfg
  nodes := ⟨fun t p => by simp [ConcurrentLru.initial, PC.holds], fun t => List.nodup_nil⟩
  buckets := ⟨fun t p => by simp [ConcurrentLru.initial, PC.bucket], fun t => List.nodup_nil⟩
  rest n _ := Or.inr (List.mem_finRange n)
  standing _ := trivial
  found past l rest heq := by simp at heq

variable [DecidableEq K] [DecidableEq T] [Inhabited K] [Inhabited V]

theorem Run.inv (hrun : Run cfg ok s trace) : ∃ a, Inv cfg s a trace := by
  induction hrun with
  | start => exact ⟨_, Inv.initial cfg⟩
  | step _ hstep _ ih =>
      obtain ⟨a, h⟩ := ih
      exact ⟨_, h.step hstep⟩

/-- **Every reachable state is coherent.** -/
theorem Run.integrity (hrun : Run cfg ok s trace) :
    ∃ lru pool bucket, Coherent cfg s trace lru pool bucket := by
  obtain ⟨a, h⟩ := hrun.inv
  exact ⟨a.lru, a.pool, a.bucket, h.coherence⟩

/-- A cache for two nodes with one bucket. -/
def twoNodes : Config 2 ℕ := ⟨id, 0, 2, Nat.two_pos, Nat.two_pos, by decide⟩

/-- Thread 1 stores a key and thread 2 finds it. -/
theorem Run.integrity_twoNodes : ∃ (s : State 2 ℕ ℕ ℕ) (trace : List (Label 2 ℕ ℕ ℕ)),
    Run twoNodes (fun _ _ => True) s trace ∧ s.mem.ht 0 = some 0 ∧
      ∃ lru pool bucket, Coherent twoNodes s trace lru pool bucket := by
  obtain ⟨s, trace, hrun, hgood⟩ := Run.of_play twoNodes (fun _ _ => True) (fun _ _ => true)
    (fun _ _ _ => trivial) (calls 1 (.insert 10 100) 28 ++ calls 2 (.find 10) 18)
    (fun s _ => s.mem.ht 0 = some 0) (by decide +kernel)
  exact ⟨s, trace, hrun, of_decide_eq_true hgood, hrun.integrity⟩

end DeferredLru.ConcurrentLru
