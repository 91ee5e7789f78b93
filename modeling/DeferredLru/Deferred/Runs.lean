import DeferredLru.Deferred.Fuel
import DeferredLru.Deferred.Operations
import Mathlib.Data.Fintype.EquivFin
import Mathlib.Data.List.FinRange

set_option autoImplicit false

/-! # Single-threaded runs of a `DeferredLRU`

A run is a sequence of completed calls from the state `allocateMemory` leaves. `Effect` lists what one
`find` or `insert` can do to the lists of `Represent.lean`, and `Evolves` strings such effects
together; `Run.evolves` says that every run of the code evolves so. From it come the representation
invariant (`Run.representation`); `Termination.lean` and `Epochs.lean` build on the same evolution. -/

namespace DeferredLru

open Intrusive

variable {N : ℕ} {K V : Type}

/-! ## The initial state -/

/-- A fresh cache: all nodes in the pool. -/
def Lists.initial (N : ℕ) : Lists N := ⟨[], [], List.finRange N, fun _ => []⟩

/-- The pool link of index `i`, and the pool head for `i = 0`. -/
def poolCell (N i : ℕ) : Ptr N := if h : i < N then .node ⟨i, h⟩ else .null

theorem allocateMemory_pool [Inhabited K] [Inhabited V] (d i : ℕ) (hd : i + d = N) :
    Chain (fun n => (allocateMemory N K V).lruNext (.node n)) .node (poolCell N i)
      ((List.finRange N).drop i) .null := by
  induction d generalizing i with
  | zero =>
      have hlen : (List.finRange N).length ≤ i := by simp; omega
      rw [List.drop_eq_nil_of_le hlen]
      simp only [poolCell, chain_nil]
      exact dif_neg (by omega)
  | succ d ih =>
      have hi : i < N := by omega
      have hlen : i < (List.finRange N).length := by simpa using hi
      rw [List.drop_eq_getElem_cons hlen]
      refine ⟨?_, ?_⟩
      · simp [poolCell, hi]
      · have hcell : (List.finRange N)[i] = ⟨i, hi⟩ := by simp
        rw [hcell]
        exact ih (i + 1) (by omega)

theorem allocateMemory_rep [Inhabited K] [Inhabited V] (cfg : Config N K) :
    Rep cfg (allocateMemory N K V) (.initial N) where
  lru := by
    refine ⟨rfl, ?_⟩
    rintro c (rfl | ⟨x, hx, -⟩)
    · rfl
    · exact absurd hx (by simp [Lists.initial])
  pool := allocateMemory_pool N 0 (by omega)
  recent := rfl
  marked _ := by simp [allocateMemory, Lists.initial]
  recent_sub _ hn := absurd hn (by simp [Lists.initial])
  pool_disjoint _ _ := by simp [Lists.initial]
  buckets _ := rfl
  mem_bucket _ _ := by simp [Lists.initial]
  total _ := by simp [Lists.initial]
  count := rfl
  recentCount := rfl
  belowThreshold := cfg.pullThreshold_pos
  noPull := rfl
  noPurge := rfl

/-! ## Runs -/

/-- A call of the public interface. -/
inductive Op (K V : Type) where
  | find (k : K)
  | insert (k : K) (v : V)
  /-- The call whose producer, if it is asked, returns `x`. -/
  | consumeCachedOrCompute (k : K) (x : V)

/-- Neither of the two primitive calls. -/
def Op.isConsume : Op K V → Bool
  | .consumeCachedOrCompute .. => true
  | _ => false

/-- The call `op`, made in the memory `m`, completes in `m'`. -/
inductive Completes [DecidableEq K] (cfg : Config N K) (m : Mem N K V) :
    Op K V → Mem N K V → List (Event N K V) → Prop
  | find {k : K} {fuel : ℕ} {r : Option V} {m' : Mem N K V} {trace : List (Event N K V)} :
      find cfg fuel m k = .returned r m' trace → Completes cfg m (.find k) m' trace
  | insert {k : K} {v : V} {fuel : ℕ} {m' : Mem N K V} {trace : List (Event N K V)} :
      insert cfg fuel m k v = .returned () m' trace → Completes cfg m (.insert k v) m' trace
  | consume {k : K} {x r : V} {fuel : ℕ} {m' : Mem N K V} {trace : List (Event N K V)} :
      consumeCachedOrCompute cfg fuel m k x = .returned r m' trace →
      Completes cfg m (.consumeCachedOrCompute k x) m' trace

/-- The calls `ops`, made one after the other in a fresh cache, complete in `m`. -/
inductive Run [Inhabited K] [Inhabited V] [DecidableEq K] (cfg : Config N K) :
    List (Op K V) → Mem N K V → List (Event N K V) → Prop
  | start : Run cfg [] (allocateMemory N K V) []
  | call {ops : List (Op K V)} {op : Op K V} {m m' : Mem N K V} {trace trace' : List (Event N K V)} :
      Run cfg ops m trace → Completes cfg m op m' trace' →
      Run cfg (ops ++ [op]) m' (trace ++ trace')

/-- A state reached by `find` and `insert` calls. -/
def Reachable [Inhabited K] [Inhabited V] [DecidableEq K] (cfg : Config N K) (m : Mem N K V) : Prop :=
  ∃ ops trace, Run cfg ops m trace ∧ ∀ op ∈ ops, op.isConsume = false

/-! ## What a completed call does to the lists -/

/-- What one `find` or `insert` can do to the lists `a`. -/
inductive Effect (cfg : Config N K) (a : Lists N) : List (Event N K V) → Lists N → Prop
  | miss : Effect cfg a [] a
  | hit {n : Fin N} : n ∈ a.lru → Effect cfg a [.hit n] (a.mark n)
  | pulled {n : Fin N} : n ∈ a.lru → Effect cfg a [.hit n, .pull] (a.mark n).pull
  | inserted {a₁ : Lists N} {n : Fin N} {p : List (Fin N)} {k : K} {v : V} {b : ℕ}
      {events : List (Event N K V)} : Allocated cfg a a₁ events → a₁.pool = n :: p → n ∉ a₁.lru →
      Effect cfg a (events ++ [.inserted n k v]) ({ a₁ with pool := p }.link n b)

variable {cfg : Config N K} {m m' : Mem N K V} {a : Lists N} {trace trace' : List (Event N K V)}

theorem find_effect [DecidableEq K] {fuel : ℕ} {k : K} {r : Option V} (h : Rep cfg m a)
    (hrun : find cfg fuel m k = .returned r m' trace) :
    ∃ a', Rep cfg m' a' ∧ Effect cfg a trace a' := by
  have hlarge := find_mono hrun (le_max_left fuel (N + 1))
  have hfuel : N < max fuel (N + 1) := lt_of_lt_of_le (Nat.lt_succ_self N) (le_max_right ..)
  cases hk : a.lookup cfg m k with
  | none =>
      rw [find_miss h hk hfuel] at hlarge
      cases hlarge
      exact ⟨a, h, .miss⟩
  | some n =>
      obtain ⟨m₁, a', events, hrun', hrep, -, -, hcase⟩ := find_hit h hk hfuel
      rw [hrun'] at hlarge
      cases hlarge
      have hn := (Lists.lookup_spec h.toLinks hk).1
      rcases hcase with ⟨rfl, rfl, -⟩ | ⟨rfl, rfl, -⟩
      · exact ⟨_, hrep, .hit hn⟩
      · exact ⟨_, hrep, .pulled hn⟩

/-- An `insert` cannot complete if the pool is empty and nothing is evictable. -/
theorem insert_never {fuel : ℕ} {k : K} {v : V} (h : Rep cfg m a) (hpool : a.pool = [])
    (hidle : a.evictable = []) : insert cfg fuel m k v ≠ .returned () m' trace := by
  intro hrun
  have hlinks : Links cfg { m with currentElementCount := m.currentElementCount + 1 } a :=
    h.toLinks.flags _ _ _ _
  unfold insert at hrun
  cases halloc : allocateNode cfg fuel { m with currentElementCount := m.currentElementCount + 1 } with
  | running m₁ t => simp [halloc] at hrun
  | stuck => simp [halloc] at hrun
  | returned n m₁ t => exact allocateLoop_never hlinks hpool hidle h.noPull n m₁ t halloc

theorem insert_effect {fuel : ℕ} {k : K} {v : V} (h : Rep cfg m a)
    (hrun : insert cfg fuel m k v = .returned () m' trace) :
    ∃ a', Rep cfg m' a' ∧ Effect cfg a trace a' := by
  have hlarge := insert_mono hrun (le_max_left fuel (N + 1))
  have hfuel : N < max fuel (N + 1) := lt_of_lt_of_le (Nat.lt_succ_self N) (le_max_right ..)
  have havail : a.pool ≠ [] ∨ a.evictable ≠ [] := by
    by_contra hnone
    push Not at hnone
    exact insert_never h hnone.1 hnone.2 hrun
  obtain ⟨a₁, n, p, m₁, events, hrun', hp, hn, halloc, hrep, -⟩ := insert_spec h havail hfuel k v
  rw [hrun'] at hlarge
  cases hlarge
  exact ⟨_, hrep, .inserted halloc hp hn⟩

/-- A completed `consumeCachedOrCompute` is a completed `find`, followed by a completed `insert` if
    the key was not found. -/
theorem consumeCachedOrCompute_cases [DecidableEq K] {fuel : ℕ} {k : K} {x r : V}
    (h : consumeCachedOrCompute cfg fuel m k x = .returned r m' trace) :
    find cfg fuel m k = .returned (some r) m' trace ∨
      ∃ m₁ t₁ t₂, find cfg fuel m k = .returned none m₁ t₁ ∧
        insert cfg fuel m₁ k x = .returned () m' t₂ ∧ r = x ∧ trace = t₁ ++ t₂ := by
  unfold consumeCachedOrCompute at h
  cases hfind : find cfg fuel m k with
  | stuck => simp [hfind] at h
  | running m₁ t => simp [hfind] at h
  | returned r₁ m₁ t =>
      rw [hfind] at h
      cases r₁ with
      | some v =>
          cases h
          exact Or.inl rfl
      | none =>
          cases hins : insert cfg fuel m₁ k x with
          | stuck => simp [hins] at h
          | running m₂ t₂ => simp [hins] at h
          | returned u m₂ t₂ =>
              simp only [hins] at h
              cases h
              exact Or.inr ⟨m₁, t, t₂, rfl, hins, rfl, rfl⟩

section Evolution

variable [Inhabited K] [Inhabited V]

/-- The lists of a cache as the effects so far left them, with the memory that represents them. -/
inductive Evolves (cfg : Config N K) : Mem N K V → Lists N → List (Event N K V) → Prop
  | start : Evolves cfg (allocateMemory N K V) (.initial N) []
  | step {m m' : Mem N K V} {a a' : Lists N} {trace trace' : List (Event N K V)} :
      Evolves cfg m a trace → Effect cfg a trace' a' → Rep cfg m' a' →
      Evolves cfg m' a' (trace ++ trace')

theorem Evolves.rep (h : Evolves cfg m a trace) : Rep cfg m a := by
  cases h with
  | start => exact allocateMemory_rep cfg
  | step _ _ hrep => exact hrep

variable [DecidableEq K]

/-- **Refinement.** Every run of the code is a sequence of list effects. -/
theorem Run.evolves {ops : List (Op K V)} (h : Run cfg ops m trace) :
    ∃ a, Evolves cfg m a trace := by
  induction h with
  | start => exact ⟨_, .start⟩
  | call _ hcall ih =>
      obtain ⟨a, ih⟩ := ih
      cases hcall with
      | find hfind =>
          obtain ⟨a', hrep, heff⟩ := find_effect ih.rep hfind
          exact ⟨a', ih.step heff hrep⟩
      | insert hins =>
          obtain ⟨a', hrep, heff⟩ := insert_effect ih.rep hins
          exact ⟨a', ih.step heff hrep⟩
      | consume hcons =>
          rcases consumeCachedOrCompute_cases hcons with hfind | ⟨m₁, t₁, t₂, hfind, hins, -, rfl⟩
          · obtain ⟨a', hrep, heff⟩ := find_effect ih.rep hfind
            exact ⟨a', ih.step heff hrep⟩
          · obtain ⟨a₁, hrep₁, heff₁⟩ := find_effect ih.rep hfind
            obtain ⟨a₂, hrep₂, heff₂⟩ := insert_effect hrep₁ hins
            rw [← List.append_assoc]
            exact ⟨a₂, (ih.step heff₁ hrep₁).step heff₂ hrep₂⟩

theorem Reachable.rep (h : Reachable cfg m) : ∃ a, Rep cfg m a := by
  obtain ⟨ops, trace, hrun, -⟩ := h
  obtain ⟨a, ha⟩ := hrun.evolves
  exact ⟨a, ha.rep⟩

end Evolution

/-! ## The representation invariant -/

/-- The four intrusive lists of a quiescent cache, with its counters and flags. -/
structure Consistent (cfg : Config N K) (m : Mem N K V) (lru pool recent : List (Fin N))
    (bucket : ℕ → List (Fin N)) : Prop where
  poolChain : Chain (fun n => m.lruNext (.node n)) .node m.emptyHead pool .null
  lruChain : Linked m.lruNext .node .lruHead lru .lruTail
  /-- Every node is in the pool or in the LRU list, once. -/
  partition : ∀ n, (pool ++ lru).count n = 1
  prev_next : ∀ c, IsCell .node .lruHead lru c → m.lruPrev (m.lruNext c) = c
  next_prev : ∀ c, c = .lruTail ∨ (∃ n ∈ lru, c = .node n) → m.lruNext (m.lruPrev c) = c
  bucketChain : ∀ b, Chain m.bucketNext some (m.buckets b) (bucket b) none
  /-- Every LRU node is in the chain of the bucket of its own key, once, and in no other. -/
  bucketed : ∀ b n, (bucket b).count n = if n ∈ lru ∧ cfg.keyToBucketNr (m.key n) = b then 1 else 0
  recentChain : Chain m.recentNext .node m.recentHead recent .dummy
  recent_nodup : recent.Nodup
  recent_sub : ∀ n ∈ recent, n ∈ lru
  marked : ∀ n, m.recentNext n ≠ .null ↔ n ∈ recent
  count : m.currentElementCount = lru.length
  recentCount : m.recentCount = recent.length
  belowThreshold : recent.length < cfg.pullThreshold
  noPull : m.pullRequest = false
  noPurge : m.purgeRequest = false

theorem Rep.consistent (h : Rep cfg m a) : Consistent cfg m a.lru a.pool a.recent a.bucket where
  poolChain := h.pool
  lruChain := h.lru.linked
  partition n := by
    refine List.count_eq_one_of_mem ?_ (by simpa using h.total n)
    refine List.nodup_append.2 ⟨h.pool_nodup, h.lru_nodup, ?_⟩
    intro x hx y hy hxy
    exact h.pool_disjoint x hx (hxy ▸ hy)
  prev_next := h.lru.back
  next_prev := by
    rintro c (rfl | ⟨n, hn, rfl⟩)
    · obtain ⟨c, hc, hnext⟩ := h.lru.linked.last
      rw [← hnext, h.lru.back c hc]
    · exact (h.lru.prev_spec hn).2
  bucketChain := h.buckets
  bucketed b n := by
    by_cases hn : n ∈ a.bucket b
    · rw [List.count_eq_one_of_mem (h.bucket_nodup b) hn, if_pos ((h.mem_bucket b n).1 hn)]
    · rw [List.count_eq_zero_of_not_mem hn, if_neg (fun hh => hn ((h.mem_bucket b n).2 hh))]
  recentChain := h.recent
  recent_nodup := h.recent_nodup
  recent_sub := h.recent_sub
  marked := h.marked
  count := h.count
  recentCount := h.recentCount
  belowThreshold := h.belowThreshold
  noPull := h.noPull
  noPurge := h.noPurge

/-- **Representation invariant.** After any completed single-threaded calls the four lists are
    intact, the counters count and no request is pending. -/
theorem Run.representation [Inhabited K] [Inhabited V] [DecidableEq K] {ops : List (Op K V)}
    (h : Run cfg ops m trace) :
    ∃ lru pool recent bucket, Consistent cfg m lru pool recent bucket := by
  obtain ⟨a, ha⟩ := h.evolves
  exact ⟨_, _, _, _, ha.rep.consistent⟩

/-- Two nodes, one bucket, both thresholds one. -/
def twoNodes : Config 2 ℕ where
  pullThreshold := 1
  purgeThreshold := 1
  hasher := id
  bucketCount := 1
  capacity_pos := Nat.two_pos
  pullThreshold_pos := Nat.one_pos
  purgeThreshold_pos := Nat.one_pos
  bucketCount_pos := Nat.one_pos

theorem Run.representation_twoNodes : ∃ (m : Mem 2 ℕ ℕ) (trace : List (Event 2 ℕ ℕ)),
    Run twoNodes [.insert 7 70, .find 7] m trace ∧
      ∃ lru pool recent bucket, Consistent twoNodes m lru pool recent bucket := by
  have h : Run twoNodes [.insert 7 70, .find 7] _ _ :=
    (Run.start.call (.insert (show insert twoNodes 3 _ 7 70 = _ from rfl))).call
      (.find (show find twoNodes 3 _ 7 = _ from rfl))
  exact ⟨_, _, h, h.representation⟩

end DeferredLru
