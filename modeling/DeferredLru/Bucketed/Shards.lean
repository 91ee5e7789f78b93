import DeferredLru.Bucketed.Adapter
import DeferredLru.Deferred.History
import DeferredLru.Deferred.Termination

set_option autoImplicit false

/-! # `DeferredLRU` behind the adapter

With the default factors a cache of two or more elements has thresholds below its capacity, so it can
always evict. A cache with one element cannot: `purgeOld` never takes the first node of the LRU list.
It serves one key, and a call for a second one never returns. -/

namespace DeferredLru

open Intrusive Rounding

variable {N : ℕ} {K V : Type} {cfg : Config N K} {m m' : Mem N K V} {a : Lists N} {k : K} {x : V}
  {trace : List (Event N K V)}

/-- The only node never leaves the front. -/
theorem Rep.evictable_one {cfg : Config 1 K} {m : Mem 1 K V} {a : Lists 1} (h : Rep cfg m a) :
    a.evictable = [] := by
  refine Lists.evictable_eq_nil.2 fun n hn => ?_
  exfalso
  have hlen := h.lru_nodup.length_le_card
  rw [Fintype.card_fin] at hlen
  have htail := List.length_pos_of_mem hn
  rw [List.length_tail] at htail
  omega

/-! ## One call -/

variable [DecidableEq K]

/-- A call completes if the key is resident or a node can be had. -/
theorem Rep.consume_completes (h : Rep cfg m a)
    (havail : a.lookup cfg m k = none → a.pool ≠ [] ∨ a.evictable ≠ []) (x : V) :
    ∃ m' trace, Completes cfg m (.consumeCachedOrCompute k x) m' trace := by
  have hfuel : N < N + 1 := Nat.lt_succ_self N
  cases hk : a.lookup cfg m k with
  | some n =>
      obtain ⟨m', a', events, hfind, -⟩ := find_hit h hk hfuel
      have hrun : consumeCachedOrCompute cfg (N + 1) m k x =
          .returned (m.value n) m' (.hit n :: events) := by
        rw [consumeCachedOrCompute, hfind]
      exact ⟨m', _, .consume hrun⟩
  | none =>
      obtain ⟨a₁, n, p, m', events, hinsert, -⟩ := insert_spec h (havail hk) hfuel k x
      have hrun : consumeCachedOrCompute cfg (N + 1) m k x =
          .returned x m' ([] ++ (events ++ [.inserted n k x])) := by
        rw [consumeCachedOrCompute, find_miss h hk hfuel]
        simp only [hinsert]
      exact ⟨m', _, .consume hrun⟩

/-- A call does not complete if the key is not resident and no node can be had. -/
theorem Rep.consume_never (h : Rep cfg m a) (hk : a.lookup cfg m k = none) (hpool : a.pool = [])
    (hidle : a.evictable = []) : ¬ Completes cfg m (.consumeCachedOrCompute k x) m' trace := by
  intro hcall
  cases hcall with
  | consume hrun =>
      rcases consumeCachedOrCompute_cases hrun with hfind | ⟨m₁, t₁, t₂, hfind, hinsert, -, -⟩
      · rcases find_cases h hfind with ⟨-, hnone, -, -⟩ | ⟨n, a', hn, -⟩
        · cases hnone
        · rw [hk] at hn
          cases hn
      · rcases find_cases h hfind with ⟨-, -, rfl, -⟩ | ⟨n, a', hn, -⟩
        · exact insert_never h hpool hidle hinsert
        · rw [hk] at hn
          cases hn

/-! ## One element -/

section OneElement

variable [Inhabited K] [Inhabited V] {cfg : Config 1 K} {m : Mem 1 K V}

/-- After calls for one key alone, the node is in the pool, or it is resident with this key. -/
theorem Run.one_key {ops : List (Op K V)} {trace : List (Event 1 K V)} (h : Run cfg ops m trace)
    (hops : ∀ op ∈ ops, ∃ x, op = .consumeCachedOrCompute k x) :
    ∃ a, Rep cfg m a ∧ (ops = [] ∧ a.pool ≠ [] ∨ a.pool = [] ∧ ∀ n, m.key n = k) := by
  induction h with
  | start =>
      exact ⟨.initial 1, allocateMemory_rep cfg, Or.inl ⟨rfl, by simp [Lists.initial, List.finRange]⟩⟩
  | @call ops op m m' _ _ _ hcall ih =>
      obtain ⟨a, hrep, hstate⟩ := ih fun op hop => hops op (List.mem_append_left _ hop)
      obtain ⟨x, rfl⟩ := hops op (by simp)
      -- an inserted node is the only one, so the pool is empty then
      have hinserted : ∀ {fuel : ℕ} {t : List (Event 1 K V)},
          insert cfg fuel m k x = .returned () m' t →
          ∃ a', Rep cfg m' a' ∧ a'.pool = [] ∧ ∀ n, m'.key n = k := by
        intro fuel t hinsert
        obtain ⟨a₁, n, p, events, -, -, -, -, -, hrep', hkey, -⟩ := insert_cases hrep hinsert
        refine ⟨_, hrep', ?_, fun y => ?_⟩
        · refine List.eq_nil_iff_forall_not_mem.2 fun y hy => hrep'.pool_disjoint y hy ?_
          rw [Subsingleton.elim y n]
          exact List.mem_cons_self
        · rw [hkey, Subsingleton.elim y n, Function.update_self]
      cases hcall with
      | consume hrun =>
          rcases consumeCachedOrCompute_cases hrun with hfind | ⟨m₁, t₁, t₂, hfind, hinsert, -, -⟩
          · rcases find_cases hrep hfind with ⟨-, hnone, -, -⟩ | ⟨n, a', hn, -, hrep', hkey, -, hcase⟩
            · cases hnone
            · obtain ⟨hmem, hkeyn⟩ := Lists.lookup_spec hrep.toLinks hn
              have hpool : a.pool = [] := List.eq_nil_iff_forall_not_mem.2 fun y hy =>
                hrep.pool_disjoint y hy (Subsingleton.elim n y ▸ hmem)
              have hpool' : a'.pool = a.pool := by
                rcases hcase with ⟨rfl, -⟩ | ⟨rfl, -⟩
                · exact a.mark_pool n
                · exact a.mark_pool n
              refine ⟨a', hrep', Or.inr ⟨hpool'.trans hpool, fun y => ?_⟩⟩
              rw [hkey, Subsingleton.elim y n, hkeyn]
          · rcases find_cases hrep hfind with ⟨-, -, rfl, -⟩ | ⟨n, a', -, hnone, -⟩
            · obtain ⟨a', hrep', hpool, hkeys⟩ := hinserted hinsert
              exact ⟨a', hrep', Or.inr ⟨hpool, hkeys⟩⟩
            · cases hnone

/-- With calls for one key alone, every one completes. -/
theorem Run.one_key_completes {ops : List (Op K V)} {trace : List (Event 1 K V)}
    (h : Run cfg ops m trace) (hops : ∀ op ∈ ops, ∃ x, op = .consumeCachedOrCompute k x) (x : V) :
    ∃ m' trace', Completes cfg m (.consumeCachedOrCompute k x) m' trace' := by
  obtain ⟨a, hrep, hstate⟩ := h.one_key hops
  refine hrep.consume_completes (fun hk => Or.inl ?_) x
  rcases hstate with ⟨-, hpool⟩ | ⟨hpool, hkeys⟩
  · exact hpool
  · -- the resident node would have been found
    have hmem : (0 : Fin 1) ∈ a.lru := (hrep.total 0).resolve_left (by simp [hpool])
    have hbucket : (0 : Fin 1) ∈ a.bucket (cfg.keyToBucketNr k) :=
      (hrep.mem_bucket _ 0).2 ⟨hmem, by rw [hkeys 0]⟩
    have := List.find?_eq_none.1 hk 0 hbucket
    simp [hkeys 0] at this

/-- A call for a second key never completes. -/
theorem exists_unserved (cfg : Config 1 K) {k k' : K} (hne : k ≠ k') (x x' : V) :
    ∃ (m : Mem 1 K V) (trace : List (Event 1 K V)), Run cfg [.consumeCachedOrCompute k x] m trace ∧
      ∀ m' trace', ¬ Completes cfg m (.consumeCachedOrCompute k' x') m' trace' := by
  have hnone : ∀ op ∈ ([] : List (Op K V)), ∃ x, op = .consumeCachedOrCompute k x := by simp
  have hstart : Run cfg [] (allocateMemory 1 K V) [] := .start
  obtain ⟨m, trace, hcall⟩ := hstart.one_key_completes hnone x
  have hrun : Run cfg [.consumeCachedOrCompute k x] m ([] ++ trace) := hstart.call hcall
  obtain ⟨a, hrep, hstate⟩ := hrun.one_key fun op hop => ⟨x, List.mem_singleton.1 hop⟩
  rcases hstate with ⟨hnil, -⟩ | ⟨hpool, hkeys⟩
  · cases hnil
  · refine ⟨m, _, hrun, fun m' trace' => hrep.consume_never ?_ hpool hrep.evictable_one⟩
    cases hk : a.lookup cfg m k' with
    | none => rfl
    | some n => exact absurd ((hkeys n).symm.trans (Lists.lookup_spec hrep.toLinks hk).2) hne

end OneElement

namespace BucketedAdapter

variable [Inhabited K] [Inhabited V] (a : BucketedAdapter K)

/-! ## All calls -/

/-- Cache `i`, as `allocateMemory` left it, serves every sequence of calls that the adapter passes on
    to it: each of their keys has a bucket, and whichever calls have completed, the next one
    completes. A cache whose allocation threw is not called. -/
def Serves (i : ℕ) : Initialised N K V → Prop
  | .late => False
  | .thrown => True
  | .outOfRange => False
  | .cache m bucketCount _ pullThreshold purgeThreshold =>
      (∀ k, a.route k = i → ∃ b, keyToBucketNr bucketCount (a.hasher k) = some b) ∧
      m = allocateMemory N K V ∧
      ∃ cfg : Config N K, cfg.hasher = a.hasher ∧ cfg.bucketCount = bucketCount ∧
        cfg.pullThreshold = pullThreshold ∧ cfg.purgeThreshold = purgeThreshold ∧
        ∀ (ops : List (Op K V)) m trace, Run cfg ops m trace → (∀ op ∈ ops, a.RoutedTo i op) →
          ∀ op, a.RoutedTo i op → ∃ m' trace', Completes cfg m op m' trace'

variable {a}

/-- If the cache with one element serves its calls, they are for one key. -/
theorem Serves.subsingleton {i : ℕ} (h : a.Serves i (a.allocateShard 1 : Initialised 1 K V))
    {k k' : K} (hk : a.route k = i) (hk' : a.route k' = i) : k = k' := by
  by_contra hne
  have hbuckets : a.getBucketCountForCapacity 1 = 1 := by
    have := a.loadFactor_lt
    rw [a.getBucketCountForCapacity_eq (by omega), Nat.add_sub_cancel_left]
    exact Nat.div_self a.loadFactor_pos
  have hfits : ¬ (2 ^ 64 ≤ a.getBucketCountForCapacity 1 * sizeofBucketHead ∨
      2 ^ 64 ≤ 1 * a.sizeofNode) := by
    have := a.sizeofNode_lt
    rw [hbuckets, sizeofBucketHead]
    omega
  rw [allocateShard, if_neg Nat.one_ne_zero, initialise_of_fits le_rfl a.sizeofNode_ge hfits] at h
  obtain ⟨-, -, cfg, -, -, -, -, hserved⟩ := h
  -- the only node goes to `k`, and a call for `k'` then waits for it without end
  obtain ⟨m, trace, hrun, hnever⟩ := exists_unserved cfg hne (default : V) default
  obtain ⟨m', trace', hcall⟩ := hserved _ m trace hrun
    (fun op hop => by rw [List.mem_singleton.1 hop]; exact hk) (.consumeCachedOrCompute k' default) hk'
  exact hnever m' trace' hcall

variable (a)

/-- **When a `DeferredLRU` behind the adapter serves its calls**: when it has two elements, or one and
    is only asked for one key. -/
theorem serves_allocateShard {capacity : ℕ} (i : ℕ) :
    a.Serves i (a.allocateShard capacity : Initialised capacity K V) ↔
      2 ≤ capacity ∨ capacity = 1 ∧ ∀ k k', a.route k = i → a.route k' = i → k = k' := by
  rcases Nat.eq_zero_or_pos capacity with rfl | hpos
  · exact ⟨False.elim, fun h => by omega⟩
  constructor
  · intro h
    rcases Nat.lt_or_ge 1 capacity with hmany | hone
    · exact Or.inl hmany
    · obtain rfl : capacity = 1 := le_antisymm hone hpos
      exact Or.inr ⟨rfl, fun k k' hk hk' => h.subsingleton hk hk'⟩
  · intro hcapacity
    rw [allocateShard, if_neg hpos.ne']
    rcases initialise_cases (K := K) (V := V) hpos a.sizeofNode_ge with hrun | ⟨-, hrun⟩
    · rw [hrun]
      trivial
    · rw [hrun]
      have hbuckets := a.getBucketCountForCapacity_pos hpos
      let cfg : Config capacity K :=
        { pullThreshold := threshold thresholdFactor capacity
          purgeThreshold := threshold thresholdFactor capacity
          hasher := a.hasher
          bucketCount := a.getBucketCountForCapacity capacity
          capacity_pos := hpos
          pullThreshold_pos := Nat.le_max_right _ _
          purgeThreshold_pos := Nat.le_max_right _ _
          bucketCount_pos := hbuckets }
      refine ⟨fun k _ => ⟨_, if_neg (by omega)⟩, rfl, cfg, rfl, rfl, rfl, rfl, ?_⟩
      intro ops m trace hops hrouted op hop
      -- two elements leave the purge threshold below the capacity; with one, no call ever evicts
      rcases hcapacity with htwo | ⟨rfl, hone⟩
      · obtain ⟨lists, hevolves⟩ := hops.evolves
        have hrep := hevolves.rep
        cases op with
        | find => exact hop.elim
        | insert => exact hop.elim
        | consumeCachedOrCompute k x =>
            exact hrep.consume_completes (fun _ => hrep.available_of_threshold_lt (threshold_lt htwo)) x
      · cases op with
        | find => exact hop.elim
        | insert => exact hop.elim
        | consumeCachedOrCompute k x =>
            exact hops.one_key_completes
              (fun op' hop' => (hrouted op' hop').key_eq fun k' hk' => hone k' k hk' hop) x

/-- **The adapter, key by key.** The caches get the whole capacity, every key has a cache, an
    `LRUCache` there finds the buckets of its keys if it has as many elements as the load factor, and a
    `DeferredLRU` there serves its calls if it has two elements, or one and is only asked for one key;
    and not otherwise. -/
theorem served_iff (capacity : ℕ) (k : K) :
    ∑ i ∈ Finset.range a.bucketCount, a.shardCapacity capacity i = capacity ∧
    a.route k < a.bucketCount ∧
    (a.LruServes (a.shardCapacity capacity (a.route k)) (a.route k) ↔
      a.hashTableLoadFactor ≤ a.shardCapacity capacity (a.route k)) ∧
    (a.Serves (a.route k) (a.allocateShard (a.shardCapacity capacity (a.route k)) :
        Initialised _ K V) ↔
      2 ≤ a.shardCapacity capacity (a.route k) ∨
      a.shardCapacity capacity (a.route k) = 1 ∧ ∀ k', a.route k' = a.route k → k' = k) := by
  refine ⟨a.sum_shardCapacity capacity, a.route_lt k, a.lruServes_iff k, ?_⟩
  rw [a.serves_allocateShard]
  refine or_congr_right (and_congr_right fun _ => ⟨fun h k' hk' => h k' k hk' rfl, ?_⟩)
  exact fun h k₁ k₂ h₁ h₂ => (h k₁ h₁).trans (h k₂ h₂).symm

/-- Sixty-four caches with the default load factor. -/
def sixtyFour : BucketedAdapter ℕ where
  logBucketCount := 6
  hasher := id
  hashTableLoadFactor := defaultLoadFactor
  sizeofNode := oneByte.sizeofNode
  logBucketCount_le := by decide
  loadFactor_pos := defaultLoadFactor_pos
  loadFactor_lt := oneByte.loadFactor_lt
  sizeofNode_ge := oneByte.sizeofNode_ge
  sizeofNode_lt := oneByte.sizeofNode_lt

/-- Of a capacity of 100, the cache of the keys 1 and 65 gets one element. -/
theorem not_served : ¬ sixtyFour.LruServes (sixtyFour.shardCapacity 100 (sixtyFour.route 1))
      (sixtyFour.route 1) ∧
    ¬ sixtyFour.Serves (V := ℕ) (sixtyFour.route 1)
      (sixtyFour.allocateShard (sixtyFour.shardCapacity 100 (sixtyFour.route 1))) := by
  constructor
  · rw [lruServes_iff]
    decide
  · rw [serves_allocateShard]
    rintro (htwo | ⟨-, hone⟩)
    · exact absurd htwo (by decide)
    · exact absurd (hone 1 65 rfl rfl) (by decide)

/-! ## All hash functions -/

/-- **The capacities with which a `DeferredLRU` behind the adapter always serves its calls.** -/
theorem serves_all_iff [Nontrivial K] {capacity : ℕ} :
    (∀ hasher k, (a.withHasher hasher).Serves ((a.withHasher hasher).route k)
      ((a.withHasher hasher).allocateShard
        (a.shardCapacity capacity ((a.withHasher hasher).route k)) : Initialised _ K V)) ↔
      2 * a.bucketCount ≤ capacity := by
  rw [← a.forall_le_shardCapacity]
  constructor
  · intro h i hi
    obtain ⟨hasher, hroute⟩ := a.exists_route_eq hi
    have hserves := ((a.withHasher hasher).serves_allocateShard _).1 (h hasher default)
    rw [hroute] at hserves
    refine hserves.resolve_right fun hone => ?_
    obtain ⟨k, k', hne⟩ := exists_pair_ne K
    exact hne (hone.2 k k' (hroute k) (hroute k'))
  · exact fun h hasher k => ((a.withHasher hasher).serves_allocateShard _).2
      (Or.inl (h _ ((a.withHasher hasher).route_lt k)))

end BucketedAdapter

end DeferredLru
