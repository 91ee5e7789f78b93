import DeferredLru.Deferred.Runs

set_option autoImplicit false

/-! # The configurations in which `insert` terminates

`allocateNode` loops until a purge frees a node, and a purge takes neither the front node nor a marked
one. Between two operations fewer than `pull_threshold_` nodes are marked, so if the threshold is
below the capacity a full cache always has an evictable node. If it is not, a run can fill the cache
and mark everything behind the front without ever triggering a pull. -/

namespace DeferredLru

open Intrusive

variable {N : ℕ} {K V : Type} {cfg : Config N K} {m m' : Mem N K V} {a : Lists N}

/-- An execution of `purgeOld`. -/
def Event.isPurge : Event N K V → Bool
  | .purge .. => true
  | _ => false

/-- The call of `insert` returns. -/
def Terminates (cfg : Config N K) (m : Mem N K V) (k : K) (v : V) : Prop :=
  ∃ fuel m' trace, insert cfg fuel m k v = .returned () m' trace

/-- However many rounds `allocateNode` gets, it is still looping, and each round was a purge that
    freed nothing. -/
def LoopsForever (cfg : Config N K) (m : Mem N K V) (k : K) (v : V) : Prop :=
  ∀ fuel, N < fuel → ∃ m' trace, insert cfg fuel m k v = .running m' trace ∧
    trace.length = fuel ∧ ∀ e ∈ trace, ∃ before after, e = .purge before after []

/-! ## Below the threshold something is evictable -/

theorem Rep.length_of_pool_nil (h : Rep cfg m a) (hpool : a.pool = []) : a.lru.length = N := by
  have hall : ∀ n, n ∈ a.lru := fun n => (h.total n).resolve_left (by simp [hpool])
  have huniv : a.lru.toFinset = Finset.univ := by
    ext n
    simp [hall n]
  have hcard := congrArg Finset.card huniv
  rwa [List.toFinset_card_of_nodup h.lru_nodup, Finset.card_univ, Fintype.card_fin] at hcard

theorem Rep.evictable_of_threshold_lt (h : Rep cfg m a) (hlt : cfg.pullThreshold < N)
    (hpool : a.pool = []) : a.evictable ≠ [] := by
  intro hidle
  have hmarked := Lists.evictable_eq_nil.1 hidle
  have hlen := h.length_of_pool_nil hpool
  have hsub : a.lru.tail.length ≤ a.recent.length :=
    (List.subperm_of_subset (h.lru_nodup.sublist (List.tail_sublist _)) hmarked).length_le
  have hbelow := h.belowThreshold
  rw [List.length_tail] at hsub
  omega

theorem Rep.available_of_threshold_lt (h : Rep cfg m a) (hlt : cfg.pullThreshold < N) :
    a.pool ≠ [] ∨ a.evictable ≠ [] := by
  by_cases hpool : a.pool = []
  · exact Or.inr (h.evictable_of_threshold_lt hlt hpool)
  · exact Or.inl hpool

theorem Rep.terminates (h : Rep cfg m a) (hlt : cfg.pullThreshold < N) (k : K) (v : V) :
    Terminates cfg m k v := by
  obtain ⟨_, _, _, m', events, hrun, -⟩ :=
    insert_spec h (h.available_of_threshold_lt hlt) (Nat.lt_succ_self N) k v
  exact ⟨N + 1, m', _, hrun⟩

theorem Allocated.purges_le {a₁ : Lists N} {events : List (Event N K V)}
    (h : Allocated cfg a a₁ events) : events.countP Event.isPurge ≤ 1 := by
  cases h <;> simp [Event.isPurge]

theorem Rep.purges_le {fuel : ℕ} {k : K} {v : V} {trace : List (Event N K V)} (h : Rep cfg m a)
    (hrun : insert cfg fuel m k v = .returned () m' trace) : trace.countP Event.isPurge ≤ 1 := by
  obtain ⟨a', -, heff⟩ := insert_effect h hrun
  cases heff with
  | inserted halloc _ _ =>
      rw [List.countP_append]
      have := halloc.purges_le
      simpa [Event.isPurge] using this
  | _ => simp [Event.isPurge]

theorem Rep.loopsForever (h : Rep cfg m a) (hpool : a.pool = []) (hidle : a.evictable = [])
    (k : K) (v : V) : LoopsForever cfg m k v := by
  intro fuel hfuel
  have hlinks : Links cfg { m with currentElementCount := m.currentElementCount + 1 } a :=
    h.toLinks.flags _ _ _ _
  obtain ⟨m', events, hrun, hlen, hev⟩ :=
    @allocateLoop_idle _ _ _ _ _ _ fuel fuel [] hlinks hpool hidle h.noPull hfuel
  refine ⟨m', events, ?_, hlen, ?_⟩
  · rw [insert, show allocateNode cfg fuel _ = _ from hrun]
    rfl
  · intro e he
    obtain ⟨before, after, heq, -, -⟩ := hev e he
    exact ⟨before, after, heq⟩

/-! ## At or above the capacity a run can mark everything -/

/-- The keys of the LRU nodes are distinct. -/
def DistinctKeys (m : Mem N K V) (l : List (Fin N)) : Prop :=
  ∀ x ∈ l, ∀ y ∈ l, m.key x = m.key y → x = y

/-- With distinct keys, looking up the key of a resident node finds that node. -/
theorem Rep.lookup_key [DecidableEq K] (h : Rep cfg m a) (hdist : DistinctKeys m a.lru) {n : Fin N}
    (hn : n ∈ a.lru) : a.lookup cfg m (m.key n) = some n := by
  cases hk : a.lookup cfg m (m.key n) with
  | none =>
      have hmem : n ∈ a.bucket (cfg.keyToBucketNr (m.key n)) := (h.mem_bucket _ n).2 ⟨hn, rfl⟩
      have := List.find?_eq_none.1 hk n hmem
      simp at this
  | some x =>
      obtain ⟨hx, hkey⟩ := Lists.lookup_spec h.toLinks hk
      rw [hdist x hx n hn hkey]

section Stuck

variable [Inhabited K] [Inhabited V] [DecidableEq K]

theorem Reachable.find {fuel : ℕ} {k : K} {r : Option V} {trace : List (Event N K V)}
    (h : Reachable cfg m) (hrun : find cfg fuel m k = .returned r m' trace) : Reachable cfg m' := by
  obtain ⟨ops, tr, hops, hplain⟩ := h
  refine ⟨_, _, hops.call (.find hrun), ?_⟩
  intro op hop
  rcases List.mem_append.1 hop with hop | hop
  · exact hplain op hop
  · rw [List.mem_singleton.1 hop]
    rfl

theorem Reachable.insert {fuel : ℕ} {k : K} {v : V} {trace : List (Event N K V)}
    (h : Reachable cfg m) (hrun : insert cfg fuel m k v = .returned () m' trace) :
    Reachable cfg m' := by
  obtain ⟨ops, tr, hops, hplain⟩ := h
  refine ⟨_, _, hops.call (.insert hrun), ?_⟩
  intro op hop
  rcases List.mem_append.1 hop with hop | hop
  · exact hplain op hop
  · rw [List.mem_singleton.1 hop]
    rfl

/-- Inserting fresh keys fills the cache without marking a node. -/
theorem exists_filled [Infinite K] (cfg : Config N K) (i : ℕ) (hi : i ≤ N) :
    ∃ (m : Mem N K V) (a : Lists N), Reachable cfg m ∧ Rep cfg m a ∧ a.lru.length = i ∧
      a.recent = [] ∧ DistinctKeys m a.lru := by
  induction i with
  | zero =>
      exact ⟨allocateMemory N K V, .initial N, ⟨[], [], .start, by simp⟩, allocateMemory_rep cfg, rfl,
        rfl, fun x hx => absurd hx (by simp [Lists.initial])⟩
  | succ i ih =>
      obtain ⟨m, a, hreach, hrep, hlen, hrecent, hdist⟩ := ih (by omega)
      have hpool : a.pool ≠ [] := by
        intro hnil
        have := hrep.length_of_pool_nil hnil
        omega
      obtain ⟨k, hk⟩ := Infinite.exists_notMem_finset (a.lru.map m.key).toFinset
      have hfresh : ∀ x ∈ a.lru, m.key x ≠ k := by
        intro x hx hxk
        refine hk ?_
        simp only [List.mem_toFinset, List.mem_map]
        exact ⟨x, hx, hxk⟩
      obtain ⟨a₁, n, p, m', events, hrun, -, hn, halloc, hrep', hkey, -⟩ :=
        insert_spec hrep (Or.inl hpool) (Nat.lt_succ_self N) k default
      cases halloc with
      | purged hnil _ _ => exact absurd hnil hpool
      | direct =>
          refine ⟨m', _, hreach.insert hrun, hrep', ?_, hrecent, ?_⟩
          · show (n :: a.lru).length = i + 1
            rw [List.length_cons, hlen]
          · -- the new node alone carries the fresh key
            have hold : ∀ x ∈ a.lru, m'.key x = m.key x := fun x hx => by
              have hxn : x ≠ n := fun heq => hn (heq ▸ hx)
              rw [hkey, Function.update_of_ne hxn]
            have hnew : m'.key n = k := by rw [hkey, Function.update_self]
            intro x hx y hy hxy
            rcases List.mem_cons.1 hx with hx | hx <;> rcases List.mem_cons.1 hy with hy | hy
            · rw [hx, hy]
            · rw [hx, hnew, hold y hy] at hxy
              exact absurd hxy.symm (hfresh y hy)
            · rw [hy, hnew, hold x hx] at hxy
              exact absurd hxy (hfresh x hx)
            · rw [hold x hx, hold y hy] at hxy
              exact hdist x hx y hy hxy

/-- Hits on unmarked nodes behind the front one mark them all if the threshold is out of reach. -/
theorem exists_all_marked (hle : N ≤ cfg.pullThreshold) (d : ℕ) (hreach : Reachable cfg m)
    (hrep : Rep cfg m a) (hpool : a.pool = []) (hdist : DistinctKeys m a.lru)
    (hbehind : ∀ n ∈ a.recent, n ∈ a.lru.tail) (hd : a.lru.length ≤ a.recent.length + d) :
    ∃ (m' : Mem N K V) (a' : Lists N), Reachable cfg m' ∧ Rep cfg m' a' ∧ a'.pool = [] ∧
      a'.evictable = [] := by
  have htail : a.lru.tail.Nodup := hrep.lru_nodup.sublist (List.tail_sublist _)
  have hN := cfg.capacity_pos
  have hlen := hrep.length_of_pool_nil hpool
  induction d generalizing m a with
  | zero =>
      have := (List.subperm_of_subset hrep.recent_nodup hbehind).length_le
      rw [List.length_tail] at this
      omega
  | succ d ih =>
      by_cases hidle : a.evictable = []
      · exact ⟨m, a, hreach, hrep, hpool, hidle⟩
      obtain ⟨n, rest, hn⟩ := List.exists_cons_of_ne_nil hidle
      have hev : n ∈ a.evictable := by simp [hn]
      have hnt : n ∈ a.lru.tail := by
        have := List.mem_of_mem_filter hev
        simpa using this
      have hnl : n ∈ a.lru := List.mem_of_mem_tail hnt
      have hnr : n ∉ a.recent := by simpa using List.of_mem_filter hev
      have hmark : a.mark n = { a with recent := n :: a.recent } := if_neg hnr
      have hbehind' : ∀ x ∈ (a.mark n).recent, x ∈ a.lru.tail := by
        intro x hx
        rw [hmark] at hx
        rcases List.mem_cons.1 hx with rfl | hx
        · exact hnt
        · exact hbehind x hx
      have hnodup : (a.mark n).recent.Nodup := by
        rw [hmark]
        exact List.nodup_cons.2 ⟨hnr, hrep.recent_nodup⟩
      -- the marked nodes fit behind the front one, so there are fewer than the threshold
      have hfew : (a.mark n).recent.length < cfg.pullThreshold := by
        have := (List.subperm_of_subset hnodup hbehind').length_le
        rw [List.length_tail] at this
        omega
      obtain ⟨m', a', events, hrun, hrep', hkey, -, hcase⟩ :=
        find_hit hrep (hrep.lookup_key hdist hnl) (Nat.lt_succ_self N)
      rcases hcase with ⟨rfl, -, -⟩ | ⟨-, -, hthr⟩
      · refine ih (hreach.find hrun) hrep' (by simpa using hpool) ?_ ?_ ?_ ?_ ?_
        · rw [Lists.mark_lru]
          unfold DistinctKeys
          rw [hkey]
          exact hdist
        · rw [Lists.mark_lru]
          exact hbehind'
        · rw [Lists.mark_lru, hmark, List.length_cons]
          omega
        · rw [Lists.mark_lru]
          exact htail
        · rw [Lists.mark_lru]
          exact hlen
      · omega

theorem exists_stuck [Infinite K] (cfg : Config N K) (hle : N ≤ cfg.pullThreshold) :
    ∃ (m : Mem N K V) (a : Lists N), Reachable cfg m ∧ Rep cfg m a ∧ a.pool = [] ∧
      a.evictable = [] := by
  obtain ⟨m, a, hreach, hrep, hlen, hrecent, hdist⟩ := exists_filled (V := V) cfg N le_rfl
  have hpool : a.pool = [] := by
    refine List.eq_nil_iff_forall_not_mem.2 (fun n hn => hrep.pool_disjoint n hn ?_)
    have huniv : a.lru.toFinset = Finset.univ := by
      refine Finset.eq_univ_of_card _ ?_
      rw [List.toFinset_card_of_nodup hrep.lru_nodup, hlen, Fintype.card_fin]
    rw [← List.mem_toFinset, huniv]
    exact Finset.mem_univ n
  exact exists_all_marked hle N hreach hrep hpool hdist (by simp [hrecent]) (by omega)

/-- **Exactly which configurations let `insert` terminate**: those whose pull threshold is below the
    capacity. There an `insert` purges at most once; in the others some reachable state makes it
    request purges that free nothing, forever. -/
theorem insert_terminates_iff [Infinite K] (cfg : Config N K) :
    ((∀ m : Mem N K V, Reachable cfg m → ∀ k v, Terminates cfg m k v) ↔ cfg.pullThreshold < N) ∧
    (cfg.pullThreshold < N → ∀ m : Mem N K V, Reachable cfg m → ∀ fuel k v m' trace,
      insert cfg fuel m k v = .returned () m' trace → trace.countP Event.isPurge ≤ 1) ∧
    (¬ cfg.pullThreshold < N → ∃ m : Mem N K V, Reachable cfg m ∧ ∀ k v, LoopsForever cfg m k v) := by
  refine ⟨⟨fun hall => ?_, fun hlt m hreach k v => ?_⟩, ?_, ?_⟩
  · by_contra hge
    obtain ⟨m, a, hreach, hrep, hpool, hidle⟩ := exists_stuck (V := V) cfg (not_lt.1 hge)
    obtain ⟨fuel, m', trace, hrun⟩ := hall m hreach default default
    exact insert_never hrep hpool hidle hrun
  · obtain ⟨a, hrep⟩ := hreach.rep
    exact hrep.terminates hlt k v
  · intro _ m hreach fuel k v m' trace hrun
    obtain ⟨a, hrep⟩ := hreach.rep
    exact hrep.purges_le hrun
  · intro hge
    obtain ⟨m, a, hreach, hrep, hpool, hidle⟩ := exists_stuck (V := V) cfg (not_lt.1 hge)
    exact ⟨m, hreach, hrep.loopsForever hpool hidle⟩

theorem insert_terminates_iff_twoNodes :
    (∀ m : Mem 2 ℕ ℕ, Reachable twoNodes m → ∀ k v, Terminates twoNodes m k v) ∧
      ∀ m : Mem 2 ℕ ℕ, Reachable twoNodes m → ∀ fuel k v m' trace,
        insert twoNodes fuel m k v = .returned () m' trace → trace.countP Event.isPurge ≤ 1 :=
  have h := insert_terminates_iff (V := ℕ) twoNodes
  ⟨h.1.2 (by decide), h.2.1 (by decide)⟩

end Stuck

end DeferredLru
