import DeferredLru.Deferred.Pull
import DeferredLru.Deferred.Purge

set_option autoImplicit false

/-! # What the operations of `DeferredLRU` do, single-threaded

One specification per function of the public path, each over any memory that represents some lists:
`find` marks the hit node and pulls when the threshold is reached (`find_spec`); `allocateNode` pops
the pool, purging once if it is empty and something is evictable (`allocateNode_of_pool`,
`allocateNode_of_evictable`), and loops without end if nothing is (`allocateLoop_idle`); linking the
node makes it resident (`link_spec`). -/

namespace DeferredLru

open Intrusive

variable {N : ℕ} {K V : Type} {cfg : Config N K} {m : Mem N K V} {a : Lists N} {n : Fin N}

/-! ## `find` -/

theorem searchBucket_spec [DecidableEq K] {k : K} {fuel : ℕ} {cur : Option (Fin N)}
    {l : List (Fin N)} (h : Chain m.bucketNext some cur l none) (hfuel : l.length < fuel) :
    searchBucket m k fuel cur = some (l.find? (fun x => m.key x = k)) := by
  induction fuel generalizing cur l with
  | zero => exact absurd hfuel (by omega)
  | succ fuel ih =>
      cases l with
      | nil =>
          obtain rfl := chain_nil.1 h
          rfl
      | cons x l =>
          obtain ⟨rfl, hrest⟩ := h
          by_cases hx : m.key x = k
          · simp [searchBucket, hx]
          · simp [searchBucket, hx, ih hrest (by simpa using hfuel)]

/-- Marking a resident node prepends it to the Recent list, once. -/
theorem markNodeRecent_spec (h : Links cfg m a) (hn : n ∈ a.lru) :
    Links cfg (markNodeRecent m n) (a.mark n) := by
  unfold markNodeRecent Lists.mark
  by_cases hmark : n ∈ a.recent
  · rw [if_pos ((h.markedRecent_iff n).2 hmark), if_pos hmark]
    exact h
  · have hmk : ¬ m.markedRecent n = true := fun hh => hmark ((h.markedRecent_iff n).1 hh)
    rw [if_neg hmk, if_neg hmark]
    have hhead : m.recentHead ≠ .null := by
      rcases h.recent.start_mem with hh | ⟨y, -, hh⟩ <;> rw [hh] <;> simp
    refine ⟨h.lru.congr (fun _ _ => rfl) (fun _ _ => rfl), h.pool, ?_, ?_, ?_, h.pool_disjoint,
      h.buckets, h.mem_bucket⟩
    · refine ⟨rfl, ?_⟩
      show Chain _ _ (Function.update m.recentNext n m.recentHead n) a.recent .dummy
      rw [Function.update_self]
      exact Chain.update h.recent hmark
    · intro x
      show Function.update m.recentNext n m.recentHead x ≠ .null ↔ x ∈ n :: a.recent
      by_cases hx : x = n
      · subst hx
        simp [hhead]
      · rw [Function.update_of_ne hx, h.marked x]
        simp [hx]
    · intro x hx
      rcases List.mem_cons.1 hx with rfl | hx
      · exact hn
      · exact h.recent_sub x hx

@[simp] theorem Lists.mark_lru (a : Lists N) (n : Fin N) : (a.mark n).lru = a.lru := by
  unfold Lists.mark
  split <;> rfl

@[simp] theorem Lists.mark_pool (a : Lists N) (n : Fin N) : (a.mark n).pool = a.pool := by
  unfold Lists.mark
  split <;> rfl

/-- The memories agree on keys, values, counts and flags: marking changes none of them. -/
theorem markNodeRecent_frame (m : Mem N K V) (n : Fin N) :
    (markNodeRecent m n).key = m.key ∧ (markNodeRecent m n).value = m.value ∧
      (markNodeRecent m n).currentElementCount = m.currentElementCount ∧
      (markNodeRecent m n).pullRequest = m.pullRequest ∧
      (markNodeRecent m n).purgeRequest = m.purgeRequest := by
  unfold markNodeRecent
  split <;> exact ⟨rfl, rfl, rfl, rfl, rfl⟩

theorem markNodeRecent_count (h : Links cfg m a) (hcount : m.recentCount = a.recent.length)
    (n : Fin N) : (markNodeRecent m n).recentCount = (a.mark n).recent.length := by
  unfold markNodeRecent Lists.mark
  by_cases hmark : n ∈ a.recent
  · rw [if_pos ((h.markedRecent_iff n).2 hmark), if_pos hmark, hcount]
  · have hmk : ¬ m.markedRecent n = true := fun hh => hmark ((h.markedRecent_iff n).1 hh)
    rw [if_neg hmk, if_neg hmark]
    simp [hcount]

/-- A granted pull request runs `pullRecent` once and leaves no request behind. -/
theorem requestPull_spec {fuel : ℕ} (h : Links cfg m a) (hpurge : m.purgeRequest = false)
    (hfuel : N < fuel) :
    ∃ m', requestPull cfg fuel m = some ([Event.pull], m') ∧ Links cfg m' a.pull ∧
      m'.recentCount = 0 ∧ m'.key = m.key ∧ m'.value = m.value ∧
      m'.currentElementCount = m.currentElementCount ∧ m'.pullRequest = false ∧
      m'.purgeRequest = false := by
  have hlinks : Links cfg { m with pullRequest := true } a := h.flags _ _ true _
  obtain ⟨m', hrun, hlinks', hcount, hsame, -⟩ := pullRecent_spec hlinks
    ((length_le_capacity h.recent_nodup).trans_lt hfuel)
  have hstage₁ : purgeStage cfg fuel { m with pullRequest := true } =
      some ([], { m with pullRequest := true }) := by
    simp [purgeStage, hpurge]
  have hstage₂ : pullStage fuel { m with pullRequest := true } =
      some ([Event.pull], { m' with pullRequest := false }) := by
    rw [pullStage, if_pos rfl, hrun]
    rfl
  refine ⟨{ m' with pullRequest := false }, ?_, hlinks'.flags _ _ false _, hcount, hsame.key,
    hsame.value, hsame.currentElementCount, rfl, hsame.purgeRequest.trans hpurge⟩
  rw [requestPull, consolidateCache, hstage₁]
  simp only [Option.bind_eq_bind, Option.bind_some, hstage₂, List.nil_append]

/-- The node that `find` returns for the key `k`. -/
def Lists.lookup [DecidableEq K] (cfg : Config N K) (m : Mem N K V) (a : Lists N) (k : K) :
    Option (Fin N) :=
  (a.bucket (cfg.keyToBucketNr k)).find? (fun x => m.key x = k)

theorem Lists.lookup_spec [DecidableEq K] {k : K} (h : Links cfg m a)
    (hn : a.lookup cfg m k = some n) : n ∈ a.lru ∧ m.key n = k := by
  unfold Lists.lookup at hn
  have hmem := List.mem_of_find?_eq_some hn
  have hkey := List.find?_some hn
  exact ⟨((h.mem_bucket _ n).1 hmem).1, by simpa using hkey⟩

/-- **A miss** returns nothing and changes nothing. -/
theorem find_miss [DecidableEq K] {k : K} {fuel : ℕ} (h : Rep cfg m a)
    (hk : a.lookup cfg m k = none) (hfuel : N < fuel) :
    find cfg fuel m k = .returned none m [] := by
  have hsearch := searchBucket_spec (k := k) (h.buckets (cfg.keyToBucketNr k))
    ((length_le_capacity (h.bucket_nodup _)).trans_lt hfuel)
  have hthr : recentThresholdHit cfg m = false := by
    have := h.belowThreshold
    simp only [recentThresholdHit, h.recentCount, decide_eq_false_iff_not]
    omega
  unfold Lists.lookup at hk
  simp only [find, hsearch, hk, hthr, Bool.false_eq_true, if_false]

/-- **A hit** delivers the node's value and marks the node; when the Recent list reaches the
    threshold it is pulled. -/
theorem find_hit [DecidableEq K] {k : K} {fuel : ℕ} (h : Rep cfg m a)
    (hk : a.lookup cfg m k = some n) (hfuel : N < fuel) :
    ∃ m' a' events, find cfg fuel m k = .returned (some (m.value n)) m' (.hit n :: events) ∧
      Rep cfg m' a' ∧ m'.key = m.key ∧ m'.value = m.value ∧
      ((a' = a.mark n ∧ events = [] ∧ (a.mark n).recent.length < cfg.pullThreshold) ∨
        (a' = (a.mark n).pull ∧ events = [.pull] ∧
          cfg.pullThreshold ≤ (a.mark n).recent.length)) := by
  have hsearch := searchBucket_spec (k := k) (h.buckets (cfg.keyToBucketNr k))
    ((length_le_capacity (h.bucket_nodup _)).trans_lt hfuel)
  obtain ⟨hn, -⟩ := Lists.lookup_spec h.toLinks hk
  have hlinks := markNodeRecent_spec h.toLinks hn
  have hcount := markNodeRecent_count h.toLinks h.recentCount n
  obtain ⟨hkey, hvalue, helems, hpull, hpurge⟩ := markNodeRecent_frame m n
  unfold Lists.lookup at hk
  have htotal : ∀ x, x ∈ (a.mark n).pool ∨ x ∈ (a.mark n).lru := by simpa using h.total
  by_cases hthr : cfg.pullThreshold ≤ (a.mark n).recent.length
  · obtain ⟨m', hrun, hlinks', hrc, hkey', hvalue', helems', hpull', hpurge'⟩ :=
      requestPull_spec hlinks (hpurge.trans h.noPurge) hfuel
    have hmem := Lists.mem_pull_lru hlinks.recent_sub
    refine ⟨m', (a.mark n).pull, [.pull], ?_, ⟨hlinks', ?_, ?_, hrc, ?_, hpull', hpurge'⟩,
      hkey'.trans hkey, hvalue'.trans hvalue, Or.inr ⟨rfl, rfl, hthr⟩⟩
    · have hhit : recentThresholdHit cfg (markNodeRecent m n) = true := by
        simpa [recentThresholdHit, hcount] using hthr
      simp only [find, hsearch, hk, hhit, if_true, hrun]
      rfl
    · exact fun x => (htotal x).imp id (hmem x).2
    · have hperm : (a.mark n).pull.lru.length = (a.mark n).lru.length := by
        refine List.Perm.length_eq ((List.perm_ext_iff_of_nodup hlinks'.lru_nodup
          hlinks.lru_nodup).2 hmem)
      rw [helems', helems, h.count, hperm, Lists.mark_lru]
    · exact cfg.pullThreshold_pos
  · refine ⟨markNodeRecent m n, a.mark n, [], ?_, ⟨hlinks, htotal, ?_, hcount, ?_, ?_, ?_⟩, hkey,
      hvalue, Or.inl ⟨rfl, rfl, ?_⟩⟩
    · have hhit : recentThresholdHit cfg (markNodeRecent m n) = false := by
        simpa [recentThresholdHit, hcount] using hthr
      simp only [find, hsearch, hk, hhit, Bool.false_eq_true, if_false]
    · rw [helems, h.count, Lists.mark_lru]
    · omega
    · exact hpull.trans h.noPull
    · exact hpurge.trans h.noPurge
    · omega

/-! ## `allocateNode` -/

/-- With no pull pending, a purge request runs `purgeOld` and nothing else. -/
theorem requestPurge_eq {fuel : ℕ} {deleted : List (K × V)} {m' : Mem N K V}
    (hold : purgeOld cfg fuel { m with purgeRequest := true } cfg.purgeThreshold =
      some (deleted, m')) (hpull : m'.pullRequest = false) :
    requestPurge cfg fuel m = some ([.purge { m with purgeRequest := true } m' deleted],
      { m' with purgeRequest := false }) := by
  have hstage₁ : purgeStage cfg fuel { m with purgeRequest := true } =
      some ([.purge { m with purgeRequest := true } m' deleted],
        { m' with purgeRequest := false }) := by
    rw [purgeStage, if_pos rfl, hold]
    rfl
  have hstage₂ : pullStage fuel { m' with purgeRequest := false } =
      some ([], { m' with purgeRequest := false }) := by
    rw [pullStage, if_neg]
    simp [hpull]
  rw [requestPurge, consolidateCache, hstage₁]
  simp only [Option.bind_eq_bind, Option.bind_some, hstage₂, List.append_nil]

theorem requestPurge_eq_none {fuel : ℕ}
    (hold : purgeOld cfg fuel { m with purgeRequest := true } cfg.purgeThreshold = none) :
    requestPurge cfg fuel m = none := by
  have hstage : purgeStage cfg fuel { m with purgeRequest := true } = none := by
    rw [purgeStage, if_pos rfl, hold]
    rfl
  rw [requestPurge, consolidateCache, hstage]
  rfl

/-- A granted purge request evicts once and leaves no request behind. -/
theorem requestPurge_spec {fuel : ℕ} (h : Links cfg m a) (hpull : m.pullRequest = false)
    (hfuel : N < fuel) :
    ∃ before m', requestPurge cfg fuel m =
        some ([.purge before m' ((a.evictable.take cfg.purgeThreshold).map
          (fun x => (m.key x, m.value x)))], { m' with purgeRequest := false }) ∧
      Links cfg before a ∧ Links cfg m' (a.purge cfg.purgeThreshold) ∧
      SameEntries { m with purgeRequest := true } m' ∧
      m'.currentElementCount =
        m.currentElementCount - (a.evictable.take cfg.purgeThreshold).length := by
  have hlinks : Links cfg { m with purgeRequest := true } a := h.flags _ _ _ true
  have hQ : max cfg.purgeThreshold 1 = cfg.purgeThreshold := max_eq_left cfg.purgeThreshold_pos
  obtain ⟨m', hold, hlinks', hsame, hcount⟩ := purgeOld_spec hlinks cfg.purgeThreshold hfuel
  rw [hQ] at hold hlinks' hcount
  exact ⟨_, m', requestPurge_eq hold (hsame.pullRequest.trans hpull), hlinks, hlinks', hsame, hcount⟩

/-- The pool head is the node `allocateNode` returns. -/
theorem allocateLoop_of_pool (inner fuel : ℕ) {p : List (Fin N)} (trace : List (Event N K V))
    (h : Links cfg m a) (hpool : a.pool = n :: p) :
    allocateLoop cfg inner (fuel + 1) m.emptyHead m trace =
        .returned n { m with emptyHead := m.lruNext (.node n) } trace ∧
      Links cfg { m with emptyHead := m.lruNext (.node n) } { a with pool := p } ∧
      n ∉ a.lru ∧ n ∉ p := by
  have hchain := h.pool
  have hdup := h.pool_nodup
  rw [hpool] at hchain hdup
  refine ⟨by simp [allocateLoop, hchain.1], ?_, h.pool_disjoint n (by simp [hpool]),
    (List.nodup_cons.1 hdup).1⟩
  refine ⟨h.lru.congr (fun _ _ => rfl) (fun _ _ => rfl), hchain.2, h.recent, h.marked,
    h.recent_sub, ?_, h.buckets, h.mem_bucket⟩
  intro x hx
  exact h.pool_disjoint x (by rw [hpool]; exact List.mem_cons_of_mem _ hx)

/-- What `allocateNode` did to the lists `a` before it took the pool head: nothing, or one purge of
    the full cache. -/
inductive Allocated (cfg : Config N K) (a : Lists N) :
    Lists N → List (Event N K V) → Prop
  | direct : Allocated cfg a a []
  | purged {before after : Mem N K V} {deleted : List (K × V)} : a.pool = [] →
      Links cfg before a → Links cfg after (a.purge cfg.purgeThreshold) →
      Allocated cfg a (a.purge cfg.purgeThreshold) [.purge before after deleted]

/-- The pairs handed to `onDelete` in a trace, in the order of the calls. -/
def onDeletes (trace : List (Event N K V)) : List (K × V) :=
  trace.flatMap fun e => match e with
    | .purge _ _ deleted => deleted
    | _ => []

/-- The nodes that `allocateNode` has a purge evict, in this order. -/
def Lists.displaced (cfg : Config N K) (a : Lists N) : List (Fin N) :=
  if a.pool = [] then a.evictable.take cfg.purgeThreshold else []

theorem Allocated.lists {a₁ : Lists N} {events : List (Event N K V)} (h : Allocated cfg a a₁ events)
    (hp : a₁.pool ≠ []) : a₁ = a.evict (a.displaced cfg) := by
  unfold Lists.displaced
  cases h with
  | direct => rw [if_neg hp, Lists.evict_nil]
  | purged hpool => rw [if_pos hpool, Lists.purge]

/-- **`allocateNode` returns** if the pool has a node or a purge would free one, after at most one
    purge. Here `count` is what the element counter exceeds the LRU list by. -/
theorem allocateNode_spec {fuel : ℕ} (count : ℕ) (h : Links cfg m a) (hpull : m.pullRequest = false)
    (hpurge : m.purgeRequest = false) (hcount : m.currentElementCount = a.lru.length + count)
    (havail : a.pool ≠ [] ∨ a.evictable ≠ []) (hfuel : N < fuel) :
    ∃ a₁ n p m₁ events, allocateNode cfg fuel m = .returned n m₁ events ∧ a₁.pool = n :: p ∧
      Links cfg m₁ { a₁ with pool := p } ∧ n ∉ a₁.lru ∧ n ∉ p ∧ Allocated cfg a a₁ events ∧
      m₁.key = m.key ∧ m₁.value = m.value ∧ m₁.recentCount = m.recentCount ∧
      m₁.currentElementCount = a₁.lru.length + count ∧ m₁.pullRequest = false ∧
      m₁.purgeRequest = false ∧
      onDeletes events = (a.displaced cfg).map (fun x => (m.key x, m.value x)) := by
  have hN := cfg.capacity_pos
  obtain ⟨fuel', rfl⟩ : ∃ f, fuel = f + 2 := ⟨fuel - 2, by omega⟩
  cases hp : a.pool with
  | cons n p =>
      obtain ⟨hrun, hlinks, hl, hnp⟩ := allocateLoop_of_pool (fuel' + 2) (fuel' + 1) [] h hp
      exact ⟨a, n, p, _, [], hrun, hp, hlinks, hl, hnp, .direct, rfl, rfl, rfl, hcount, hpull, hpurge,
        by simp [onDeletes, Lists.displaced, hp]⟩
  | nil =>
      have hev : a.evictable ≠ [] := havail.resolve_left (fun hne => hne hp)
      obtain ⟨before, m', hreq, hbefore, hafter, hsame, hcount'⟩ := requestPurge_spec h hpull hfuel
      have hempty : m.emptyHead = .null := by
        have := h.pool
        rwa [hp, chain_nil] at this
      obtain ⟨n, p, hp'⟩ : ∃ n p, (a.purge cfg.purgeThreshold).pool = n :: p := by
        refine List.exists_cons_of_ne_nil (fun hnil => hev ?_)
        have htake : a.evictable.take cfg.purgeThreshold = [] := by
          have : (a.evictable.take cfg.purgeThreshold).reverse ++ a.pool = [] := hnil
          exact List.reverse_eq_nil_iff.1 (List.append_eq_nil_iff.1 this).1
        have hQ := cfg.purgeThreshold_pos
        rcases List.take_eq_nil_iff.1 htake with hz | hz
        · omega
        · exact hz
      have hafter' := hafter.flags m'.currentElementCount m'.recentCount m'.pullRequest false
      obtain ⟨hrun, hlinks, hl, hnp⟩ := allocateLoop_of_pool (fuel' + 2) fuel'
        [.purge before m' ((a.evictable.take cfg.purgeThreshold).map
          (fun x => (m.key x, m.value x)))] hafter' hp'
      refine ⟨a.purge cfg.purgeThreshold, n, p, _,
        [.purge before m' ((a.evictable.take cfg.purgeThreshold).map
          (fun x => (m.key x, m.value x)))], ?_, hp', hlinks, hl, hnp, .purged hp hbefore hafter,
        hsame.key, hsame.value, hsame.recentCount, ?_, hsame.pullRequest.trans hpull, rfl,
        by simp [onDeletes, Lists.displaced, hp]⟩
      · rw [allocateNode, hempty, allocateLoop]
        simp only [hreq, List.nil_append]
        exact hrun
      · show m'.currentElementCount = _
        have := h.purge_length cfg.purgeThreshold
        omega

/-- **`allocateNode` loops** if the pool is empty and nothing is evictable: every round requests a
    purge that frees nothing. -/
theorem allocateLoop_idle {inner fuel : ℕ} {trace : List (Event N K V)} (h : Links cfg m a)
    (hpool : a.pool = []) (hidle : a.evictable = []) (hpull : m.pullRequest = false)
    (hinner : N < inner) :
    ∃ m' events, allocateLoop cfg inner fuel m.emptyHead m trace = .running m' (trace ++ events) ∧
      events.length = fuel ∧ ∀ e ∈ events, ∃ before after, e = .purge before after [] ∧
        Links cfg before a ∧ Links cfg after a := by
  induction fuel generalizing m trace with
  | zero => exact ⟨m, [], by simp [allocateLoop], rfl, by simp⟩
  | succ fuel ih =>
      obtain ⟨before, m', hreq, hbefore, hafter, hsame, -⟩ := requestPurge_spec h hpull hinner
      have hpurge : a.purge cfg.purgeThreshold = a := by
        rw [Lists.purge, hidle, List.take_nil, Lists.evict_nil]
      rw [hpurge] at hafter
      have hempty : m.emptyHead = .null := by
        have := h.pool
        rwa [hpool, chain_nil] at this
      have hlinks := hafter.flags m'.currentElementCount m'.recentCount m'.pullRequest false
      obtain ⟨m'', events, hrun, hlen, hev⟩ := @ih { m' with purgeRequest := false }
        (trace ++ [.purge before m' []]) hlinks (hsame.pullRequest.trans hpull)
      refine ⟨m'', .purge before m' [] :: events, ?_, by simp [hlen], ?_⟩
      · rw [hempty, allocateLoop]
        simp only [hreq, hidle, List.take_nil, List.map_nil]
        rw [hrun]
        simp
      · intro e he
        rcases List.mem_cons.1 he with rfl | he
        · exact ⟨before, m', rfl, hbefore, hafter⟩
        · exact hev e he

/-- Whatever the fuel, `allocateNode` does not return in such a state. -/
theorem allocateLoop_never {inner fuel : ℕ} {trace : List (Event N K V)} (h : Links cfg m a)
    (hpool : a.pool = []) (hidle : a.evictable = []) (hpull : m.pullRequest = false)
    (n : Fin N) (m' : Mem N K V) (events : List (Event N K V)) :
    allocateLoop cfg inner fuel m.emptyHead m trace ≠ .returned n m' events := by
  have hempty : m.emptyHead = .null := by
    have := h.pool
    rwa [hpool, chain_nil] at this
  induction fuel generalizing m trace with
  | zero => simp [allocateLoop]
  | succ fuel ih =>
      rw [hempty, allocateLoop]
      have hlinks : Links cfg { m with purgeRequest := true } a := h.flags _ _ _ true
      have hidle' : purgeOld cfg inner { m with purgeRequest := true } cfg.purgeThreshold = none ∨
          purgeOld cfg inner { m with purgeRequest := true } cfg.purgeThreshold =
            some ([], { m with purgeRequest := true }) :=
        purgeOld_idle hlinks cfg.purgeThreshold hidle
      rcases hidle' with hold | hold
      · simp [requestPurge_eq_none hold]
      · simp only [requestPurge_eq hold hpull]
        exact ih (h.flags _ _ _ false) hpull hempty

/-! ## `insert` -/

/-- **Linking an allocated node.** The node is filled, guarded, put in its bucket and at the LRU
    head, and unguarded. -/
theorem link_spec (h : Links cfg m a) (hl : n ∉ a.lru) (hp : n ∉ a.pool) (k : K) (v : V) :
    ∃ m', addSublistToLruHead (addNodeToBucket cfg
        (((m.setKey n k).setValue n v).setRecent n .dummy) n) (.node n) (.node n) = some m' ∧
      Links cfg (m'.setRecent n .null) (a.link n (cfg.keyToBucketNr k)) ∧
      m'.key = Function.update m.key n k ∧ m'.value = Function.update m.value n v ∧
      m'.currentElementCount = m.currentElementCount ∧ m'.recentCount = m.recentCount ∧
      m'.pullRequest = m.pullRequest ∧ m'.purgeRequest = m.purgeRequest := by
  generalize hm₁ : addNodeToBucket cfg (((m.setKey n k).setValue n v).setRecent n .dummy) n = m₁
  have hkey : m₁.key = Function.update m.key n k := by rw [← hm₁]; rfl
  have hb : cfg.keyToBucketNr (Function.update m.key n k n) = cfg.keyToBucketNr k := by
    rw [Function.update_self]
  have hbuckets : m₁.buckets =
      Function.update m.buckets (cfg.keyToBucketNr k) (some n) := by
    rw [← hm₁, ← hb]
    rfl
  have hbnext : m₁.bucketNext =
      Function.update m.bucketNext n (m.buckets (cfg.keyToBucketNr k)) := by
    rw [← hm₁, ← hb]
    rfl
  have hlru : LruList m₁ a.lru := by
    rw [← hm₁]
    exact h.lru.congr (fun _ _ => rfl) (fun _ _ => rfl)
  have hnot : ∀ b, n ∉ a.bucket b := fun b hm => hl ((h.mem_bucket b n).1 hm).1
  -- the marks of `insert` cancel: the node was unmarked and is so again
  have hunmarked : m.recentNext n = .null := by
    by_contra hne
    exact hl (h.recent_sub n ((h.marked n).1 hne))
  have hrecent : ((spliced m₁ (.node n) (.node n)).setRecent n .null).recentNext = m.recentNext := by
    rw [← hm₁]
    show Function.update (Function.update m.recentNext n .dummy) n .null = m.recentNext
    rw [Function.update_idem, ← hunmarked, Function.update_eq_self]
  refine ⟨spliced m₁ (.node n) (.node n), addSublistToLruHead_eq hlru rfl rfl, ?_, hkey,
    by rw [← hm₁]; rfl, by rw [← hm₁]; rfl, by rw [← hm₁]; rfl, by rw [← hm₁]; rfl,
    by rw [← hm₁]; rfl⟩
  refine ⟨?_, ?_, ?_, ?_, ?_, ?_, ?_, ?_⟩
  · -- the LRU list gets the node at its head
    have hone : LruList (spliced m₁ (.node n) (.node n)) ([] ++ n :: a.lru) :=
      hlru.spliced rfl (by simp) (by simp) (by simpa using hl)
    exact hone.congr (fun _ _ => rfl) (fun _ _ => rfl)
  · -- the pool chain does not pass through the node
    have hempty : ((spliced m₁ (.node n) (.node n)).setRecent n .null).emptyHead = m.emptyHead := by
      rw [← hm₁]
      rfl
    rw [hempty]
    refine Chain.congr h.pool (fun x hx => ?_)
    have hxn : Ptr.node x ≠ .node n := fun heq => hp (Ptr.node_injective heq ▸ hx)
    simp only [Mem.setRecent_lruNext, spliced, Mem.setPrev_lruNext, Mem.setNext_lruNext]
    rw [Function.update_of_ne (by simp), Function.update_of_ne hxn, ← hm₁]
    rfl
  · -- the Recent list and its marks are as before
    rw [hrecent]
    have hhead : ((spliced m₁ (.node n) (.node n)).setRecent n .null).recentHead = m.recentHead := by
      rw [← hm₁]
      rfl
    rw [hhead]
    exact h.recent
  · rw [hrecent]
    exact h.marked
  · exact fun x hx => List.mem_cons_of_mem _ (h.recent_sub x hx)
  · intro x hx hm
    rcases List.mem_cons.1 hm with rfl | hm
    · exact hp hx
    · exact h.pool_disjoint x hx hm
  · -- the chain of the node's bucket begins with it, the others miss it
    intro b
    show Chain m₁.bucketNext some (m₁.buckets b)
      (Function.update a.bucket (cfg.keyToBucketNr k) (n :: a.bucket (cfg.keyToBucketNr k)) b) none
    rw [hbuckets, hbnext]
    by_cases hbk : b = cfg.keyToBucketNr k
    · subst hbk
      rw [Function.update_self, Function.update_self]
      refine ⟨rfl, ?_⟩
      rw [Function.update_self]
      exact Chain.update (h.buckets _) (hnot _)
    · rw [Function.update_of_ne hbk, Function.update_of_ne hbk]
      exact Chain.update (h.buckets b) (hnot b)
  · intro b x
    show x ∈ Function.update a.bucket (cfg.keyToBucketNr k) (n :: a.bucket (cfg.keyToBucketNr k)) b
      ↔ x ∈ n :: a.lru ∧ cfg.keyToBucketNr (m₁.key x) = b
    rw [hkey]
    by_cases hxn : x = n
    · subst hxn
      rw [Function.update_self]
      by_cases hbk : b = cfg.keyToBucketNr k
      · subst hbk
        simp
      · rw [Function.update_of_ne hbk]
        simp [hnot b, Ne.symm hbk]
    · rw [Function.update_of_ne hxn]
      by_cases hbk : b = cfg.keyToBucketNr k
      · subst hbk
        simp [hxn, h.mem_bucket]
      · rw [Function.update_of_ne hbk]
        simp [hxn, h.mem_bucket]

/-- **`insert` returns** if the pool has a node or a purge would free one: it links one node that
    was in the pool after at most one purge. -/
theorem insert_spec {fuel : ℕ} (h : Rep cfg m a) (havail : a.pool ≠ [] ∨ a.evictable ≠ [])
    (hfuel : N < fuel) (k : K) (v : V) :
    ∃ a₁ n p m' events, insert cfg fuel m k v = .returned () m' (events ++ [.inserted n k v]) ∧
      a₁.pool = n :: p ∧ n ∉ a₁.lru ∧ Allocated cfg a a₁ events ∧
      Rep cfg m' ({ a₁ with pool := p }.link n (cfg.keyToBucketNr k)) ∧
      m'.key = Function.update m.key n k ∧ m'.value = Function.update m.value n v ∧
      onDeletes events = (a.displaced cfg).map (fun x => (m.key x, m.value x)) := by
  have hlinks : Links cfg { m with currentElementCount := m.currentElementCount + 1 } a :=
    h.toLinks.flags _ _ _ _
  obtain ⟨a₁, n, p, m₁, events, hrun, hp, hlinks₁, hl, hnp, halloc, hkey₁, hvalue₁, hrc₁, hcount₁,
    hpull₁, hpurge₁, hdel⟩ := allocateNode_spec 1 hlinks h.noPull h.noPurge (by simp [h.count]) havail
      hfuel
  obtain ⟨m₂, hadd, hlinks₂, hkey₂, hvalue₂, hcount₂, hrc₂, hpull₂, hpurge₂⟩ :=
    link_spec hlinks₁ hl hnp k v
  have hrecent : a₁.recent = a.recent := by cases halloc <;> rfl
  have htotal₁ : ∀ x, x ∈ a₁.pool ∨ x ∈ a₁.lru := by
    intro x
    cases halloc with
    | direct => exact h.total x
    | purged =>
        show x ∈ (a.evictable.take _).reverse ++ a.pool ∨ x ∈ a.lru.filter _
        simp only [List.mem_append, List.mem_reverse, List.mem_filter, decide_eq_true_eq]
        have := h.total x
        tauto
  refine ⟨a₁, n, p, m₂.setRecent n .null, events, ?_, hp, hl, halloc,
    ⟨hlinks₂, ?_, ?_, ?_, ?_, ?_, ?_⟩, ?_, ?_, hdel⟩
  · rw [insert, hrun]
    simp only [hadd]
  · intro x
    show x ∈ p ∨ x ∈ n :: a₁.lru
    have := htotal₁ x
    rw [hp] at this
    simp only [List.mem_cons] at this ⊢
    tauto
  · show m₂.currentElementCount = (n :: a₁.lru).length
    rw [hcount₂, hcount₁, List.length_cons]
  · show m₂.recentCount = a₁.recent.length
    rw [hrc₂, hrc₁, hrecent]
    exact h.recentCount
  · show a₁.recent.length < cfg.pullThreshold
    rw [hrecent]
    exact h.belowThreshold
  · exact hpull₂.trans hpull₁
  · exact hpurge₂.trans hpurge₁
  · exact hkey₂.trans (by rw [hkey₁])
  · exact hvalue₂.trans (by rw [hvalue₁])

end DeferredLru
