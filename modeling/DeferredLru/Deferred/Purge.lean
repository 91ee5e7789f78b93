import DeferredLru.Deferred.Represent

set_option autoImplicit false

/-! # `purgeOld` evicts the unmarked nodes nearest to the tail

Three parts: `removeNodeFromBucket` finds a resident node in its chain and erases it
(`removeNodeFromBucket_spec`); one round of the purge loop on an unmarked node evicts exactly it
(`evict_node_spec`); and the loop, walking backward over a prefix of the LRU list that shrinks from
the right, evicts the unmarked nodes of that prefix up to the required number (`purgeLoop_spec`). -/

namespace DeferredLru

open Intrusive

variable {N : ℕ} {K V : Type} {cfg : Config N K} {m : Mem N K V} {a : Lists N} {n : Fin N}

/-! ## The bucket chain -/

theorem unlinkBehind_spec {fuel : ℕ} {cur : Option (Fin N)} {l : List (Fin N)}
    (h : Chain m.bucketNext some cur l none) (hn : ∃ y ∈ l, m.bucketNext y = some n)
    (hfuel : l.length ≤ fuel) :
    ∃ y ∈ l, m.bucketNext y = some n ∧ unlinkBehind m n fuel cur =
      some (true, (m.setBucketNext y (m.bucketNext n)).setBucketNext n none) := by
  induction fuel generalizing cur l with
  | zero =>
      obtain ⟨y, hy, -⟩ := hn
      have := List.length_pos_of_mem hy
      omega
  | succ fuel ih =>
      cases l with
      | nil =>
          obtain ⟨y, hy, -⟩ := hn
          exact absurd hy (by simp)
      | cons z l =>
          obtain ⟨rfl, hrest⟩ := h
          by_cases hz : m.bucketNext z = some n
          · exact ⟨z, by simp, hz, by simp [unlinkBehind, hz]⟩
          · have hn' : ∃ y ∈ l, m.bucketNext y = some n := by
              obtain ⟨y, hy, hyn⟩ := hn
              rcases List.mem_cons.1 hy with rfl | hy
              · exact absurd hyn hz
              · exact ⟨y, hy, hyn⟩
            obtain ⟨y, hy, hyn, hrun⟩ := ih hrest hn' (by simpa using hfuel)
            exact ⟨y, List.mem_cons_of_mem _ hy, hyn, by simpa [unlinkBehind, hz] using hrun⟩

/-- `removeNodeFromBucket` erases an unmarked resident node from the chain of its bucket and
    changes nothing but bucket links. -/
theorem removeNodeFromBucket_spec {fuel : ℕ} (h : Links cfg m a) (hn : n ∈ a.lru)
    (hmark : n ∉ a.recent) (hfuel : N ≤ fuel) :
    ∃ m', removeNodeFromBucket cfg fuel m n false = some (true, m') ∧
      (∀ b, Chain m'.bucketNext some (m'.buckets b) ((a.bucket b).erase n) none) ∧
      m' = { m with bucketNext := m'.bucketNext, buckets := m'.buckets } := by
  have hmk : m.markedRecent n = false := by
    rw [← Bool.not_eq_true, h.markedRecent_iff]
    exact hmark
  have hnb : n ∈ a.bucket (cfg.keyToBucketNr (m.key n)) := (h.mem_bucket _ n).2 ⟨hn, rfl⟩
  generalize hb : cfg.keyToBucketNr (m.key n) = b at hnb
  have hother : ∀ b', b' ≠ b → ∀ y ∈ a.bucket b, y ∉ a.bucket b' := by
    intro b' hb' y hy hy'
    exact hb' (((h.mem_bucket b' y).1 hy').2.symm.trans ((h.mem_bucket b y).1 hy).2)
  by_cases hhead : m.buckets b = some n
  · refine ⟨(m.setBucket b (m.bucketNext n)).setBucketNext n none, ?_, ?_, rfl⟩
    · simp only [removeNodeFromBucket, hmk, hb, hhead, Bool.not_false, Bool.and_false,
        Bool.false_eq_true, if_false, if_true]
    · intro b'
      simp only [Mem.setBucketNext, Mem.setBucket]
      by_cases hb' : b' = b
      · subst hb'
        rw [Function.update_self]
        have hchain := h.buckets b'
        have hdup := h.bucket_nodup b'
        cases hl : a.bucket b' with
        | nil => rw [hl] at hnb; exact absurd hnb (by simp)
        | cons y l =>
            rw [hl] at hchain hdup
            obtain rfl : n = y := Option.some.inj (hhead.symm.trans hchain.1)
            rw [List.erase_cons_head]
            exact Chain.update hchain.2 (List.nodup_cons.1 hdup).1
      · have hnb' := hother b' hb' n hnb
        rw [Function.update_of_ne hb', List.erase_of_not_mem hnb']
        exact Chain.update (h.buckets b') hnb'
  · obtain ⟨y₀, hy₀, hyn₀⟩ := (h.buckets b).pred hnb hhead
    obtain ⟨y, hy, hyn, hrun⟩ := unlinkBehind_spec (h.buckets b) ⟨y₀, hy₀, hyn₀⟩
      ((length_le_capacity (h.bucket_nodup b)).trans hfuel)
    refine ⟨(m.setBucketNext y (m.bucketNext n)).setBucketNext n none, ?_, ?_, rfl⟩
    · simp only [removeNodeFromBucket, hmk, hb, hhead, Bool.not_false, Bool.and_false,
        Bool.false_eq_true, if_false]
      exact hrun
    · intro b'
      simp only [Mem.setBucketNext]
      by_cases hb' : b' = b
      · subst hb'
        refine Chain.update ((h.buckets b').unlink (Option.some_injective _) (by simp) hnb hy hyn) ?_
        exact (h.bucket_nodup b').not_mem_erase
      · have hnb' := hother b' hb' n hnb
        rw [List.erase_of_not_mem hnb']
        exact Chain.update (Chain.update (h.buckets b') (hother b' hb' y hy)) hnb'

/-! ## One victim -/

/-- The memories agree on what a purge keeps: keys, values, marks and the Recent list, and the
    request flags. -/
structure SameEntries (m m' : Mem N K V) : Prop where
  key : m'.key = m.key
  value : m'.value = m.value
  recentNext : m'.recentNext = m.recentNext
  recentHead : m'.recentHead = m.recentHead
  recentCount : m'.recentCount = m.recentCount
  pullRequest : m'.pullRequest = m.pullRequest
  purgeRequest : m'.purgeRequest = m.purgeRequest

theorem SameEntries.refl (m : Mem N K V) : SameEntries m m := ⟨rfl, rfl, rfl, rfl, rfl, rfl, rfl⟩

theorem SameEntries.trans {m₁ m₂ m₃ : Mem N K V} (h : SameEntries m₁ m₂)
    (h' : SameEntries m₂ m₃) : SameEntries m₁ m₃ :=
  ⟨h'.key.trans h.key, h'.value.trans h.value, h'.recentNext.trans h.recentNext,
    h'.recentHead.trans h.recentHead, h'.recentCount.trans h.recentCount,
    h'.pullRequest.trans h.pullRequest, h'.purgeRequest.trans h.purgeRequest⟩

/-- The memory after a purge round has evicted `n`, whose bucket removal left `m`. -/
def evicted (m : Mem N K V) (n : Fin N) : Mem N K V :=
  disposeNode { unlinked m n with currentElementCount := m.currentElementCount - 1 } n

theorem evicted_lruNext_self : (evicted m n).lruNext (.node n) = m.emptyHead :=
  Function.update_self ..

theorem evicted_lruNext_of_ne {c : Ptr N} (hc : c ≠ .node n) :
    (evicted m n).lruNext c = (unlinked m n).lruNext c :=
  Function.update_of_ne hc _ _

theorem Lists.evict_singleton_lru (hdup : a.lru.Nodup) : (a.evict [n]).lru = a.lru.erase n := by
  rw [hdup.erase_eq_filter]
  show a.lru.filter _ = _
  congr 1
  funext x
  by_cases hx : x = n <;> simp [hx]

/-- **One eviction.** On an unmarked resident node the bucket removal succeeds, the LRU removal is
    defined, and after the node is disposed of the memory represents the lists without it. -/
theorem evict_node_spec {fuel : ℕ} (h : Links cfg m a) (hn : n ∈ a.lru) (hmark : n ∉ a.recent)
    (hfuel : N ≤ fuel) :
    ∃ m₁, removeNodeFromBucket cfg fuel m n false = some (true, m₁) ∧
      removeNodeFromLru m₁ (.node n) = some (unlinked m₁ n) ∧
      Links cfg (evicted m₁ n) (a.evict [n]) ∧ SameEntries m (evicted m₁ n) ∧
      m₁.key = m.key ∧ m₁.value = m.value ∧ m₁.currentElementCount = m.currentElementCount := by
  obtain ⟨m₁, hrun, hbuckets, hm₁⟩ := removeNodeFromBucket_spec h hn hmark hfuel
  have hnext : m₁.lruNext = m.lruNext := by rw [hm₁]
  have hprev : m₁.lruPrev = m.lruPrev := by rw [hm₁]
  have hempty : m₁.emptyHead = m.emptyHead := by rw [hm₁]
  have hkey : m₁.key = m.key := by rw [hm₁]
  have hlru : LruList m₁ a.lru :=
    h.lru.congr (fun c _ => by rw [hnext]) (fun c _ => by rw [hprev])
  have hdup := h.lru_nodup
  have hun := hlru.unlinked hn
  -- the cells that stay are not the node, so putting it into the pool does not touch them
  have hnotcell : ∀ c, IsCell Ptr.node .lruHead (a.lru.erase n) c → c ≠ .node n := by
    rintro c (rfl | ⟨x, hx, rfl⟩)
    · simp
    · intro heq
      exact hdup.not_mem_erase (Ptr.node_injective heq ▸ hx)
  refine ⟨m₁, hrun, removeNodeFromLru_eq hlru hn, ?_, ?_, hkey, by rw [hm₁], by rw [hm₁]⟩
  · refine ⟨?_, ?_, ?_, ?_, ?_, ?_, ?_, ?_⟩
    · rw [Lists.evict_singleton_lru hdup]
      exact hun.congr (fun c hc => evicted_lruNext_of_ne (hnotcell c hc)) (fun _ _ => rfl)
    · refine ⟨rfl, ?_⟩
      show Chain _ _ ((evicted m₁ n).lruNext (.node n)) a.pool .null
      rw [evicted_lruNext_self, hempty]
      refine Chain.congr h.pool (fun x hx => ?_)
      have hxl : x ∉ a.lru := h.pool_disjoint x hx
      have hxn : Ptr.node x ≠ .node n := fun heq => hxl (Ptr.node_injective heq ▸ hn)
      -- nor is a pool node the predecessor whose link was changed
      have hxp : Ptr.node x ≠ m₁.lruPrev (.node n) := by
        intro heq
        rcases (hlru.prev_spec hn).1 with hh | ⟨y, hy, hxy⟩
        · exact absurd (heq.trans hh) (by simp)
        · exact hxl (Ptr.node_injective (heq.trans hxy) ▸ hy)
      rw [evicted_lruNext_of_ne hxn, unlinked, Mem.setPrev_lruNext, Mem.setNext_lruNext,
        Function.update_of_ne hxp, hnext]
    · show Chain m₁.recentNext _ m₁.recentHead a.recent .dummy
      rw [hm₁]
      exact h.recent
    · intro x
      show m₁.recentNext x ≠ .null ↔ x ∈ a.recent
      rw [hm₁]
      exact h.marked x
    · intro x hx
      have hxn : x ≠ n := fun heq => hmark (heq ▸ hx)
      rw [Lists.evict_singleton_lru hdup]
      exact (List.mem_erase_of_ne hxn).2 (h.recent_sub x hx)
    · intro x hx
      rw [Lists.evict_singleton_lru hdup]
      rcases List.mem_cons.1 hx with rfl | hx
      · exact hdup.not_mem_erase
      · exact fun hm => h.pool_disjoint x hx (List.mem_of_mem_erase hm)
    · intro b
      -- of a chain without duplicates the filter erases the one node
      have hb : (a.evict [n]).bucket b = (a.bucket b).erase n := by
        rw [(h.bucket_nodup b).erase_eq_filter]
        show (a.bucket b).filter _ = _
        congr 1
        funext x
        by_cases hx : x = n <;> simp [hx]
      rw [hb]
      exact hbuckets b
    · intro b x
      show x ∈ (a.bucket b).filter _ ↔ x ∈ a.lru.filter _ ∧ cfg.keyToBucketNr (m₁.key x) = b
      rw [hkey, List.mem_filter, List.mem_filter, h.mem_bucket b x]
      tauto
  · refine ⟨hkey, ?_, ?_, ?_, ?_, ?_, ?_⟩
    all_goals
      simp only [evicted, disposeNode, unlinked, Mem.setNext, Mem.setPrev]
      rw [hm₁]

/-! ## The loop -/

/-- The last cell of a list behind the head sentinel. -/
def lastCell (l : List (Fin N)) : Ptr N := (l.getLast?).elim .lruHead .node

theorem LruList.prev_eq_lastCell {m : Mem N K V} {l₁ l₂ : List (Fin N)} {n : Fin N}
    (h : LruList m (l₁ ++ n :: l₂)) : m.lruPrev (.node n) = lastCell l₁ := by
  have hn : n ∈ l₁ ++ n :: l₂ := by simp
  obtain ⟨hc, hcn⟩ := h.prev_spec hn
  have h₁ := (linked_append_cons.1 h.linked).1
  cases l₁ using List.reverseRecOn with
  | nil => exact h.next_inj hc isCell_head (hcn.trans (linked_nil.1 h₁).symm)
  | append_singleton l₀ x =>
      have hx : m.lruNext (.node x) = .node n := (linked_append_cons.1 h₁).2
      have : m.lruPrev (.node n) = .node x :=
        h.next_inj hc (isCell_node (by simp)) (hcn.trans hx.symm)
      simpa [lastCell] using this

theorem LruList.tail_prev {m : Mem N K V} {l : List (Fin N)} (h : LruList m l) :
    m.lruPrev .lruTail = lastCell l := by
  obtain ⟨c, hc, hct⟩ := h.linked.last
  have hback := h.back c hc
  rw [hct] at hback
  rw [hback]
  cases l using List.reverseRecOn with
  | nil =>
      rcases hc with rfl | ⟨x, hx, -⟩
      · rfl
      · exact absurd hx (by simp)
  | append_singleton l₀ x =>
      have hx : m.lruNext (.node x) = .lruTail := (linked_append_cons.1 h.linked).2
      have : c = .node x := h.next_inj hc (isCell_node (by simp)) (hct.trans hx.symm)
      simpa [lastCell] using this

theorem Lists.evict_nil (a : Lists N) : a.evict [] = a := by
  simp [Lists.evict]

theorem Lists.evict_evict (a : Lists N) (n : Fin N) (vs : List (Fin N)) :
    (a.evict [n]).evict vs = a.evict (n :: vs) := by
  simp only [Lists.evict, List.filter_filter, List.reverse_cons, List.append_assoc,
    List.reverse_nil, List.nil_append, Lists.mk.injEq, true_and]
  refine ⟨?_, ?_⟩
  · congr 1
    funext x
    by_cases hx : x = n <;> simp [hx]
  · funext b
    congr 1
    funext x
    by_cases hx : x = n <;> simp [hx]

theorem tail_reverse_snoc {α : Type*} {l : List α} {x : α} (h : l ≠ []) :
    (l ++ [x]).tail.reverse = x :: l.tail.reverse := by
  cases l with
  | nil => exact absurd rfl h
  | cons y l => simp

theorem lastCell_eq_head_iff {l : List (Fin N)} : lastCell l = .lruHead ↔ l = [] := by
  cases l using List.reverseRecOn with
  | nil => simp [lastCell]
  | append_singleton l x => simp [lastCell]

/-- **The loop of `purgeOld`.** Standing on the last cell of the prefix `l₁` of the LRU list, with
    `freed` nodes freed so far, it evicts the unmarked nodes of `l₁` behind the front one, last
    first, up to `required` in all. -/
theorem purgeLoop_spec {inner required fuel freed : ℕ} {l₁ l₂ : List (Fin N)}
    (h : Links cfg m a) (hl : a.lru = l₁ ++ l₂) (hinner : N ≤ inner) (hfuel : l₁.length < fuel) :
    ∃ m', purgeLoop cfg inner required fuel (lastCell l₁) freed m =
        some ((victims a.recent l₁ (required - freed)).map (fun n => (m.key n, m.value n)), m') ∧
      Links cfg m' (a.evict (victims a.recent l₁ (required - freed))) ∧ SameEntries m m' ∧
      m'.currentElementCount =
        m.currentElementCount - (victims a.recent l₁ (required - freed)).length := by
  induction fuel generalizing m a freed l₁ l₂ with
  | zero => exact absurd hfuel (by omega)
  | succ fuel ih =>
      -- where the loop ends it has evicted nothing and changed nothing
      have hdone : victims a.recent l₁ (required - freed) = [] →
          Links cfg m (a.evict (victims a.recent l₁ (required - freed))) ∧ SameEntries m m ∧
          m.currentElementCount =
            m.currentElementCount - (victims a.recent l₁ (required - freed)).length := by
        intro hv
        rw [hv, Lists.evict_nil]
        exact ⟨h, SameEntries.refl m, by simp⟩
      by_cases hreq : required ≤ freed
      · have hv : victims a.recent l₁ (required - freed) = [] := by
          simp [victims, Nat.sub_eq_zero_of_le hreq]
        refine ⟨m, ?_, hdone hv⟩
        unfold purgeLoop
        rw [hv, if_pos (Or.inr hreq), List.map_nil]
      · cases l₁ using List.reverseRecOn with
        | nil =>
            refine ⟨m, ?_, hdone (by simp [victims])⟩
            simp [purgeLoop, lastCell, victims]
        | append_singleton l₀ n =>
            have hlru : LruList m (l₀ ++ n :: l₂) := by
              have := h.lru
              rwa [hl, List.append_assoc] at this
            have hlast : lastCell (l₀ ++ [n]) = .node n := by simp [lastCell]
            have hprev := hlru.prev_eq_lastCell
            have hlen : l₀.length < fuel := by simpa using hfuel
            rw [hlast]
            by_cases hl₀ : l₀ = []
            · -- `n` is the front node
              subst hl₀
              refine ⟨m, ?_, hdone (by simp [victims])⟩
              have hfront : m.lruPrev (.node n) = .lruHead := hprev
              simp [purgeLoop, hreq, hfront, victims]
            · have hnext : m.lruPrev (.node n) ≠ .lruHead := by
                rw [hprev]
                exact fun hh => hl₀ (lastCell_eq_head_iff.1 hh)
              have hn : n ∈ a.lru := by rw [hl]; simp
              by_cases hmark : n ∈ a.recent
              · -- a marked node is passed by
                have hv : victims a.recent (l₀ ++ [n]) (required - freed) =
                    victims a.recent l₀ (required - freed) := by
                  simp [victims, tail_reverse_snoc hl₀, hmark]
                have hmk : m.markedRecent n = true := (h.markedRecent_iff n).2 hmark
                have hl' : a.lru = l₀ ++ n :: l₂ := by rw [hl]; simp
                obtain ⟨m', hrun, hrest⟩ := @ih m a freed l₀ (n :: l₂) h hl' hlen
                refine ⟨m', ?_, ?_⟩
                · rw [hv, ← hrun, hprev.symm]
                  simp [purgeLoop, hreq, hnext, hmk]
                · rw [hv]
                  exact hrest
              · -- an unmarked one is evicted, and the rest of the loop runs on what is left
                have hmk : m.markedRecent n = false := by
                  rw [← Bool.not_eq_true, h.markedRecent_iff]
                  exact hmark
                obtain ⟨m₁, hrem, hunl, hlinks, hsame, hkey, hvalue, hcount⟩ :=
                  evict_node_spec h hn hmark hinner
                have hdup := h.lru_nodup
                have hlru' : (a.evict [n]).lru = l₀ ++ l₂ := by
                  rw [Lists.evict_singleton_lru hdup, hl]
                  rw [hl, List.append_assoc] at hdup
                  have hn₀ : n ∉ l₀ := fun hm =>
                    (List.nodup_append.1 hdup).2.2 n hm n (by simp) rfl
                  rw [List.append_assoc, List.erase_append_right _ hn₀]
                  simp
                have hv : victims a.recent (l₀ ++ [n]) (required - freed) =
                    n :: victims a.recent l₀ (required - (freed + 1)) := by
                  have hsub : required - freed = required - (freed + 1) + 1 := by omega
                  simp [victims, tail_reverse_snoc hl₀, hmark, hsub]
                obtain ⟨m', hrun, hlinks', hsame', hcount'⟩ :=
                  @ih (evicted m₁ n) (a.evict [n]) (freed + 1) l₀ l₂ hlinks hlru' hlen
                refine ⟨m', ?_, ?_, hsame.trans hsame', ?_⟩
                · rw [hv, List.map_cons, purgeLoop, if_neg (by simp [hreq])]
                  simp only [hnext, if_false, hmk, Bool.false_eq_true, hrem, Option.bind_eq_bind,
                    Option.bind_some, if_true, hunl]
                  rw [hprev]
                  have hrun' : purgeLoop cfg inner required fuel (lastCell l₀) (freed + 1)
                      (disposeNode { unlinked m₁ n with
                        currentElementCount := (unlinked m₁ n).currentElementCount - 1 } n) = _ := hrun
                  rw [hrun']
                  simp only [Option.bind_some]
                  show some ((m₁.key n, m₁.value n) :: _, m') = _
                  rw [hkey, hvalue, hsame.key, hsame.value]
                  rfl
                · rw [hv, ← Lists.evict_evict]
                  exact hlinks'
                · rw [hv, hcount']
                  show m₁.currentElementCount - 1 - _ = _
                  rw [hcount, List.length_cons]
                  show _ - 1 - (victims a.recent l₀ _).length = _
                  omega

/-- **`purgeOld` refines `Lists.purge`.** It terminates and evicts the `max requiredNodes 1`
    evictable nodes nearest to the tail, or all of them if there are fewer; what survives keeps its
    order, mark, key and value. -/
theorem purgeOld_spec {fuel : ℕ} (h : Links cfg m a) (requiredNodes : ℕ) (hfuel : N < fuel) :
    ∃ m', purgeOld cfg fuel m requiredNodes =
        some ((a.evictable.take (max requiredNodes 1)).map (fun x => (m.key x, m.value x)), m') ∧
      Links cfg m' (a.purge (max requiredNodes 1)) ∧ SameEntries m m' ∧
      m'.currentElementCount =
        m.currentElementCount - (a.evictable.take (max requiredNodes 1)).length := by
  have hmax : (if requiredNodes = 0 then 1 else requiredNodes) = max requiredNodes 1 := by
    split <;> omega
  rw [purgeOld, hmax, h.lru.tail_prev]
  exact @purgeLoop_spec N K V cfg m a fuel (max requiredNodes 1) fuel 0 a.lru [] h (by simp)
    hfuel.le ((length_le_capacity h.lru_nodup).trans_lt hfuel)

/-! ## A purge that frees nothing -/

/-- With nothing to evict the loop of `purgeOld`, however long it runs, changes nothing. -/
theorem purgeLoop_idle {inner required fuel freed : ℕ} {l₁ l₂ : List (Fin N)} (h : Links cfg m a)
    (hl : a.lru = l₁ ++ l₂) (hidle : ∀ n ∈ l₁.tail, n ∈ a.recent) :
    purgeLoop cfg inner required fuel (lastCell l₁) freed m = none ∨
      purgeLoop cfg inner required fuel (lastCell l₁) freed m = some ([], m) := by
  induction fuel generalizing l₁ l₂ with
  | zero => exact Or.inl rfl
  | succ fuel ih =>
      by_cases hreq : required ≤ freed
      · unfold purgeLoop
        exact Or.inr (if_pos (Or.inr hreq))
      · cases l₁ using List.reverseRecOn with
        | nil =>
            right
            simp [purgeLoop, lastCell]
        | append_singleton l₀ n =>
            have hlru : LruList m (l₀ ++ n :: l₂) := by
              have := h.lru
              rwa [hl, List.append_assoc] at this
            have hprev := hlru.prev_eq_lastCell
            have hlast : lastCell (l₀ ++ [n]) = .node n := by simp [lastCell]
            rw [hlast]
            by_cases hl₀ : l₀ = []
            · subst hl₀
              have hfront : m.lruPrev (.node n) = .lruHead := hprev
              right
              simp [purgeLoop, hreq, hfront]
            · have hnext : m.lruPrev (.node n) ≠ .lruHead := by
                rw [hprev]
                exact fun hh => hl₀ (lastCell_eq_head_iff.1 hh)
              have htail : (l₀ ++ [n]).tail = l₀.tail ++ [n] := List.tail_append_of_ne_nil hl₀
              have hmk : m.markedRecent n = true :=
                (h.markedRecent_iff n).2 (hidle n (by simp [htail]))
              have hih := @ih l₀ (n :: l₂) (by rw [hl]; simp)
                (fun x hx => hidle x (by simp [htail, hx]))
              rw [← hprev] at hih
              simpa [purgeLoop, hreq, hnext, hmk] using hih

theorem Lists.evictable_eq_nil {a : Lists N} :
    a.evictable = [] ↔ ∀ n ∈ a.lru.tail, n ∈ a.recent := by
  simp [Lists.evictable, List.filter_eq_nil_iff]

theorem purgeOld_idle {fuel : ℕ} (h : Links cfg m a) (requiredNodes : ℕ)
    (hidle : a.evictable = []) :
    purgeOld cfg fuel m requiredNodes = none ∨ purgeOld cfg fuel m requiredNodes = some ([], m) := by
  rw [purgeOld, h.lru.tail_prev]
  exact purgeLoop_idle h (List.append_nil _).symm (Lists.evictable_eq_nil.1 hidle)

/-! ## Counting the victims -/

theorem Lists.evictable_sub {a : Lists N} {n : Fin N} (hn : n ∈ a.evictable) :
    n ∈ a.lru ∧ n ∉ a.recent := by
  simp only [Lists.evictable, List.mem_filter, List.mem_reverse, decide_eq_true_eq] at hn
  exact ⟨List.mem_of_mem_tail hn.1, hn.2⟩

theorem Links.evictable_nodup (h : Links cfg m a) : a.evictable.Nodup :=
  (List.nodup_reverse.2 (h.lru_nodup.sublist (List.tail_sublist _))).filter _

/-- A purge shortens the LRU list by the number of its victims. -/
theorem Links.purge_length (h : Links cfg m a) (required : ℕ) :
    (a.purge required).lru.length + (a.evictable.take required).length = a.lru.length := by
  have hsub : ∀ n ∈ a.evictable.take required, n ∈ a.lru :=
    fun n hn => (Lists.evictable_sub (List.mem_of_mem_take hn)).1
  have hperm : ((a.purge required).lru ++ a.evictable.take required).Perm a.lru := by
    refine (List.perm_ext_iff_of_nodup ?_ h.lru_nodup).2 (fun n => ?_)
    · refine List.nodup_append.2 ⟨h.lru_nodup.filter _,
        h.evictable_nodup.sublist (List.take_sublist _ _), ?_⟩
      rintro x hx y hy rfl
      exact absurd hy (by simpa using (List.mem_filter.1 hx).2)
    · show n ∈ a.lru.filter _ ++ _ ↔ n ∈ a.lru
      simp only [List.mem_append, List.mem_filter, decide_eq_true_eq]
      constructor
      · rintro (hn | hn)
        · exact hn.1
        · exact hsub n hn
      · intro hn
        by_cases hv : n ∈ a.evictable.take required
        · exact Or.inr hv
        · exact Or.inl ⟨hn, hv⟩
  simpa using hperm.length_eq

end DeferredLru
