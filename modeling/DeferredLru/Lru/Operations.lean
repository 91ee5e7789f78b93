import DeferredLru.Lru.Coherent

set_option autoImplicit false

/-! # What `evict`, `insert` and `find` do to the lists

One specification per function, over any state whose lists are intact. The LRU list and the empty list
share no field with the buckets, so each function is specified on its own half of the state and leaves
the other half alone (`ListsOnly`, `BucketsOnly`). -/

namespace DeferredLru.LruCache

open Intrusive

variable {N : ℕ} {K V : Type} {cfg : Config N K} {s s' : State N K V} {a : Lists N} {x y : Fin N}
  {lru free : List (Fin N)} {bucket : ℕ → List (Fin N)} {b : ℕ}

/-- Only the links of the LRU list and the empty list have changed. -/
structure ListsOnly (s s' : State N K V) : Prop where
  bucketPrev : s'.bucketPrev = s.bucketPrev
  bucketNext : s'.bucketNext = s.bucketNext
  bucket : s'.bucket = s.bucket
  key : s'.key = s.key
  value : s'.value = s.value
  count : s'.currentElementCount = s.currentElementCount

/-- Only the links of the buckets have changed. -/
structure BucketsOnly (s s' : State N K V) : Prop where
  listPrev : s'.listPrev = s.listPrev
  listNext : s'.listNext = s.listNext
  lruListHead : s'.lruListHead = s.lruListHead
  lruListTail : s'.lruListTail = s.lruListTail
  emptyNodesHead : s'.emptyNodesHead = s.emptyNodesHead
  key : s'.key = s.key
  value : s'.value = s.value
  count : s'.currentElementCount = s.currentElementCount

theorem BucketsOnly.listLinks (h : BucketsOnly s s') (hl : ListLinks s lru free) :
    ListLinks s' lru free :=
  hl.congr h.listNext h.listPrev h.lruListHead h.lruListTail h.emptyNodesHead

theorem ListsOnly.bucketLinks (h : ListsOnly s s') (hb : BucketLinks cfg s bucket) :
    BucketLinks cfg s' bucket := by
  unfold BucketLinks
  rw [h.bucketPrev, h.bucketNext, h.bucket]
  exact hb

/-! ## `evict` -/

theorem unlinkVictim_spec (h : ListLinks s (x :: y :: lru) free) :
    ∃ s', unlinkVictim s x = some s' ∧ ListLinks s' (y :: lru) (x :: free) ∧ ListsOnly s s' := by
  obtain ⟨hx, hnext, -⟩ := h.order.forward
  have hprev : s.listPrev x = -1 := h.order.backward.1
  have hxnot : x ∉ y :: lru := (List.nodup_cons.1 h.lru_nodup).1
  refine ⟨{ (s.setListPrev y (-1)).setListNext x s.emptyNodesHead with
      lruListHead := index y
      emptyNodesHead := index x }, ?_, ⟨?_, h.tail, ?_, ?_⟩, ⟨rfl, rfl, rfl, rfl, rfl, rfl⟩⟩
  · rw [unlinkVictim, hnext]
    simp only [slot_index]
    rfl
  · refine h.order.remove index_injective end_ne_index (fun z _ => end_ne_index z)
      (show x :: y :: lru = [] ++ x :: (y :: lru) from rfl) (fun z hz => ?_) (fun z hz => ?_) ?_
    · have hzx : z ≠ x := fun heq => hxnot (heq ▸ hz)
      rw [hprev, if_neg (end_ne_index z)]
      exact Function.update_of_ne hzx _ _
    · rw [hnext, hprev]
      exact update_index
    · rw [if_pos hprev, hnext]
  · refine ⟨rfl, ?_⟩
    show Chain (Function.update s.listNext x s.emptyNodesHead) index
      (Function.update s.listNext x s.emptyNodesHead x) free (-1)
    rw [Function.update_self]
    exact h.empty.update (h.disjoint (by simp))
  · exact List.perm_middle.trans h.slots

theorem filter_ne_split {l₁ l₂ : List (Fin N)} (h : (l₁ ++ x :: l₂).Nodup) :
    (l₁ ++ x :: l₂).filter (fun z => z ≠ x) = l₁ ++ l₂ := by
  have hx := List.nodup_middle.1 h
  rw [List.nodup_cons, List.mem_append, not_or] at hx
  rw [List.filter_append, List.filter_cons_of_neg (by simp), List.filter_eq_self.2 (fun z hz => ?_),
    List.filter_eq_self.2 (fun z hz => ?_)]
  · simpa using fun heq : z = x => hx.1.2 (heq ▸ hz)
  · simpa using fun heq : z = x => hx.1.1 (heq ▸ hz)

theorem bypassNext_spec {l : List (Fin N)} {first : ℤ} (hb : b < cfg.bucketCount)
    (h : Doubly s.bucketNext s.bucketPrev index (-b - 1) first (-1) l) (hx : x ∈ l) :
    ∃ s', bypassNext cfg s x = some s' ∧ BucketsOnly s s' ∧ s'.bucketPrev = s.bucketPrev ∧
      (∀ z, s'.bucketNext z = if s.bucketPrev x = index z then s.bucketNext x else s.bucketNext z) ∧
      ∀ c, s'.bucket c = if c = b ∧ s.bucketPrev x = -b - 1 then s.bucketNext x else s.bucket c := by
  rcases h.backward.prev_mem hx with hfirst | ⟨w, -, hw⟩
  · have hb' : (-s.bucketPrev x - 1).toNat = b := by omega
    refine ⟨s.setBucket b (s.bucketNext x), ?_, ⟨rfl, rfl, rfl, rfl, rfl, rfl, rfl, rfl⟩, rfl,
      fun z => ?_, fun c => ?_⟩
    · rw [bypassNext, if_pos (by omega), hb', if_pos hb]
    · rw [hfirst, if_neg (front_ne_index b z)]
      rfl
    · simp only [hfirst, and_true]
      exact Function.update_apply ..
  · refine ⟨s.setBucketNext w (s.bucketNext x), ?_, ⟨rfl, rfl, rfl, rfl, rfl, rfl, rfl, rfl⟩, rfl,
      fun z => ?_, fun c => ?_⟩
    · have hneg : ¬ s.bucketPrev x < 0 := by
        have := index_nonneg w
        omega
      rw [bypassNext, if_neg hneg, slot_eq hw]
      rfl
    · rw [hw]
      exact update_index
    · rw [if_neg (fun hc => front_ne_index b w (hc.2.symm.trans hw))]
      rfl

theorem bypassPrev_spec (hx : s.bucketNext x = -1 ∨ ∃ w : Fin N, s.bucketNext x = index w) :
    ∃ s', bypassPrev s x = some s' ∧ BucketsOnly s s' ∧ s'.bucketNext = s.bucketNext ∧
      s'.bucket = s.bucket ∧
      ∀ z, s'.bucketPrev z = if s.bucketNext x = index z then s.bucketPrev x else s.bucketPrev z := by
  rcases hx with hlast | ⟨w, hw⟩
  · refine ⟨s, ?_, ⟨rfl, rfl, rfl, rfl, rfl, rfl, rfl, rfl⟩, rfl, rfl, fun z => ?_⟩
    · rw [bypassPrev, if_neg (by omega)]
    · rw [hlast, if_neg (end_ne_index z)]
  · refine ⟨s.setBucketPrev w (s.bucketPrev x), ?_, ⟨rfl, rfl, rfl, rfl, rfl, rfl, rfl, rfl⟩, rfl,
      rfl, fun z => ?_⟩
    · have hpos : 0 ≤ s.bucketNext x := by
        have := index_nonneg w
        omega
      rw [bypassPrev, if_pos hpos, slot_eq hw]
      rfl
    · rw [hw]
      exact update_index

theorem BucketsOnly.trans {s'' : State N K V} (h : BucketsOnly s s') (h' : BucketsOnly s' s'') :
    BucketsOnly s s'' :=
  ⟨h'.listPrev.trans h.listPrev, h'.listNext.trans h.listNext, h'.lruListHead.trans h.lruListHead,
    h'.lruListTail.trans h.lruListTail, h'.emptyNodesHead.trans h.emptyNodesHead, h'.key.trans h.key,
    h'.value.trans h.value, h'.count.trans h.count⟩

/-- The node `x` of bucket `b` is bypassed in both directions. -/
theorem unlinkFromBucket_spec (h : BucketLinks cfg s bucket) (hb : b < cfg.bucketCount)
    (hx : x ∈ bucket b) (hdisj : ∀ b c z, z ∈ bucket b → z ∈ bucket c → b = c) :
    ∃ s', unlinkFromBucket cfg s x = some s' ∧
      BucketLinks cfg s' (fun c => (bucket c).filter (fun z => z ≠ x)) ∧ BucketsOnly s s' := by
  have hlinks := h b hb
  have hdup := hlinks.nodup index_injective end_ne_index
  obtain ⟨s₁, hrun₁, hsame₁, hprev₁, hnext₁, hbucket₁⟩ := bypassNext_spec hb hlinks hx
  have hxnext : s₁.bucketNext x = s.bucketNext x := by rw [hnext₁, ite_self]
  obtain ⟨s₂, hrun₂, hsame₂, hnext₂, hbucket₂, hprev₂⟩ := bypassPrev_spec (s := s₁) (x := x) <| by
    rw [hxnext]
    exact (hlinks.forward.next_mem hx).imp_right fun ⟨w, _, hw⟩ => ⟨w, hw⟩
  refine ⟨s₂, ?_, fun c hc => ?_, hsame₁.trans hsame₂⟩
  · rw [unlinkFromBucket, hrun₁]
    exact hrun₂
  · rw [hxnext, hprev₁] at hprev₂
    rw [← hnext₂] at hnext₁
    by_cases hcb : c = b
    · subst hcb
      obtain ⟨l₁, l₂, hl⟩ := List.append_of_mem hx
      have hfilter : (bucket c).filter (fun z => z ≠ x) = l₁ ++ l₂ := by
        rw [hl] at hdup ⊢
        exact filter_ne_split hdup
      show Doubly _ _ _ _ _ _ ((bucket c).filter (fun z => z ≠ x))
      rw [hfilter]
      refine hlinks.remove index_injective end_ne_index (fun z _ => front_ne_index c z) hl
        (fun z _ => hnext₁ z) (fun z _ => hprev₂ z) ?_
      rw [hbucket₂, hbucket₁]
      simp
    · have hxc : x ∉ bucket c := fun hmem => hcb (hdisj c b x hmem hx)
      show Doubly _ _ _ _ _ _ ((bucket c).filter (fun z => z ≠ x))
      rw [List.filter_eq_self.2 (fun z hz => by simpa using fun heq : z = x => hxc (heq ▸ hz)),
        hbucket₂, hbucket₁, if_neg (fun hh => hcb hh.1)]
      refine (h c hc).congr (fun z hz => ?_) (fun z hz => ?_)
      · rw [hnext₁, if_neg]
        intro heq
        rcases hlinks.backward.prev_mem hx with hfirst | ⟨w, hw, hwx⟩
        · exact front_ne_index b z (hfirst.symm.trans heq)
        · rw [index_injective (heq.symm.trans hwx)] at hz
          exact hcb (hdisj c b w hz hw)
      · rw [hprev₂, if_neg]
        intro heq
        rcases hlinks.forward.next_mem hx with hlast | ⟨w, hw, hwx⟩
        · exact end_ne_index z (hlast.symm.trans heq)
        · rw [index_injective (heq.symm.trans hwx)] at hz
          exact hcb (hdisj c b w hz hw)

theorem Links.disjoint_buckets (h : Links cfg s a) (b c : ℕ) (z : Fin N) (hb : z ∈ a.bucket b)
    (hc : z ∈ a.bucket c) : b = c :=
  ((h.mem_bucket b z).1 hb).2.symm.trans ((h.mem_bucket c z).1 hc).2

/-- The lists after the least recently used element `x` was evicted. -/
def Lists.evict (a : Lists N) (x : Fin N) : Lists N :=
  { lru := a.lru.tail
    free := x :: a.free
    bucket := fun b => (a.bucket b).filter (fun z => z ≠ x) }

/-- **`evict`** moves the first element of the LRU list to the empty list. -/
theorem evict_spec (h : Links cfg s a) (hlru : a.lru = x :: y :: lru)
    (hcount : 1 ≤ s.currentElementCount) :
    ∃ s', evict cfg s = some (s', checked cfg (coherentAt a.lru s.currentElementCount) ++
        assert cfg.toArguments true ++ assert cfg.toArguments true ++ .onDelete (s.key x) (s.value x) ::
          checked cfg (coherentAt a.lru.tail (s.currentElementCount - 1))) ∧
      Links cfg s' (a.evict x) ∧ s'.key = s.key ∧ s'.value = s.value ∧
      s'.currentElementCount = s.currentElementCount - 1 := by
  have hlists := h.lists
  rw [hlru] at hlists
  have hhead : s.lruListHead = index x := hlists.order.forward.1
  obtain ⟨s₁, hrun₁, hlists₁, hsame₁⟩ := unlinkVictim_spec hlists
  have hx := h.mem_own_bucket (show x ∈ a.lru by simp [hlru])
  obtain ⟨s₂, hrun₂, hbuckets₂, hsame₂⟩ := unlinkFromBucket_spec (hsame₁.bucketLinks h.buckets)
    (cfg.whichBucket_lt _) hx h.disjoint_buckets
  have hkey : s₂.key = s.key := hsame₂.key.trans hsame₁.key
  have hvalue : s₂.value = s.value := hsame₂.value.trans hsame₁.value
  have hcount₂ : s₂.currentElementCount = s.currentElementCount := hsame₂.count.trans hsame₁.count
  have hlinks₂ : Links cfg s₂ (a.evict x) := by
    refine ⟨?_, hbuckets₂, fun b n => ?_⟩
    · show ListLinks s₂ a.lru.tail (x :: a.free)
      rw [hlru]
      exact hsame₂.listLinks hlists₁
    · show n ∈ (a.bucket b).filter (fun z => z ≠ x) ↔ n ∈ a.lru.tail ∧ _
      have hxnot := (List.nodup_cons.1 hlists.lru_nodup).1
      rw [List.mem_filter, h.mem_bucket, hkey, hlru, List.tail_cons, List.mem_cons]
      by_cases hn : n = x
      · simp [hn, List.mem_cons.not.1 hxnot]
      · simp [hn]
  have hlinks₃ := hlinks₂.count (s₂.currentElementCount - 1)
  have hafter := assertCoherent_spec hlinks₃
  have hpos : decide (0 ≤ index x) = true := by simpa using index_nonneg x
  have hone : decide (1 ≤ s.currentElementCount) = true := by simpa using hcount
  refine ⟨{ s₂ with currentElementCount := s₂.currentElementCount - 1 }, ?_, hlinks₃, hkey, hvalue,
    by rw [← hcount₂]⟩
  rw [← hkey, ← hvalue, evict, assertCoherent_spec h, hhead, slot_index]
  simp only [Option.bind_eq_bind, Option.bind_some, hrun₁, hrun₂, hafter, hpos]
  rw [hcount₂, hone]
  rfl

/-! ## `insert` -/

theorem lastAddr_ne (hx : x ∉ lru) : lastAddr index (-1) lru ≠ index x := by
  rcases @lastAddr_mem _ _ index (-1 : ℤ) lru with ⟨hend, -⟩ | ⟨y, hy, hlast⟩
  · rw [hend]
    exact end_ne_index x
  · rw [hlast]
    intro heq
    exact hx (index_injective heq ▸ hy)

theorem insertAtEnd_eq (htail : s.lruListTail = -1 ∨ ∃ y, y ≠ x ∧ s.lruListTail = index y) :
    ∃ s', insertAtEnd s x = some s' ∧ ListsOnly s s' ∧
      (∀ z, z ≠ x → s'.listNext z = if s.lruListTail = index z then index x else s.listNext z) ∧
      s'.listNext x = -1 ∧ s'.listPrev = Function.update s.listPrev x s.lruListTail ∧
      s'.lruListHead = (if s.lruListHead = -1 then index x else s.lruListHead) ∧
      s'.lruListTail = index x ∧ s'.emptyNodesHead = s.emptyNodesHead := by
  obtain ⟨next, hrun, hnext, hxnext⟩ : ∃ next, insertAtEnd s x = some { s with
        listPrev := Function.update s.listPrev x s.lruListTail
        listNext := next
        lruListHead := if s.lruListHead = -1 then index x else s.lruListHead
        lruListTail := index x } ∧
      (∀ z, z ≠ x → next z = if s.lruListTail = index z then index x else s.listNext z) ∧
      next x = -1 := by
    rcases htail with hend | ⟨y, hyx, hy⟩
    · refine ⟨Function.update s.listNext x (-1), ?_, fun z hz => ?_, Function.update_self ..⟩
      · rw [insertAtEnd, if_neg (by simpa [State.setListPrev, State.setListNext] using hend)]
        by_cases hhead : s.lruListHead = -1
        · simp [State.setListPrev, State.setListNext, hhead]
        · simp [State.setListPrev, State.setListNext, hhead]
      · rw [Function.update_of_ne hz, hend, if_neg (end_ne_index z)]
    · refine ⟨Function.update (Function.update s.listNext x (-1)) y (index x), ?_, fun z hz => ?_, ?_⟩
      · have hne : s.lruListTail ≠ -1 := by
          rw [hy]
          exact index_ne_end y
        rw [insertAtEnd]
        by_cases hhead : s.lruListHead = -1
        · simp [State.setListPrev, State.setListNext, hhead, hy, index_ne_end]
        · simp [State.setListPrev, State.setListNext, hhead, hy, index_ne_end]
      · rw [update_index, hy, Function.update_of_ne hz]
      · rw [Function.update_of_ne hyx.symm, Function.update_self]
  exact ⟨_, hrun, ⟨rfl, rfl, rfl, rfl, rfl, rfl⟩, hnext, hxnext, rfl, rfl, rfl, rfl⟩

/-- The new element `x` becomes the last one of the LRU list. -/
theorem insertAtEnd_spec (h : Doubly s.listNext s.listPrev index (-1) s.lruListHead (-1) lru)
    (htail : s.lruListTail = lastAddr index (-1) lru)
    (hempty : Chain s.listNext index s.emptyNodesHead free (-1))
    (hslots : (lru ++ x :: free).Perm (List.finRange N)) :
    ∃ s', insertAtEnd s x = some s' ∧ ListLinks s' (lru ++ [x]) free ∧ ListsOnly s s' := by
  have hdup : (lru ++ x :: free).Nodup := hslots.nodup_iff.2 (List.nodup_finRange N)
  have hxlru : x ∉ lru := fun hx => (List.nodup_append.1 hdup).2.2 x hx x (by simp) rfl
  have hxfree : x ∉ free := (List.nodup_cons.1 (List.nodup_append.1 hdup).2.1).1
  have hdisj : ∀ z ∈ lru, z ∉ free := fun z hz hf =>
    (List.nodup_append.1 hdup).2.2 z hz z (by simp [hf]) rfl
  have hslots' : (lru ++ [x] ++ free).Perm (List.finRange N) := by
    rwa [List.append_assoc, List.singleton_append]
  have htail' : s.lruListTail = -1 ∨ ∃ y, y ≠ x ∧ s.lruListTail = index y := by
    rw [htail]
    refine lastAddr_mem.imp And.left (fun ⟨y, hy, hlast⟩ => ⟨y, fun heq => hxlru (heq ▸ hy), hlast⟩)
  obtain ⟨s', hrun, hsame, hnext, hxnext, hprev, hhead, htail', hempty'⟩ := insertAtEnd_eq htail'
  have hother : ∀ z ∈ lru, z ≠ x := fun z hz heq => hxlru (heq ▸ hz)
  refine ⟨s', hrun, ⟨?_, htail'.trans lastAddr_concat.symm, ?_, hslots'⟩, hsame⟩
  · refine h.append index_injective end_ne_index (fun z _ => end_ne_index z) (fun z hz => ?_)
      (fun z hz => ?_) hxnext ?_ hhead
    · rw [hnext z (hother z hz), htail]
    · rw [hprev, Function.update_of_ne (hother z hz)]
    · rw [hprev, Function.update_self, htail]
  · rw [hempty']
    refine hempty.congr (fun z hz => ?_)
    rw [hnext z (fun heq => hxfree (heq ▸ hz)), htail, if_neg]
    exact lastAddr_ne (fun hmem => hdisj z hmem hz)

/-- The new element `x` becomes the first one of bucket `b`. -/
theorem insertInBucket_spec (h : BucketLinks cfg s bucket) (hb : b < cfg.bucketCount)
    (hx : ∀ c, x ∉ bucket c) (hdisj : ∀ b c z, z ∈ bucket b → z ∈ bucket c → b = c) :
    ∃ s', insertInBucket s x b = some s' ∧
      BucketLinks cfg s' (Function.update bucket b (x :: bucket b)) ∧ BucketsOnly s s' := by
  have hlinks := h b hb
  -- the back links after the write to the element that was first
  obtain ⟨prev, hrun, hprev⟩ : ∃ prev, insertInBucket s x b = some { s with
        bucketNext := Function.update s.bucketNext x (s.bucket b)
        bucketPrev := Function.update prev x (-b - 1)
        bucket := Function.update s.bucket b (index x) } ∧
      ∀ z, z ≠ x → prev z = if s.bucket b = index z then index x else s.bucketPrev z := by
    rcases hlinks.forward.start_mem with hend | ⟨y, -, hy⟩
    · refine ⟨s.bucketPrev, ?_, fun z _ => ?_⟩
      · simp [insertInBucket, State.setBucketNext, State.setBucketPrev, State.setBucket, hend]
      · rw [hend, if_neg (end_ne_index z)]
    · refine ⟨Function.update s.bucketPrev y (index x), ?_, fun z _ => ?_⟩
      · simp [insertInBucket, State.setBucketNext, State.setBucketPrev, State.setBucket, hy,
          index_ne_end]
      · rw [hy]
        exact update_index
  have hother : ∀ c, ∀ z ∈ bucket c, z ≠ x := fun c z hz heq => hx c (heq ▸ hz)
  refine ⟨_, hrun, fun c hc => ?_, ⟨rfl, rfl, rfl, rfl, rfl, rfl, rfl, rfl⟩⟩
  by_cases hcb : c = b
  · subst hcb
    rw [Function.update_self]
    show Doubly (Function.update s.bucketNext x (s.bucket c)) (Function.update prev x (-c - 1)) index
      (-c - 1) (Function.update s.bucket c (index x) c) (-1) (x :: bucket c)
    rw [Function.update_self]
    refine hlinks.prepend index_injective end_ne_index (fun z _ => front_ne_index c z) (fun z hz => ?_)
      (Function.update_self ..) (fun z hz => ?_) (Function.update_self ..)
    · exact Function.update_of_ne (hother c z hz) _ _
    · rw [Function.update_of_ne (hother c z hz), hprev z (hother c z hz)]
  · rw [Function.update_of_ne hcb]
    show Doubly (Function.update s.bucketNext x (s.bucket b)) (Function.update prev x (-b - 1)) index
      (-c - 1) (Function.update s.bucket b (index x) c) (-1) (bucket c)
    rw [Function.update_of_ne hcb]
    refine (h c hc).congr (fun z hz => Function.update_of_ne (hother c z hz) _ _) (fun z hz => ?_)
    rw [Function.update_of_ne (hother c z hz), hprev z (hother c z hz), if_neg]
    intro heq
    rcases hlinks.forward.start_mem with hend | ⟨y, hy, hyz⟩
    · exact end_ne_index z (hend.symm.trans heq)
    · rw [index_injective (heq.symm.trans hyz)] at hz
      exact hcb (hdisj c b y hz hy)

/-- The lists after the first free element `x` was added, in bucket `b`. -/
def Lists.add (a : Lists N) (x : Fin N) (b : ℕ) : Lists N :=
  { lru := a.lru ++ [x]
    free := a.free.tail
    bucket := Function.update a.bucket b (x :: a.bucket b) }

/-- **Adding an element** moves the first free one to the end of the LRU list. -/
theorem addElement_spec (h : Links cfg s a) (hfree : a.free = x :: free) (k : K) (v : V) :
    ∃ s', addElement cfg s k v = some (s', assert cfg.toArguments true ++ assert cfg.toArguments true) ∧
      Links cfg s' (a.add x (cfg.whichBucket k)) ∧ s'.key = Function.update s.key x k ∧
      s'.value = Function.update s.value x v ∧
      s'.currentElementCount = s.currentElementCount + 1 := by
  have hlists := h.lists
  rw [hfree] at hlists
  obtain ⟨hhead, hempty⟩ := hlists.empty
  have hxlru : x ∉ a.lru := fun hx => hlists.disjoint hx (by simp)
  have hxbucket : ∀ c, x ∉ a.bucket c := fun c hx => hxlru ((h.mem_bucket c x).1 hx).1
  -- the element taken from the empty list and filled
  generalize hs₁ : State.setValue (State.setKey { s with
    currentElementCount := s.currentElementCount + 1
    emptyNodesHead := s.listNext x } x k) x v = s₁
  obtain ⟨s₂, hrun₂, hlists₂, hsame₂⟩ : ∃ s₂, insertAtEnd s₁ x = some s₂ ∧
      ListLinks s₂ (a.lru ++ [x]) free ∧ ListsOnly s₁ s₂ := by
    subst hs₁
    exact insertAtEnd_spec hlists.order hlists.tail hempty hlists.slots
  have hbuckets₁ : BucketLinks cfg s₁ a.bucket := by
    subst hs₁
    exact h.buckets
  obtain ⟨s₃, hrun₃, hbuckets₃, hsame₃⟩ := insertInBucket_spec (hsame₂.bucketLinks hbuckets₁)
    (cfg.whichBucket_lt k) hxbucket h.disjoint_buckets
  have hkey : s₃.key = Function.update s.key x k := by
    rw [hsame₃.key, hsame₂.key, ← hs₁]
    rfl
  refine ⟨s₃, ?_, ⟨?_, hbuckets₃, fun b n => ?_⟩, hkey, ?_, ?_⟩
  · have hne : decide (s.emptyNodesHead ≠ -1) = true := by
      rw [hhead]
      simpa using index_ne_end x
    have hlt := decide_eq_true (cfg.whichBucket_range k)
    rw [addElement]
    simp only [hne]
    rw [hhead, slot_index]
    simp only [Option.bind_eq_bind, Option.bind_some, hs₁, hrun₂, Config.whichBucket_eq,
      Config.bucketSlot_whichBucket, hrun₃, hlt]
  · show ListLinks s₃ (a.lru ++ [x]) a.free.tail
    rw [hfree]
    exact hsame₃.listLinks hlists₂
  · show n ∈ Function.update a.bucket _ _ b ↔ n ∈ a.lru ++ [x] ∧ _
    rw [hkey, List.mem_append, List.mem_singleton]
    by_cases hn : n = x
    · -- the new element is in the bucket of its own key alone
      subst hn
      rw [Function.update_self]
      by_cases hb : b = cfg.whichBucket k
      · simp [hb]
      · rw [Function.update_of_ne hb]
        simp [hxbucket b, Ne.symm hb]
    · rw [Function.update_of_ne hn]
      by_cases hb : b = cfg.whichBucket k
      · subst hb
        rw [Function.update_self, List.mem_cons, h.mem_bucket]
        simp [hn]
      · rw [Function.update_of_ne hb, h.mem_bucket]
        simp [hn]
  · rw [hsame₃.value, hsame₂.value, ← hs₁]
    rfl
  · rw [hsame₃.count, hsame₂.count, ← hs₁]
    rfl

/-! ## `find` -/

theorem unlinkCurrent_spec {l₁ l₂ : List (Fin N)}
    (h : Doubly s.listNext s.listPrev index (-1) s.lruListHead (-1) (l₁ ++ x :: y :: l₂)) :
    ∃ s', unlinkCurrent s x = some s' ∧ ListsOnly s s' ∧
      Doubly s'.listNext s'.listPrev index (-1) s'.lruListHead (-1) (l₁ ++ y :: l₂) ∧
      (∀ z, z ∉ l₁ ++ x :: y :: l₂ → s'.listNext z = s.listNext z) ∧
      s'.lruListTail = s.lruListTail ∧ s'.emptyNodesHead = s.emptyNodesHead := by
  have hx : x ∈ l₁ ++ x :: y :: l₂ := by simp
  have hnext : s.listNext x = index y := (Chain.split h.forward).2.1
  obtain ⟨next, head, hrun, hnext', hhead⟩ : ∃ next head, unlinkCurrent s x = some { s with
        listNext := next
        listPrev := Function.update s.listPrev y (s.listPrev x)
        lruListHead := head } ∧
      (∀ z, next z = if s.listPrev x = index z then s.listNext x else s.listNext z) ∧
      head = if s.listPrev x = -1 then s.listNext x else s.lruListHead := by
    -- the head of the list has no predecessor whose link would change
    rcases h.backward.prev_mem hx with hfirst | ⟨w, -, hw⟩
    · refine ⟨s.listNext, index y, ?_, fun z => ?_, ?_⟩
      · simp [unlinkCurrent, State.setListPrev, hfirst, hnext]
      · rw [hfirst, if_neg (end_ne_index z)]
      · rw [if_pos hfirst, hnext]
    · refine ⟨Function.update s.listNext w (index y), s.lruListHead, ?_, fun z => ?_, ?_⟩
      · have hnext' : Function.update s.listNext w (index y) x = index y := by
          rw [update_index, hnext, ite_self]
        simp [unlinkCurrent, State.setListPrev, State.setListNext, hw, hnext, index_ne_end, hnext']
      · rw [hw, hnext]
        exact update_index
      · rw [hw, if_neg (index_ne_end w)]
  refine ⟨_, hrun, ⟨rfl, rfl, rfl, rfl, rfl, rfl⟩, ?_, fun z hz => ?_, rfl, rfl⟩
  · refine h.remove index_injective end_ne_index (fun z _ => end_ne_index z) rfl (fun z _ => hnext' z)
      (fun z _ => ?_) hhead
    rw [hnext]
    exact update_index
  · show next z = _
    rw [hnext', if_neg]
    intro heq
    rcases h.backward.prev_mem hx with hfirst | ⟨w, hw, hwx⟩
    · exact end_ne_index z (hfirst.symm.trans heq)
    · exact hz (index_injective (heq.symm.trans hwx) ▸ hw)

theorem appendCurrent_spec (h : Doubly s.listNext s.listPrev index (-1) s.lruListHead (-1) lru)
    (htail : s.lruListTail = lastAddr index (-1) lru) (hne : lru ≠ []) (hx : x ∉ lru) :
    ∃ s', appendCurrent s x = some s' ∧ ListsOnly s s' ∧
      Doubly s'.listNext s'.listPrev index (-1) s'.lruListHead (-1) (lru ++ [x]) ∧
      (∀ z, z ∉ lru ++ [x] → s'.listNext z = s.listNext z) ∧
      s'.lruListTail = index x ∧ s'.emptyNodesHead = s.emptyNodesHead := by
  obtain ⟨y, hy, hlast⟩ : ∃ y ∈ lru, s.lruListTail = index y := by
    rw [htail]
    exact lastAddr_mem.resolve_left (fun hh => hne hh.2)
  have hother : ∀ z ∈ lru, z ≠ x := fun z hz heq => hx (heq ▸ hz)
  have hhead : s.lruListHead ≠ -1 := by
    cases lru with
    | nil => exact absurd rfl hne
    | cons z l =>
        rw [h.forward.1]
        exact index_ne_end z
  refine ⟨{ s with
      listNext := Function.update (Function.update s.listNext x (-1)) y (index x)
      listPrev := Function.update s.listPrev x s.lruListTail
      lruListTail := index x }, ?_, ⟨rfl, rfl, rfl, rfl, rfl, rfl⟩, ?_, fun z hz => ?_, rfl, rfl⟩
  · simp [appendCurrent, State.setListPrev, State.setListNext, hlast]
  · refine h.append index_injective end_ne_index (fun z _ => end_ne_index z) (fun z hz => ?_)
      (fun z hz => Function.update_of_ne (hother z hz) _ _) ?_ ?_ (if_neg hhead).symm
    · rw [← htail, hlast]
      show Function.update _ _ _ z = _
      rw [update_index, Function.update_of_ne (hother z hz)]
    · show Function.update _ _ _ x = _
      rw [Function.update_of_ne (hother y hy).symm, Function.update_self]
    · rw [← htail]
      exact Function.update_self ..
  · rw [List.mem_append, List.mem_singleton, not_or] at hz
    show Function.update _ _ _ z = _
    rw [Function.update_of_ne (fun heq => hz.1 (by rwa [heq])), Function.update_of_ne hz.2]

/-- An element that is not the last one of the LRU list is moved to its end. -/
theorem updateLruList_spec (h : ListLinks s lru free) (hx : x ∈ lru) (hlast : index x ≠ s.lruListTail) :
    ∃ s', updateLruList s x = some s' ∧ ListLinks s' (lru.erase x ++ [x]) free ∧ ListsOnly s s' := by
  obtain ⟨l₁, l₂, rfl, hl₁⟩ := List.eq_append_cons_of_mem hx
  have hdup := h.lru_nodup
  have herase : (l₁ ++ x :: l₂).erase x = l₁ ++ l₂ := by
    rw [List.erase_append_right _ hl₁, List.erase_cons_head]
  rw [herase]
  cases l₂ with
  | nil =>
      -- `x` would be the last element
      rw [h.tail, lastAddr_append] at hlast
      exact absurd rfl hlast
  | cons y l₂ =>
      obtain ⟨s₁, hrun₁, hsame₁, horder₁, hnext₁, htail₁, hempty₁⟩ := unlinkCurrent_spec h.order
      have hxnot : x ∉ l₁ ++ y :: l₂ := (List.nodup_cons.1 (List.nodup_middle.1 hdup)).1
      have hlast' : s₁.lruListTail = lastAddr index (-1) (l₁ ++ y :: l₂) := by
        rw [htail₁, h.tail, lastAddr_append, lastAddr_append]
        rfl
      obtain ⟨s₂, hrun₂, hsame₂, horder₂, hnext₂, htail₂, hempty₂⟩ :=
        appendCurrent_spec horder₁ hlast' (by simp) hxnot
      have hmem : ∀ z, z ∈ l₁ ++ y :: l₂ ++ [x] ↔ z ∈ l₁ ++ x :: y :: l₂ := fun z => by
        simp only [List.mem_append, List.mem_cons, List.not_mem_nil, or_false]
        tauto
      refine ⟨s₂, ?_, ⟨horder₂, htail₂.trans lastAddr_concat.symm, ?_, ?_⟩, ?_⟩
      · rw [updateLruList, hrun₁]
        exact hrun₂
      · rw [hempty₂, hempty₁]
        refine h.empty.congr (fun z hz => ?_)
        have hout : z ∉ l₁ ++ x :: y :: l₂ := fun hmem => h.disjoint hmem hz
        rw [hnext₂ z ((hmem z).not.2 hout), hnext₁ z hout]
      · refine List.Perm.trans (List.Perm.append_right free ?_) h.slots
        exact (List.perm_append_singleton x _).trans List.perm_middle.symm
      · exact ⟨hsame₂.bucketPrev.trans hsame₁.bucketPrev, hsame₂.bucketNext.trans hsame₁.bucketNext,
          hsame₂.bucket.trans hsame₁.bucket, hsame₂.key.trans hsame₁.key,
          hsame₂.value.trans hsame₁.value, hsame₂.count.trans hsame₁.count⟩

theorem searchBucket_spec [DecidableEq K] {k : K} {fuel : ℕ} {current : ℤ} {l : List (Fin N)}
    (h : Chain s.bucketNext index current l (-1)) (hfuel : l.length < fuel) :
    searchBucket s k fuel current = some (l.find? (fun n => s.key n = k)) := by
  induction fuel generalizing current l with
  | zero => exact absurd hfuel (by omega)
  | succ fuel ih =>
      cases l with
      | nil =>
          rw [searchBucket, if_pos (chain_nil.1 h)]
          rfl
      | cons n l =>
          obtain ⟨rfl, hrest⟩ := h
          rw [searchBucket, if_neg (index_ne_end n), slot_index]
          by_cases hn : s.key n = k
          · simp [hn]
          · simp [hn, ih hrest (by simpa using hfuel)]

/-- The lists after the element `x` was found. -/
def Lists.touch (a : Lists N) (x : Fin N) : Lists N := { a with lru := a.lru.erase x ++ [x] }

theorem coherentAt_perm {lru' : List (Fin N)} (h : lru'.Perm lru) (count : ℕ) :
    coherentAt lru' count = coherentAt lru count := by
  refine Bool.eq_iff_iff.2 ?_
  rw [coherentAt_iff, coherentAt_iff]
  exact forall_congr' fun _ => imp_congr_left h.mem_iff

theorem mem_checked {ok : Bool} {e : Event K V} (he : e ∈ checked cfg ok) : e = .coherent ok := by
  unfold checked at he
  split_ifs at he
  · exact List.mem_singleton.1 he
  · cases he

theorem mem_assert {ok : Bool} {e : Event K V} (he : e ∈ assert cfg.toArguments ok) :
    e = .assertion ok := by
  unfold assert at he
  split_ifs at he
  · exact List.mem_singleton.1 he
  · cases he

theorem erase_last (hdup : lru.Nodup) (h : index x = lastAddr index (-1) lru) :
    lru.erase x ++ [x] = lru := by
  rcases List.eq_nil_or_concat lru with rfl | ⟨l, y, rfl⟩
  · exact absurd h (index_ne_end x)
  · rw [List.concat_eq_append] at h hdup ⊢
    rw [lastAddr_concat] at h
    obtain rfl := index_injective h
    have hx : x ∉ l := fun hx => (List.nodup_append.1 hdup).2.2 x hx x (by simp) rfl
    rw [List.erase_append_right _ hx, List.erase_cons_head, List.append_nil]

/-- **A miss** changes nothing. -/
theorem find_miss [DecidableEq K] {fuel : ℕ} {k : K} (h : Links cfg s a) (hfuel : N < fuel)
    (hk : (a.bucket (cfg.whichBucket k)).find? (fun n => s.key n = k) = none) :
    find cfg fuel s k = some (none, s,
      assert cfg.toArguments true ++ checked cfg (coherentAt a.lru s.currentElementCount)) := by
  have hb := cfg.whichBucket_lt k
  have hsearch := searchBucket_spec (k := k) (h.buckets _ hb).forward
    ((h.bucket_length hb).trans_lt hfuel)
  have hlt := decide_eq_true (cfg.whichBucket_range k)
  rw [find, assertCoherent_spec h]
  simp only [Config.whichBucket_eq, Config.bucketSlot_whichBucket, Option.bind_eq_bind,
    Option.bind_some, hsearch, hk, hlt]

/-- **A hit** moves the first element of the bucket with the key to the end of the LRU list. -/
theorem find_hit [DecidableEq K] {fuel : ℕ} {k : K} (h : Links cfg s a) (hfuel : N < fuel)
    (hk : (a.bucket (cfg.whichBucket k)).find? (fun n => s.key n = k) = some x) :
    ∃ s' events, find cfg fuel s k = some (some (s.value x), s', events) ∧
      Links cfg s' (a.touch x) ∧ s'.key = s.key ∧ s'.value = s.value ∧
      s'.currentElementCount = s.currentElementCount ∧
      ∀ e ∈ events, e = .assertion true ∨ e = .coherent (coherentAt a.lru s.currentElementCount) := by
  have hb := cfg.whichBucket_lt k
  have hsearch := searchBucket_spec (k := k) (h.buckets _ hb).forward
    ((h.bucket_length hb).trans_lt hfuel)
  have hx : x ∈ a.lru := ((h.mem_bucket _ x).1 (List.mem_of_find?_eq_some hk)).1
  have hlt := decide_eq_true (cfg.whichBucket_range k)
  by_cases hlast : index x = s.lruListTail
  · refine ⟨s, assert cfg.toArguments true ++ checked cfg (coherentAt a.lru s.currentElementCount),
      ?_, ?_, rfl, rfl, rfl, fun e he => ?_⟩
    · rw [find, assertCoherent_spec h]
      simp only [Config.whichBucket_eq, Config.bucketSlot_whichBucket, Option.bind_eq_bind,
        Option.bind_some, hsearch, hk, hlt, hlast, ne_eq, not_true_eq_false, if_false]
    · -- the last element stays where it is
      rw [h.lists.tail] at hlast
      have htouch : a.touch x = a := by
        rw [Lists.touch, erase_last h.lists.lru_nodup hlast]
      rwa [htouch]
    · exact (List.mem_append.1 he).imp mem_assert mem_checked
  · obtain ⟨s', hrun, hlists, hsame⟩ := updateLruList_spec h.lists hx hlast
    have hperm : (a.touch x).lru.Perm a.lru :=
      (List.perm_append_singleton x _).trans (List.perm_cons_erase hx).symm
    have hlinks : Links cfg s' (a.touch x) := by
      refine ⟨hlists, hsame.bucketLinks h.buckets, fun b n => ?_⟩
      rw [hsame.key, hperm.mem_iff]
      exact h.mem_bucket b n
    have hafter := assertCoherent_spec hlinks
    rw [coherentAt_perm hperm, hsame.count] at hafter
    refine ⟨s', assert cfg.toArguments true ++ checked cfg (coherentAt a.lru s.currentElementCount) ++
      checked cfg (coherentAt a.lru s.currentElementCount), ?_, hlinks, hsame.key, hsame.value,
      hsame.count, fun e he => ?_⟩
    · rw [find, assertCoherent_spec h]
      simp only [Config.whichBucket_eq, Config.bucketSlot_whichBucket, Option.bind_eq_bind,
        Option.bind_some, hsearch, hk, hlt, ne_eq, hlast, not_false_eq_true, if_true, hrun, hafter,
        hsame.value]
    · rcases List.mem_append.1 he with he | he
      · exact (List.mem_append.1 he).imp mem_assert mem_checked
      · exact Or.inr (mem_checked he)

/-! ## Between two calls -/

/-- The state between two calls: the count counts, and until all are used the free elements are taken
    in the order of `storage_`. -/
structure Rep (cfg : Config N K) (s : State N K V) (a : Lists N) : Prop extends Links cfg s a where
  count : s.currentElementCount = a.lru.length
  filling : a.free = (List.finRange N).drop a.lru.length

namespace Rep

theorem length_le (h : Rep cfg s a) : a.lru.length ≤ N := by
  have := h.lists.length
  omega

/-- Between two calls `coherent` holds. -/
theorem coherent (h : Rep cfg s a) : coherentAt a.lru s.currentElementCount = true := by
  refine coherentAt_iff.2 fun n hn hlen => ?_
  rw [h.count] at hlen
  refine h.lists.disjoint hn ?_
  rw [h.filling, List.mem_iff_getElem]
  have hN : a.lru.length < N := hlen ▸ n.isLt
  refine ⟨0, by rw [List.length_drop, List.length_finRange]; omega, ?_⟩
  rw [List.getElem_drop, List.getElem_finRange]
  exact Fin.ext (by simp [hlen])

/-- Adding the first free element to the lists of a rest state, or to those after an eviction. -/
theorem of_add {k : K} {a₁ : Lists N}
    (hlinks : Links cfg s' (a₁.add x (cfg.whichBucket k)))
    (hcount : s'.currentElementCount = a₁.lru.length + 1)
    (hfree : a₁.free.tail = (List.finRange N).drop (a₁.lru.length + 1)) :
    Rep cfg s' (a₁.add x (cfg.whichBucket k)) := by
  have hlen : (a₁.add x (cfg.whichBucket k)).lru.length = a₁.lru.length + 1 := by
    simp [Lists.add]
  exact ⟨hlinks, hcount.trans hlen.symm, by rw [hlen]; exact hfree⟩

end Rep

theorem evictWhileFull_room {fuel : ℕ} (hroom : s.currentElementCount < N) (hfuel : 0 < fuel) :
    evictWhileFull cfg fuel s = some (s, []) := by
  obtain ⟨fuel, rfl⟩ : ∃ f, fuel = f + 1 := ⟨fuel - 1, by omega⟩
  rw [evictWhileFull, if_neg (by omega)]

/-- **`insert` with room left** takes the first free element. -/
theorem insert_room {fuel : ℕ} (h : Rep cfg s a) (hroom : a.lru.length < N) (hfuel : 0 < fuel) (k : K)
    (v : V) : ∃ x s', x ∉ a.lru ∧ insert cfg fuel s k v = some (s',
        checked cfg true ++ [] ++ (assert cfg.toArguments true ++ assert cfg.toArguments true) ++
          checked cfg true) ∧
      Rep cfg s' (a.add x (cfg.whichBucket k)) ∧ s'.key = Function.update s.key x k ∧
      s'.value = Function.update s.value x v := by
  have hlen := h.lists.length
  obtain ⟨x, free, hfree⟩ : ∃ x free, a.free = x :: free :=
    List.exists_cons_of_ne_nil (fun hnil => by rw [hnil, List.length_nil] at hlen; omega)
  have hx : x ∉ a.lru := fun hx => h.lists.disjoint hx (by simp [hfree])
  obtain ⟨s', hadd, hlinks, hkey, hvalue, hcount⟩ := addElement_spec h.toLinks hfree k v
  have hrep : Rep cfg s' (a.add x (cfg.whichBucket k)) := by
    refine Rep.of_add hlinks (by rw [hcount, h.count]) ?_
    rw [h.filling, List.tail_drop]
  refine ⟨x, s', hx, ?_, hrep, hkey, hvalue⟩
  have hbefore := assertCoherent_spec h.toLinks
  have hafter := assertCoherent_spec hrep.toLinks
  rw [h.coherent] at hbefore
  rw [hrep.coherent] at hafter
  rw [insert, hbefore]
  have hevict : evictWhileFull cfg fuel s = some (s, []) :=
    evictWhileFull_room (by rw [h.count]; exact hroom) hfuel
  simp only [Option.bind_eq_bind, Option.bind_some, hevict, hadd, hafter]

/-- **`insert` into a full cache** evicts the first element of the LRU list and uses its slot. -/
theorem insert_full {fuel : ℕ} {lru : List (Fin N)} (h : Rep cfg s a) (hlru : a.lru = x :: lru)
    (hfull : a.lru.length = N) (hfuel : 1 < fuel) (k : K) (v : V) :
    ∃ s', insert cfg fuel s k v = some (s', checked cfg true ++ (checked cfg true ++
        assert cfg.toArguments true ++ assert cfg.toArguments true ++ .onDelete (s.key x) (s.value x) ::
          checked cfg (coherentAt lru (N - 1)) ++ []) ++
        (assert cfg.toArguments true ++ assert cfg.toArguments true) ++ checked cfg true) ∧
      Rep cfg s' ((a.evict x).add x (cfg.whichBucket k)) ∧ s'.key = Function.update s.key x k ∧
      s'.value = Function.update s.value x v := by
  have hN := cfg.two_le
  obtain ⟨y, l, rfl⟩ : ∃ y l, lru = y :: l := List.exists_cons_of_ne_nil (fun hnil => by
    rw [hlru, hnil] at hfull
    simp at hfull
    omega)
  have hcount : s.currentElementCount = N := h.count.trans hfull
  obtain ⟨s₁, hevict, hlinks₁, hkey₁, hvalue₁, hcount₁⟩ := evict_spec h.toLinks hlru (by omega)
  obtain ⟨s₂, hadd, hlinks₂, hkey₂, hvalue₂, hcount₂⟩ :=
    addElement_spec hlinks₁ (show (a.evict x).free = x :: a.free from rfl) k v
  rw [hkey₁] at hkey₂
  rw [hvalue₁] at hvalue₂
  have hlen₁ : (a.evict x).lru.length + 1 = N := by
    rw [hlru] at hfull
    simpa [Lists.evict, hlru] using hfull
  have hrep : Rep cfg s₂ ((a.evict x).add x (cfg.whichBucket k)) := by
    refine Rep.of_add hlinks₂ (by omega) ?_
    show a.free = _
    rw [h.filling, hfull, hlen₁]
  refine ⟨s₂, ?_, hrep, hkey₂, hvalue₂⟩
  have hbefore := assertCoherent_spec h.toLinks
  have hafter := assertCoherent_spec hrep.toLinks
  rw [h.coherent] at hbefore hevict
  rw [hrep.coherent] at hafter
  obtain ⟨fuel, rfl⟩ : ∃ f, fuel = f + 1 := ⟨fuel - 1, by omega⟩
  have hloop : evictWhileFull cfg (fuel + 1) s = some (s₁, checked cfg true ++
      assert cfg.toArguments true ++ assert cfg.toArguments true ++ .onDelete (s.key x) (s.value x) ::
        checked cfg (coherentAt (y :: l) (N - 1)) ++ []) := by
    have hrest : evictWhileFull cfg fuel s₁ = some (s₁, []) :=
      evictWhileFull_room (by omega) (by omega)
    rw [evictWhileFull, if_pos (by omega), hevict, hcount, hlru, List.tail_cons]
    simp only [Option.bind_eq_bind, Option.bind_some, hrest]
  rw [insert, hbefore]
  simp only [Option.bind_eq_bind, Option.bind_some, hloop, hadd, hafter]

/-- After an eviction from a full cache `coherent` holds exactly if the victim had the last slot. -/
theorem coherentAt_evicted {lru : List (Fin N)} (h : Rep cfg s a) (hlru : a.lru = x :: lru)
    (hfull : a.lru.length = N) : coherentAt lru (N - 1) = true ↔ x.val = N - 1 := by
  have hN := cfg.two_le
  have hdup := h.lists.lru_nodup
  rw [hlru] at hdup
  have hxnot := (List.nodup_cons.1 hdup).1
  rw [coherentAt_iff]
  constructor
  · intro hall
    -- the last slot is in the list, as all are
    have hfree : a.free = [] := by
      rw [h.filling, hfull]
      exact List.drop_eq_nil_of_le (by simp)
    have hlast : (⟨N - 1, by omega⟩ : Fin N) ∈ a.lru := by
      have hmem := (h.lists.slots.mem_iff).2 (List.mem_finRange (⟨N - 1, by omega⟩ : Fin N))
      rwa [hfree, List.append_nil] at hmem
    rw [hlru] at hlast
    rcases List.mem_cons.1 hlast with hx | hmem
    · rw [← hx]
    · exact absurd rfl (hall _ hmem)
  · intro hx n hn hnx
    exact hxnot ((Fin.ext (hx.trans hnx.symm)) ▸ hn)

end DeferredLru.LruCache
