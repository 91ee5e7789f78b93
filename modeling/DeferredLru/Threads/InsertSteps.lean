import DeferredLru.Threads.FindSteps

set_option autoImplicit false

/-! # The steps of `insert`

`insert` works on a node that it alone holds until the node is linked: it fills the node, guards it
against marking, puts it in its bucket and in the LRU list, repairs the back link of the old front
node and takes the guard away. Others may insert at the same time, so the head of the LRU list may
change under it; what the compare-exchange relies on is only that the new node's link leads to the
present first node. -/

namespace DeferredLru.Threads

open Intrusive

variable {N : ℕ} {K V T : Type} {cfg : Config N K} {s : State N K V T} {g : Ghost N T} {t t' : T}
  {n : Fin N}

/-! ## The node in hand -/

theorem Inv.held (h : Inv cfg s g) {x : Stage} (hv : (s.pc t).holds = some (n, x)) :
    g.status n = .held t x := h.status.held hv

/-- Another thread's node is another node. -/
theorem Inv.holds_ne (h : Inv cfg s g) {x y : Stage} {m : Fin N} (hne : t' ≠ t)
    (hs : g.status n = .held t x) (hv : (s.pc t').holds = some (m, y)) : m ≠ n := by
  rintro rfl
  rw [h.held hv] at hs
  exact hne (Own.held.inj hs).1

theorem Inv.not_lru (h : Inv cfg s g) (hn : ¬ (g.status n).inLru) {x : Fin N} (hx : x ∈ g.lru) :
    x ≠ n := by
  rintro rfl
  exact hn ((h.lru.mem x).1 hx)

theorem Ghost.resident_update (g : Ghost N T) (h : g.status n ≠ .rest .resident) {σ : Status T}
    (x : Fin N) (hx : g.status x = .rest .resident) :
    Function.update g.status n σ x = .rest .resident := by
  rw [Function.update_of_ne (by rintro rfl; exact h hx)]
  exact hx

theorem Inv.not_temp (h : Inv cfg s g) (hn : g.status n ≠ .rest .temp) {x : Fin N}
    (hx : x ∈ g.temp) : x ≠ n := by
  rintro rfl
  exact hn ((h.lru.temp x).1 hx)

theorem Inv.not_bucket (h : Inv cfg s g) (hn : ¬ (g.status n).inBucket) {b : ℕ} {x : Fin N}
    (hx : x ∈ g.bucket b) : x ≠ n := by
  rintro rfl
  exact hn (h.inBucket hx)

theorem Inv.not_slice (h : Inv cfg s g) (hn : g.role n ≠ .rest .slice) {x : Fin N}
    (hx : x ∈ g.slice) : x ≠ n := by
  rintro rfl
  exact hn ((h.recent.slice x).1 hx)

/-- A splice that awaits its repair ended in a listed node. -/
theorem Inv.not_repairing (h : Inv cfg s g) (hn : ¬ (g.status n).inLru) (t : T) (c : Ptr N) :
    (s.pc t).repairing ≠ some (c, .node n) := by
  intro hr
  obtain ⟨x, hx, heq⟩ := h.lru.repairing_mem hr
  exact h.not_lru hn hx (Ptr.node_injective heq).symm

/-- The guard is on the node that the guarding thread inserts. -/
theorem PC.guarded_holds {pc : PC N K V} (hm : pc.marks = some (n, .guarded)) :
    ∃ x, pc.holds = some (n, x) := by
  cases pc with
  | find producer k p =>
      cases p with
      | mark x r p =>
          cases p with
          | store q again => cases again <;> cases hm
          | _ => cases hm
      | _ => cases hm
  | insert consume k v p =>
      cases p with
      | bucket x p =>
          cases hm
          exact ⟨_, rfl⟩
      | add x p =>
          cases hm
          exact ⟨_, rfl⟩
      | reset x =>
          cases hm
          exact ⟨_, rfl⟩
      | _ => cases hm
  | consolidate back p =>
      cases p with
      | purge p =>
          cases p with
          | bucket x next freed p =>
              simp only [PC.marks, PurgePC.marks] at hm
              split_ifs at hm
              cases hm
          | _ => cases hm
      | _ => cases hm
  | _ => cases hm

/-- A node that is being filled has no mark. -/
theorem Inv.building_role (h : Inv cfg s g) (hs : g.status n = .held t .building)
    (hm : (s.pc t).marks = none) : g.role n = .rest .unmarked := by
  have hc := h.compatible n
  rw [hs] at hc
  cases hr : g.role n with
  | rest p =>
      rw [hr] at hc
      cases p with
      | unmarked => rfl
      | _ => exact hc.elim
  | held t' x =>
      rw [hr] at hc
      cases x with
      | guarded =>
          exfalso
          have hv := h.role.view_eq hr
          obtain ⟨y, hy⟩ := PC.guarded_holds hv
          rw [h.held hy] at hs
          obtain rfl := (Own.held.inj hs).1
          rw [hm] at hv
          cases hv
      | _ => exact hc.elim

/-- A free node has no mark. -/
theorem Inv.free_role (h : Inv cfg s g) (hs : g.status n = .rest .free) :
    g.role n = .rest .unmarked := by
  have hc := h.compatible n
  rw [hs] at hc
  cases hr : g.role n with
  | rest p =>
      rw [hr] at hc
      cases p with
      | unmarked => rfl
      | _ => exact absurd rfl hc
  | held t' x =>
      rw [hr] at hc
      cases x with
      | intending => exact absurd rfl hc
      | pushing => exact absurd rfl hc
      | _ => exact hc.elim

theorem allocateAt_inv (cfg : Config N K) (m : Mem N K V) (g : Ghost N T) (consume : Bool) (k : K)
    (v : V) (p : Ptr N) : (allocateAt consume k v p).inv cfg m g := by
  cases p <;> trivial

variable [DecidableEq T] {consume : Bool} {k : K} {v : V}

/-! ## Filling the node -/

/-- The pool hands out a free node. -/
theorem Inv.pop (h : Inv cfg s g) {p : AllocatePC N} {e : Ptr N}
    (hpc : s.pc t = .insert consume k v (.allocate p)) (hfree : g.status n = .rest .free) :
    Preserves cfg s t (.setEmptyHead e) (.insert consume k v (.key n)) (.pop n) g := by
  have hr := h.free_role hfree
  refine ⟨{ g with status := Function.update g.status n (.held t .building) }, ?_,
    Effect.single (n := n) (u := .held t .building) rfl rfl rfl ?_ ?_ ?_ ?_⟩
  · refine h.apply (by rw [hpc]; exact ⟨rfl, rfl⟩) (h.status.take (by rw [hpc]; rfl) hfree rfl)
      (h.role.keep (by rw [hpc]; rfl)) (h.compatible_status ?_) (h.buckets.restatus ?_) h.recent
      ((h.lru.restatus ?_ ?_ ?_).settled (by rw [hpc]; exact ⟨rfl, rfl, rfl, rfl⟩)) h.quiet trivial
      (fun t' _ => { Rely.refl cfg (s.pc t') s.mem g with
        inside := fun _ => { InsideRely.refl s.mem g with
          resident := g.resident_update (by rw [hfree]; simp) } })
    · rw [hr]
      trivial
    · rw [hfree]
      exact Iff.rfl
    · rw [hfree]
      exact Iff.rfl
    · rw [hfree]
      exact iff_of_false (by simp) (by simp)
    · intro t' c
      exact h.not_repairing (by rw [hfree]; exact id) t' c
  · rw [hfree]
    exact Iff.rfl
  · rw [hfree]
    exact Iff.rfl
  · simp [Deed.free]
  · rw [hfree]
    exact Iff.rfl

theorem Inv.storeKey (h : Inv cfg s g) (hpc : s.pc t = .insert consume k v (.key n)) :
    Preserves cfg s t (.setKey n k) (.insert consume k v (.value n)) .nothing g := by
  have hs : g.status n = .held t .building := h.held (by rw [hpc]; rfl)
  have hb : ¬ (g.status n).inBucket := by rw [hs]; exact id
  have hl : ¬ (g.status n).inLru := by rw [hs]; exact id
  refine ⟨g, ?_, .nothing rfl rfl⟩
  refine h.apply (by rw [hpc]; exact ⟨rfl, rfl⟩) (h.status.keep (by rw [hpc]; rfl))
    (h.role.keep (by rw [hpc]; rfl)) h.compatible (h.buckets.setKey hb k) h.recent
    (h.lru.settled (by rw [hpc]; exact ⟨rfl, rfl, rfl, rfl⟩)) h.quiet (Function.update_self ..)
    (fun t' hne => { Rely.refl cfg (s.pc t') s.mem g with
      bucket := fun b _ => ⟨rfl, rfl, fun x hx => ⟨rfl, ?_⟩⟩
      holds := fun x y hv => ⟨?_, rfl, fun _ => rfl, fun _ => rfl, fun _ => rfl⟩
      inside := fun _ => { InsideRely.refl s.mem g with key := fun x hx => ?_ } })
  · exact Function.update_of_ne (h.not_bucket hb hx) _ _
  · exact Function.update_of_ne (h.holds_ne hne hs hv) _ _
  · exact Function.update_of_ne (h.not_lru hl hx) _ _

theorem Inv.storeValue (h : Inv cfg s g) (hpc : s.pc t = .insert consume k v (.value n)) :
    Preserves cfg s t (.setValue n v) (.insert consume k v (.guard n)) .nothing g := by
  have hs : g.status n = .held t .building := h.held (by rw [hpc]; rfl)
  have hkey : s.mem.key n = k := by
    have := h.pcs t
    rwa [hpc] at this
  refine ⟨g, ?_, .nothing rfl rfl⟩
  refine h.apply (by rw [hpc]; exact ⟨rfl, rfl⟩) (h.status.keep (by rw [hpc]; rfl))
    (h.role.keep (by rw [hpc]; rfl)) h.compatible h.buckets h.recent
    (h.lru.settled (by rw [hpc]; exact ⟨rfl, rfl, rfl, rfl⟩)) h.quiet
    ⟨hkey, Function.update_self ..⟩
    (fun t' hne => { Rely.refl cfg (s.pc t') s.mem g with
      holds := fun x y hv => ⟨rfl, ?_, fun _ => rfl, fun _ => rfl, fun _ => rfl⟩
      inside := fun _ => { InsideRely.refl s.mem g with } })
  exact Function.update_of_ne (h.holds_ne hne hs hv) _ _

/-- The dummy link keeps others from marking the node. -/
theorem Inv.storeGuard (h : Inv cfg s g) (hpc : s.pc t = .insert consume k v (.guard n)) :
    Preserves cfg s t (.setRecent n .dummy) (.insert consume k v (.bucket n .hash)) .nothing g := by
  have hs : g.status n = .held t .building := h.held (by rw [hpc]; rfl)
  have hm : (s.pc t).marks = none := by rw [hpc]; rfl
  have hr := h.building_role hs hm
  have hinv := h.pcs t
  rw [hpc] at hinv
  refine ⟨{ g with role := Function.update g.role n (.held t .guarded) }, ?_, .nothing rfl rfl⟩
  refine h.apply (by rw [hpc]; exact ⟨rfl, rfl⟩) (h.status.keep (by rw [hpc]; rfl))
    (h.role.take hm hr rfl) (h.compatible_role ?_) h.buckets
    (h.recent.store ?_ ⟨by simp, by simp⟩ (iff_of_true (by simp) trivial))
    (h.lru.settled (by rw [hpc]; exact ⟨rfl, rfl, rfl, rfl⟩)) h.quiet ⟨hinv.1, hinv.2, trivial⟩
    (fun t' hne => { Rely.refl cfg (s.pc t') s.mem g with
      marks := fun x y hv => ?_
      inside := fun _ => { InsideRely.refl s.mem g with recent := fun x hx => ?_ } })
  · rw [hs]
    trivial
  · rw [hr]
    exact ⟨by simp, by simp⟩
  · have hxn : x ≠ n := by
      rintro rfl
      exact h.role.ne_of_rest hr t' y hv
    exact Function.update_of_ne hxn _ _
  · exact Function.update_of_ne (h.not_slice (by rw [hr]; simp) hx) _ _

/-! ## Into the bucket -/

theorem Inv.storeBucketNext (h : Inv cfg s g) {b : ℕ} {head : Option (Fin N)}
    (hpc : s.pc t = .insert consume k v (.bucket n (.storeNext b head))) :
    Preserves cfg s t (.setBucketNext n head) (.insert consume k v (.bucket n (.storeHead b)))
      .nothing g := by
  have hs : g.status n = .held t .building := h.held (by rw [hpc]; rfl)
  have hb : ¬ (g.status n).inBucket := by rw [hs]; exact id
  have hinv := h.pcs t
  rw [hpc] at hinv
  obtain ⟨hkey, hvalue, hbk, rfl⟩ := hinv
  refine ⟨g, ?_, .nothing rfl rfl⟩
  refine h.apply (by rw [hpc]; exact ⟨rfl, rfl⟩) (h.status.keep (by rw [hpc]; rfl))
    (h.role.keep (by rw [hpc]; rfl)) h.compatible (h.buckets.foreign hb _) h.recent
    (h.lru.settled (by rw [hpc]; exact ⟨rfl, rfl, rfl, rfl⟩)) h.quiet
    ⟨hkey, hvalue, hbk, Function.update_self ..⟩
    (fun t' hne => { Rely.refl cfg (s.pc t') s.mem g with
      bucket := fun b _ => ⟨rfl, rfl, fun x hx => ⟨?_, rfl⟩⟩
      holds := fun x y hv => ⟨rfl, rfl, fun _ => ?_, fun _ => rfl, fun _ => rfl⟩
      inside := fun _ => { InsideRely.refl s.mem g with } })
  · exact Function.update_of_ne (h.not_bucket hb hx) _ _
  · exact Function.update_of_ne (h.holds_ne hne hs hv) _ _

/-- The store to the bucket head publishes the node to the finders. -/
theorem Inv.storeBucketHead (h : Inv cfg s g) {b : ℕ}
    (hpc : s.pc t = .insert consume k v (.bucket n (.storeHead b))) :
    Preserves cfg s t (.setBucket b (some n)) (.insert consume k v (.bucket n (.unlock b)))
      (.bucket n) g := by
  have hv : (s.pc t).holds = some (n, .building) := by rw [hpc]; rfl
  have hs := h.held hv
  have hb : ¬ (g.status n).inBucket := by rw [hs]; exact id
  have hr : g.role n = .held t .guarded := h.role.held (by rw [hpc]; rfl)
  have hlock : (s.pc t).lockedBucket cfg = some b := by rw [hpc]; rfl
  have hinv := h.pcs t
  rw [hpc] at hinv
  obtain ⟨hkey, hvalue, hbk, hnext⟩ := hinv
  refine ⟨{ g with
    status := Function.update g.status n (.held t .bucketed)
    bucket := Function.update g.bucket b (n :: g.bucket b) }, ?_,
    Effect.single (n := n) (u := .held t .bucketed) rfl rfl rfl ?_ ?_ ?_ ?_⟩
  · refine h.apply (by rw [hpc]; exact ⟨rfl, rfl⟩) (h.status.pass hv rfl)
      (h.role.keep (by rw [hpc]; rfl)) (h.compatible_status ?_)
      (h.buckets.link hb trivial (by rw [hkey, hbk]) hnext) h.recent
      ((h.lru.restatus ?_ ?_ ?_).settled (by rw [hpc]; exact ⟨rfl, rfl, rfl, rfl⟩)) h.quiet
      ⟨hkey, hvalue, hbk⟩ (fun t' hne => { Rely.refl cfg (s.pc t') s.mem g with
        bucket := fun b' hb' => ?_
        inside := fun _ => { InsideRely.refl s.mem g with
          resident := g.resident_update (by rw [hs]; simp) } })
    · rw [hr]
      trivial
    · rw [hs]
      exact Iff.rfl
    · rw [hs]
      exact iff_of_false (by simp) (by simp)
    · intro t' c
      exact h.not_repairing (by rw [hs]; exact id) t' c
    · have hne' := h.locks.bucket_ne hne hlock hb'
      exact ⟨Function.update_of_ne hne' _ _, Function.update_of_ne hne' _ _,
        fun _ _ => ⟨rfl, rfl⟩⟩
  · rw [hs]
    exact Iff.rfl
  · rw [hs]
    exact Iff.rfl
  · rw [hs]
    exact iff_of_false (by simp) (by simp [Deed.free])
  · exact iff_of_true trivial (Or.inl rfl)

/-! ## Into the LRU list -/

theorem Inv.storePrev (h : Inv cfg s g) (hpc : s.pc t = .insert consume k v (.add n .storePrev)) :
    Preserves cfg s t (.setPrev (.node n) .lruHead) (.insert consume k v (.add n .load)) .nothing
      g := by
  have hs : g.status n = .held t .bucketed := h.held (by rw [hpc]; rfl)
  have hl : ¬ (g.status n).inLru := by rw [hs]; exact id
  have ht : g.status n ≠ .rest .temp := by rw [hs]; simp
  refine ⟨g, ?_, .nothing rfl rfl⟩
  refine h.apply (by rw [hpc]; exact ⟨rfl, rfl⟩) (h.status.keep (by rw [hpc]; rfl))
    (h.role.keep (by rw [hpc]; rfl)) h.compatible h.buckets h.recent
    ((h.lru.foreignPrev (by simp) (fun x hx => ?_) _).settled
      (by rw [hpc]; exact ⟨rfl, rfl, rfl, rfl⟩)) h.quiet (Function.update_self ..)
    (fun t' hne => { Rely.refl cfg (s.pc t') s.mem g with
      holds := fun x y hv => ⟨rfl, rfl, fun _ => rfl, fun _ => rfl, fun _ => ?_⟩
      inside := fun _ => { InsideRely.refl s.mem g with
        prev := fun x hx _ => ?_
        tempPrev := fun x hx => ?_ } })
  · simpa using (h.not_lru hl hx).symm
  · exact Function.update_of_ne (by simpa using h.holds_ne hne hs hv) _ _
  · exact Function.update_of_ne (by simpa using h.not_lru hl hx) _ _
  · exact Function.update_of_ne (by simpa using h.not_temp ht hx) _ _

theorem Inv.storeNext (h : Inv cfg s g) {c : Ptr N}
    (hpc : s.pc t = .insert consume k v (.add n (.storeNext c))) :
    Preserves cfg s t (.setNext (.node n) c) (.insert consume k v (.add n (.cas c))) .nothing g := by
  have hs : g.status n = .held t .bucketed := h.held (by rw [hpc]; rfl)
  have hl : ¬ (g.status n).inLru := by rw [hs]; exact id
  have ht : g.status n ≠ .rest .temp := by rw [hs]; simp
  have hprev : s.mem.lruPrev (.node n) = .lruHead := by
    have := h.pcs t
    rwa [hpc] at this
  refine ⟨g, ?_, .nothing rfl rfl⟩
  refine h.apply (by rw [hpc]; exact ⟨rfl, rfl⟩) (h.status.keep (by rw [hpc]; rfl))
    (h.role.keep (by rw [hpc]; rfl)) h.compatible h.buckets h.recent
    ((h.lru.foreignNext (by simp) (fun x hx => ?_) _).settled
      (by rw [hpc]; exact ⟨rfl, rfl, rfl, rfl⟩)) h.quiet ⟨hprev, Function.update_self ..⟩
    (fun t' hne => { Rely.refl cfg (s.pc t') s.mem g with
      holds := fun x y hv => ⟨rfl, rfl, fun _ => rfl, fun _ => ?_, fun _ => rfl⟩
      inside := fun _ => { InsideRely.refl s.mem g with
        next := fun x hx => ?_
        localHead := ?_ } })
  · simpa using (h.not_lru hl hx).symm
  · exact Function.update_of_ne (by simpa using h.holds_ne hne hs hv) _ _
  · refine Function.update_of_ne ?_ _ _
    rcases hx with hx | hx
    · simpa using h.not_lru hl hx
    · simpa using h.not_temp ht hx
  · exact Function.update_of_ne (show Ptr.localHead ≠ Ptr.node n by simp) c s.mem.lruNext

/-- The head compare-exchange: the present first node is the one that the new node leads to. -/
theorem Inv.linkHead (h : Inv cfg s g) {c : Ptr N}
    (hpc : s.pc t = .insert consume k v (.add n (.cas c))) (hc : s.mem.lruNext .lruHead = c) :
    Preserves cfg s t (.setNext .lruHead (.node n)) (.insert consume k v (.add n (.repair c)))
      (.link n) g := by
  have hv : (s.pc t).holds = some (n, .bucketed) := by rw [hpc]; rfl
  have hs := h.held hv
  have hl : ¬ (g.status n).inLru := by rw [hs]; exact id
  have hr : g.role n = .held t .guarded := h.role.held (by rw [hpc]; rfl)
  have hinv := h.pcs t
  rw [hpc] at hinv
  obtain ⟨hprev, hnext⟩ := hinv
  subst hc
  have hnode : ∀ p, p ≠ .lruHead →
      (s.mem.setNext .lruHead (.node n)).lruNext p = s.mem.lruNext p := fun p hp =>
    Function.update_of_ne hp _ _
  refine ⟨{ g with
    status := Function.update g.status n (.held t .linked)
    lru := n :: g.lru }, ?_,
    Effect.single (n := n) (u := .held t .linked) rfl rfl rfl ?_ ?_ ?_ ?_⟩
  · refine h.apply (by rw [hpc]; exact ⟨rfl, rfl⟩) (h.status.pass hv rfl)
      (h.role.keep (by rw [hpc]; rfl)) (h.compatible_status ?_) (h.buckets.restatus ?_) h.recent
      (h.lru.splice (l := []) (x := n) rfl (by simp) hprev hnext (fun y => ?_) (fun y => ?_)
        (fun y hy => Function.update_of_ne (h.not_lru hl hy) _ _) (by rw [hpc]; rfl)
        (by rw [hpc]; rfl) rfl rfl (Or.inl (Function.update_self ..))) h.quiet trivial
      (fun t' hne => { Rely.refl cfg (s.pc t') s.mem g with
        holds := fun x y hv' =>
          ⟨rfl, rfl, fun _ => rfl, fun _ => hnode (.node x) (by simp), fun _ => rfl⟩
        inside := fun _ => { InsideRely.refl s.mem g with
          lru := fun x hx => List.mem_cons_of_mem _ hx
          resident := g.resident_update (by rw [hs]; simp)
          next := fun x _ => hnode (.node x) (by simp)
          localHead := hnode .localHead (by simp) } })
    · rw [hr]
      trivial
    · rw [hs]
      exact Iff.rfl
    · by_cases hy : y = n
      · subst hy
        simp [Status.inLru]
      · simp [hy, h.lru.mem y]
    · by_cases hy : y = n
      · subst hy
        simp [h.lru.temp y, hs]
      · simp [hy, h.lru.temp y]
  · exact iff_of_true trivial (Or.inl rfl)
  · rw [hs]
    exact Iff.rfl
  · rw [hs]
    exact iff_of_false (by simp) (by simp [Deed.free])
  · rw [hs]
    exact Iff.rfl

/-- The old first node's `lru_prev` is repaired. -/
theorem Inv.repairBack (h : Inv cfg s g) {c : Ptr N}
    (hpc : s.pc t = .insert consume k v (.add n (.repair c))) :
    Preserves cfg s t (.setPrev c (.node n)) (.insert consume k v (.reset n)) .nothing g := by
  have hrep : (s.pc t).repairing = some (c, .node n) := by rw [hpc]; rfl
  obtain ⟨hprev, hnext, -⟩ := h.lru.repairing t c _ hrep
  obtain ⟨x, hx, heq⟩ := h.lru.repairing_mem hrep
  obtain rfl := Ptr.node_injective heq
  have hout : (s.pc t).inside = false := by rw [hpc]; rfl
  refine ⟨g, ?_, .nothing rfl rfl⟩
  refine h.apply (by rw [hpc]; exact ⟨rfl, rfl⟩) (h.status.keep (by rw [hpc]; rfl))
    (h.role.keep (by rw [hpc]; rfl)) h.compatible h.buckets h.recent
    (h.lru.repair hrep (fun t' _ hi => ?_) (by rw [hpc]; rfl) rfl rfl) h.quiet trivial
    (fun t' hne => { Rely.refl cfg (s.pc t') s.mem g with
      holds := fun y z hv => ⟨rfl, rfl, fun _ => rfl, fun _ => rfl, fun hz => ?_⟩
      inside := fun _ => { InsideRely.refl s.mem g with
        prev := fun y hy hyp => ?_
        tempPrev := fun y hy => ?_ } })
  · rw [hout] at hi
    cases hi
  · -- the repaired node is listed, one that is yet to be linked is not
    refine Function.update_of_ne ?_ _ _
    rintro rfl
    subst hz
    have hy := h.held hv
    rcases h.lru.linked.next_mem (isCell_node hx) with hn | ⟨w, hw, hn⟩
    · rw [hnext] at hn
      cases hn
    · rw [hnext] at hn
      obtain rfl := Ptr.node_injective hn
      exact h.not_lru (by rw [hy]; exact id) hw rfl
  · refine Function.update_of_ne ?_ _ _
    rintro rfl
    exact hyp hprev
  · refine Function.update_of_ne ?_ _ _
    rintro rfl
    rcases h.lru.linked.next_mem (isCell_node hx) with hn | ⟨w, hw, hn⟩
    · rw [hnext] at hn
      cases hn
    · rw [hnext] at hn
      obtain rfl := Ptr.node_injective hn
      exact h.not_lru (by rw [(h.lru.temp y).1 hy]; exact id) hw rfl

/-- The guard is taken away; from here on the node belongs to nobody. -/
theorem Inv.resetGuard (h : Inv cfg s g) {pc' : PC N K V}
    (hpc : s.pc t = .insert consume k v (.reset n))
    (hpc' : pc' = if consume then .delivered k v else .idle) :
    Preserves cfg s t (.setRecent n .null) pc' .nothing g := by
  have hv : (s.pc t).holds = some (n, .linked) := by rw [hpc]; rfl
  have hm : (s.pc t).marks = some (n, .guarded) := by rw [hpc]; rfl
  have hs := h.held hv
  have hr := h.role.held hm
  have hd : pc'.Detached := by
    subst hpc'
    cases consume <;> exact ⟨rfl, rfl, rfl, rfl⟩
  have hlocks : LockStep cfg s (s.pc t) (.setRecent n .null) pc' := by
    subst hpc'
    rw [hpc]
    cases consume <;> exact ⟨rfl, rfl⟩
  have hself : ∀ m g', pc'.inv (T := T) cfg m g' := by
    subst hpc'
    intro m g'
    cases consume <;> trivial
  refine ⟨{ g with
    status := Function.update g.status n (.rest .resident)
    role := Function.update g.role n (.rest .unmarked) }, ?_,
    Effect.single (n := n) (u := .rest .resident) trivial rfl rfl ?_ ?_ ?_ ?_⟩
  · refine h.apply hlocks (h.status.drop hv hd.holds) (h.role.drop hm hd.marks)
      (h.compatible_both trivial) (h.buckets.restatus ?_) (h.recent.store ?_ ⟨by simp, by simp⟩ ?_)
      ((h.lru.restatus ?_ ?_ ?_).settled (by rw [hpc]; exact ⟨rfl, rfl, hd.repairing, hd.gap⟩))
      h.quiet (hself _ _) (fun t' hne => { Rely.refl cfg (s.pc t') s.mem g with
        marks := fun x y hv' => ?_
        inside := fun _ => { InsideRely.refl s.mem g with
          resident := fun x hx => ?_
          recent := fun x hx => ?_ } })
    · rw [hs]
      exact Iff.rfl
    · rw [hr]
      exact ⟨by simp, by simp⟩
    · exact iff_of_false (by simp) id
    · rw [hs]
      exact Iff.rfl
    · rw [hs]
      exact iff_of_false (by simp) (by simp)
    · -- nobody repairs behind this node: it is still this thread's
      intro t' c hrep
      obtain ⟨-, -, x, hx, hst⟩ := h.lru.repairing t' c _ hrep
      obtain rfl := Ptr.node_injective hx
      rw [hs] at hst
      rcases hst with hst | ⟨hst, -⟩
      · obtain rfl := (Own.held.inj hst).1
        rw [hpc] at hrep
        cases hrep
      · cases hst
    · have hxn : x ≠ n := by
        rintro rfl
        rw [h.role.held hv'] at hr
        exact hne (Own.held.inj hr).1
      exact Function.update_of_ne hxn _ _
    · show Function.update g.status n _ x = _
      by_cases hxn : x = n
      · subst hxn
        exact Function.update_self ..
      · rw [Function.update_of_ne hxn]
        exact hx
    · exact Function.update_of_ne (h.not_slice (by rw [hr]; simp) hx) _ _
  · rw [hs]
    exact Iff.rfl
  · rw [hs]
    exact Iff.rfl
  · rw [hs]
    exact iff_of_false (by simp) (by simp [Deed.free])
  · rw [hs]
    exact Iff.rfl

/-! ## All steps -/

/-- If the pool hands out free nodes, the steps of `insert` keep the invariant. -/
theorem Inv.insert_step {fails : Bool} {p : InsertPC N} {act : Act N K V} {pc' : PC N K V}
    (h : Inv cfg s g) (hpc : s.pc t = .insert consume k v p)
    (hnext : nextInsert cfg s fails consume k v p = some (act, pc'))
    (hpop : ∀ n, Label.deed ⟨t, s.pc t, .go fails, act⟩ = .pop n → g.status n = .rest .free) :
    Preserves cfg s t act pc' (Label.deed ⟨t, s.pc t, .go fails, act⟩) g := by
  have hlocks := nextInsert_locks hnext
  have hinv := h.pcs t
  rw [hpc] at hinv hpop ⊢
  cases p with
  | count =>
      cases hnext
      exact h.still hpc hlocks ⟨rfl, rfl, rfl, rfl, rfl, rfl, rfl, rfl⟩ rfl rfl
        ⟨rfl, rfl, rfl, rfl⟩ h.quiet trivial
  | allocate p =>
      -- both the first load of the pool head and a failed exchange end here
      have hload : ∀ {q : AllocatePC N}, s.pc t = .insert consume k v (.allocate q) →
          LockStep cfg s (.insert consume k v (.allocate q)) .read
            (allocateAt consume k v s.mem.emptyHead) →
          Preserves cfg s t .read (allocateAt consume k v s.mem.emptyHead) .nothing g := by
        intro q hpc hlocks
        have hd := allocateAt_detached consume k v s.mem.emptyHead
        exact h.still hpc hlocks (.refl _) hd.holds hd.marks ⟨rfl, rfl, hd.repairing, hd.gap⟩
          h.quiet (allocateAt_inv ..)
      cases p with
      | load =>
          cases hnext
          exact hload hpc hlocks
      | loadNext q =>
          simp only [nextInsert] at hnext
          split_ifs at hnext
          cases hnext
          exact h.still hpc hlocks (.refl _) rfl rfl ⟨rfl, rfl, rfl, rfl⟩ h.quiet trivial
      | cas q next =>
          simp only [nextInsert] at hnext
          split_ifs at hnext with hcas
          · cases q with
            | node n =>
                cases hnext
                exact h.pop hpc (hpop n rfl)
            | _ => cases hnext
          · cases hnext
            have hstep := hload hpc hlocks
            cases q <;> exact hstep
  | key n =>
      cases hnext
      exact h.storeKey hpc
  | value n =>
      cases hnext
      exact h.storeValue hpc
  | guard n =>
      cases hnext
      exact h.storeGuard hpc
  | bucket n p =>
      obtain ⟨⟨a, q⟩, hq, heq⟩ := Option.map_eq_some_iff.1 hnext
      cases heq
      cases p with
      | hash =>
          cases hq
          exact h.still hpc hlocks (.refl _) rfl rfl ⟨rfl, rfl, rfl, rfl⟩ h.quiet
            ⟨hinv.1, hinv.2.1, congrArg cfg.keyToBucketNr hinv.1⟩
      | lock b =>
          simp only [nextLink] at hq
          split_ifs at hq
          cases hq
          exact h.still hpc hlocks (.refl _) rfl rfl ⟨rfl, rfl, rfl, rfl⟩ h.quiet hinv
      | load b =>
          cases hq
          exact h.still hpc hlocks (.refl _) rfl rfl ⟨rfl, rfl, rfl, rfl⟩ h.quiet
            ⟨hinv.1, hinv.2.1, hinv.2.2, rfl⟩
      | storeNext b head =>
          cases hq
          exact h.storeBucketNext hpc
      | storeHead b =>
          cases hq
          exact h.storeBucketHead hpc
      | unlock b =>
          cases hq
          exact h.still hpc hlocks (.refl _) rfl rfl ⟨rfl, rfl, rfl, rfl⟩ h.quiet trivial
  | add n p =>
      obtain ⟨⟨a, q⟩, hq, heq⟩ := Option.map_eq_some_iff.1 hnext
      cases heq
      cases p with
      | storePrev =>
          simp only [nextAdd] at hq
          split_ifs at hq
          cases hq
          exact h.storePrev hpc
      | load =>
          cases hq
          exact h.still hpc hlocks (.refl _) rfl rfl ⟨rfl, rfl, rfl, rfl⟩ h.quiet hinv
      | storeNext c =>
          simp only [nextAdd] at hq
          split_ifs at hq
          cases hq
          exact h.storeNext hpc
      | cas c =>
          simp only [nextAdd] at hq
          split_ifs at hq with hcas
          · cases hq
            exact h.linkHead hpc hcas.1
          · cases hq
            exact h.still hpc hlocks (.refl _) rfl rfl ⟨rfl, rfl, rfl, rfl⟩ h.quiet hinv.1
      | repair c =>
          simp only [nextAdd] at hq
          split_ifs at hq
          cases hq
          exact h.repairBack hpc
  | reset n =>
      cases hnext
      exact h.resetGuard hpc rfl

end DeferredLru.Threads
