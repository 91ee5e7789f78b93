import DeferredLru.Threads.Invariant

set_option autoImplicit false

/-! # What the writes do to the lists

One lemma per kind of write for each of the three list invariants: a write elsewhere leaves the list
alone (`foreign`), the others put a node in or take one out. The LRU list changes in two writes each
way: a head compare-exchange links the new node and leaves a back link to be repaired
(`LruInv.link`, `LruInv.splice`, `LruInv.repair`); an unlinking first redirects the link of the cell
before the node and then the back link of the cell behind it (`LruInv.unlink`, `LruInv.close`). -/

namespace DeferredLru.Threads

open Intrusive

variable {N : ℕ} {K V T : Type}

/-! ## Buckets -/

section Buckets

variable {cfg : Config N K} {bucketNext : Fin N → Option (Fin N)} {buckets : ℕ → Option (Fin N)}
  {key : Fin N → K} {status : Fin N → Status T} {bucket : ℕ → List (Fin N)} {n p : Fin N} {b : ℕ}
  {σ : Status T}

theorem BucketsInv.restatus (h : BucketsInv cfg bucketNext buckets key status bucket)
    (hσ : σ.inBucket ↔ (status n).inBucket) :
    BucketsInv cfg bucketNext buckets key (Function.update status n σ) bucket := by
  refine ⟨h.chain, fun b x => ?_⟩
  by_cases hx : x = n
  · subst hx
    rw [Function.update_self, hσ]
    exact h.mem b x
  · rw [Function.update_of_ne hx]
    exact h.mem b x

theorem BucketsInv.not_mem (h : BucketsInv cfg bucketNext buckets key status bucket)
    (hn : ¬ (status n).inBucket) (b : ℕ) : n ∉ bucket b := fun hm => hn ((h.mem b n).1 hm).1

theorem BucketsInv.setKey (h : BucketsInv cfg bucketNext buckets key status bucket)
    (hn : ¬ (status n).inBucket) (k : K) :
    BucketsInv cfg bucketNext buckets (Function.update key n k) status bucket := by
  refine ⟨h.chain, fun b x => ?_⟩
  by_cases hx : x = n
  · subst hx
    exact iff_of_false (h.not_mem hn b) (fun hh => hn hh.1)
  · rw [Function.update_of_ne hx]
    exact h.mem b x

theorem BucketsInv.foreign (h : BucketsInv cfg bucketNext buckets key status bucket)
    (hn : ¬ (status n).inBucket) (q : Option (Fin N)) :
    BucketsInv cfg (Function.update bucketNext n q) buckets key status bucket :=
  ⟨fun b => (h.chain b).update (h.not_mem hn b), h.mem⟩

/-- The bucket head is pointed at a node whose link leads to the old first node. -/
theorem BucketsInv.link (h : BucketsInv cfg bucketNext buckets key status bucket)
    (hn : ¬ (status n).inBucket) (hσ : σ.inBucket) (hb : cfg.keyToBucketNr (key n) = b)
    (hnext : bucketNext n = buckets b) :
    BucketsInv cfg bucketNext (Function.update buckets b (some n)) key
      (Function.update status n σ) (Function.update bucket b (n :: bucket b)) := by
  refine ⟨fun b' => ?_, fun b' x => ?_⟩
  · by_cases hb' : b' = b
    · subst hb'
      rw [Function.update_self, Function.update_self]
      refine ⟨rfl, ?_⟩
      rw [hnext]
      exact h.chain b'
    · rw [Function.update_of_ne hb', Function.update_of_ne hb']
      exact h.chain b'
  · by_cases hx : x = n
    · subst hx
      rw [Function.update_self]
      by_cases hb' : b' = b
      · subst hb'
        simp [hσ, hb]
      · rw [Function.update_of_ne hb']
        exact iff_of_false (h.not_mem hn b') (fun hh => hb' (hh.2.symm.trans hb))
    · rw [Function.update_of_ne hx]
      by_cases hb' : b' = b
      · subst hb'
        rw [Function.update_self, List.mem_cons, or_iff_right hx]
        exact h.mem b' x
      · rw [Function.update_of_ne hb']
        exact h.mem b' x

theorem BucketsInv.nodup (h : BucketsInv cfg bucketNext buckets key status bucket) (b : ℕ) :
    (bucket b).Nodup := Chain.nodup (Option.some_injective _) (by simp) (h.chain b)

/-- Membership after the node has left its bucket. -/
theorem BucketsInv.mem_erase (h : BucketsInv cfg bucketNext buckets key status bucket)
    (hn : n ∈ bucket b) (hσ : ¬ σ.inBucket) (b' : ℕ) (x : Fin N) :
    x ∈ Function.update bucket b ((bucket b).erase n) b' ↔
      (Function.update status n σ x).inBucket ∧ cfg.keyToBucketNr (key x) = b' := by
  by_cases hx : x = n
  · subst hx
    rw [Function.update_self]
    refine iff_of_false ?_ (fun hh => hσ hh.1)
    by_cases hb' : b' = b
    · subst hb'
      rw [Function.update_self]
      exact (h.nodup b').not_mem_erase
    · rw [Function.update_of_ne hb']
      exact fun hm => hb' (((h.mem b' x).1 hm).2.symm.trans ((h.mem b x).1 hn).2)
  · rw [Function.update_of_ne hx]
    by_cases hb' : b' = b
    · subst hb'
      rw [Function.update_self, List.mem_erase_of_ne hx]
      exact h.mem b' x
    · rw [Function.update_of_ne hb']
      exact h.mem b' x

theorem BucketsInv.unlinkHead (h : BucketsInv cfg bucketNext buckets key status bucket)
    (hn : n ∈ bucket b) (hσ : ¬ σ.inBucket) (hhead : buckets b = some n) :
    BucketsInv cfg bucketNext (Function.update buckets b (bucketNext n)) key
      (Function.update status n σ) (Function.update bucket b ((bucket b).erase n)) := by
  refine ⟨fun b' => ?_, h.mem_erase hn hσ⟩
  by_cases hb' : b' = b
  · subst hb'
    rw [Function.update_self, Function.update_self]
    have hchain := h.chain b'
    rw [hhead] at hchain
    cases hl : bucket b' with
    | nil =>
        rw [hl] at hn
        exact absurd hn (by simp)
    | cons x l =>
        rw [hl] at hchain
        obtain rfl : n = x := Option.some.inj hchain.1
        rw [List.erase_cons_head]
        exact hchain.2
  · rw [Function.update_of_ne hb', Function.update_of_ne hb']
    exact h.chain b'

theorem BucketsInv.unlinkBehind (h : BucketsInv cfg bucketNext buckets key status bucket)
    (hn : n ∈ bucket b) (hσ : ¬ σ.inBucket) (hp : p ∈ bucket b) (hpn : bucketNext p = some n) :
    BucketsInv cfg (Function.update bucketNext p (bucketNext n)) buckets key
      (Function.update status n σ) (Function.update bucket b ((bucket b).erase n)) := by
  refine ⟨fun b' => ?_, h.mem_erase hn hσ⟩
  by_cases hb' : b' = b
  · subst hb'
    rw [Function.update_self]
    exact (h.chain b').unlink (Option.some_injective _) (by simp) hn hp hpn
  · rw [Function.update_of_ne hb']
    refine (h.chain b').update (fun hm => hb' ?_)
    exact ((h.mem b' p).1 hm).2.symm.trans ((h.mem b p).1 hp).2

end Buckets

/-! ## The Recent list -/

section Recent

variable {recentNext : Fin N → Ptr N} {recentHead : Ptr N} {role : Fin N → Role T}
  {recent slice : List (Fin N)} {n : Fin N} {ρ : Role T} {p : Ptr N}

/-- A role outside the two lists. -/
def Role.outside (ρ : Role T) : Prop := ρ ≠ .rest .recent ∧ ρ ≠ .rest .slice

theorem RecentInv.head_ne_null (h : RecentInv recentNext recentHead role recent slice) :
    recentHead ≠ .null := by
  rcases h.chain.start_mem with hh | ⟨x, -, hh⟩ <;> rw [hh] <;> simp

theorem RecentInv.mem_update (h : RecentInv recentNext recentHead role recent slice)
    (hn : (role n).outside) (hρ : ρ.outside) (x : Fin N) :
    (x ∈ recent ↔ Function.update role n ρ x = .rest .recent) ∧
      (x ∈ slice ↔ Function.update role n ρ x = .rest .slice) := by
  by_cases hx : x = n
  · subst hx
    rw [Function.update_self, h.recent, h.slice]
    exact ⟨iff_of_false hn.1 hρ.1, iff_of_false hn.2 hρ.2⟩
  · rw [Function.update_of_ne hx]
    exact ⟨h.recent x, h.slice x⟩

/-- A change of role that is not a change of the mark. -/
theorem RecentInv.rerole (h : RecentInv recentNext recentHead role recent slice)
    (hn : (role n).outside) (hρ : ρ.outside) (hmark : ρ.marked ↔ (role n).marked) :
    RecentInv recentNext recentHead (Function.update role n ρ) recent slice := by
  refine ⟨h.chain, fun x => (h.mem_update hn hρ x).1, fun x => (h.mem_update hn hρ x).2, fun x => ?_⟩
  by_cases hx : x = n
  · subst hx
    rw [Function.update_self, hmark]
    exact h.marked x
  · rw [Function.update_of_ne hx]
    exact h.marked x

/-- A store to the `recent_next` of a node that is in neither list. -/
theorem RecentInv.store (h : RecentInv recentNext recentHead role recent slice)
    (hn : (role n).outside) (hρ : ρ.outside) (hmark : p ≠ .null ↔ ρ.marked) :
    RecentInv (Function.update recentNext n p) recentHead (Function.update role n ρ) recent
      slice := by
  have hnr : n ∉ recent := fun hm => hn.1 ((h.recent n).1 hm)
  refine ⟨h.chain.update hnr, fun x => (h.mem_update hn hρ x).1,
    fun x => (h.mem_update hn hρ x).2, fun x => ?_⟩
  by_cases hx : x = n
  · subst hx
    rw [Function.update_self, Function.update_self]
    exact hmark
  · rw [Function.update_of_ne hx, Function.update_of_ne hx]
    exact h.marked x

/-- The compare-exchange of `markNodeRecent`. -/
theorem RecentInv.push (h : RecentInv recentNext recentHead role recent slice)
    (hn : (role n).outside) (hmark : (role n).marked) (hnext : recentNext n = recentHead) :
    RecentInv recentNext (.node n) (Function.update role n (.rest .recent)) (n :: recent) slice := by
  have hns : n ∉ slice := fun hm => hn.2 ((h.slice n).1 hm)
  refine ⟨⟨rfl, by rw [hnext]; exact h.chain⟩, fun x => ?_, fun x => ?_, fun x => ?_⟩ <;>
    by_cases hx : x = n
  · simp [hx]
  · rw [Function.update_of_ne hx, List.mem_cons, or_iff_right hx]
    exact h.recent x
  · simp [hx, hns]
  · rw [Function.update_of_ne hx]
    exact h.slice x
  · subst hx
    rw [Function.update_self, h.marked x]
    exact iff_of_true hmark trivial
  · rw [Function.update_of_ne hx]
    exact h.marked x

/-- The roles after the whole Recent list has become the slice. -/
def sliced (role : Fin N → Role T) (n : Fin N) : Role T :=
  match role n with
  | .rest .recent => .rest .slice
  | ρ => ρ

theorem sliced_held {role : Fin N → Role T} {n : Fin N} {t : T} {x : Mark} :
    sliced role n = .held t x ↔ role n = .held t x := by
  unfold sliced
  split <;> simp_all

/-- The exchange of `popRecentListSlice`. -/
theorem RecentInv.exchange (h : RecentInv recentNext recentHead role recent []) :
    RecentInv recentNext .dummy (sliced role) [] recent := by
  have hnone : ∀ x, role x ≠ .rest .slice := fun x hx => by
    have := (h.slice x).2 hx
    simp at this
  refine ⟨rfl, fun x => ?_, fun x => ?_, fun x => ?_⟩
  · refine iff_of_false (by simp) ?_
    unfold sliced
    split <;> simp_all
  · rw [h.recent x]
    have := hnone x
    unfold sliced
    split <;> simp_all
  · rw [h.marked x]
    unfold sliced
    split <;> simp_all [Role.marked]

/-- The first node of the slice is unmarked and leaves it. -/
theorem RecentInv.unmark {rest : List (Fin N)}
    (h : RecentInv recentNext recentHead role recent (n :: rest))
    (hrest : n ∉ rest) :
    RecentInv (Function.update recentNext n .null) recentHead
      (Function.update role n (.rest .unmarked)) recent rest := by
  have hn : role n = .rest .slice := (h.slice n).1 (by simp)
  have hnr : n ∉ recent := fun hm => by
    rw [(h.recent n).1 hm] at hn
    cases hn
  refine ⟨h.chain.update hnr, fun x => ?_, fun x => ?_, fun x => ?_⟩ <;> by_cases hx : x = n
  · simp [hx, hnr]
  · rw [Function.update_of_ne hx]
    exact h.recent x
  · simp [hx, hrest]
  · rw [Function.update_of_ne hx, ← h.slice x, List.mem_cons, or_iff_right hx]
  · simp [hx, Role.marked]
  · rw [Function.update_of_ne hx, Function.update_of_ne hx]
    exact h.marked x

end Recent

/-! ## The LRU list -/

theorem PC.gap_inside {pc : PC N K V} {r : Ptr N × Fin N × Ptr N} (h : pc.gap = some r) :
    pc.inside = true := by
  unfold PC.gap at h
  split at h
  · rfl
  · rfl
  · cases h

section Lru

variable {lruNext lruPrev : Ptr N → Ptr N} {status : Fin N → Status T} {lru temp : List (Fin N)}
  {pcs : T → PC N K V} {n : Fin N} {σ : Status T} {p q c : Ptr N} {t : T} {pc' : PC N K V}

namespace LruInv

theorem nodup (h : LruInv lruNext lruPrev status lru temp pcs) : lru.Nodup :=
  h.linked.nodup Ptr.node_injective (by simp)

theorem next_inj (h : LruInv lruNext lruPrev status lru temp pcs) {c d : Ptr N}
    (hc : IsCell .node .lruHead lru c) (hd : IsCell .node .lruHead lru d)
    (hcd : lruNext c = lruNext d) : c = d :=
  h.linked.next_inj Ptr.node_injective (by simp) hc hd hcd

/-- The last node put in front by an unfinished splice is listed. -/
theorem repairing_mem (h : LruInv lruNext lruPrev status lru temp pcs) {l : Ptr N}
    (hr : (pcs t).repairing = some (c, l)) : ∃ x ∈ lru, l = .node x := by
  obtain ⟨-, -, x, rfl, hx⟩ := h.repairing t c l hr
  refine ⟨x, (h.mem x).2 ?_, rfl⟩
  rcases hx with hx | ⟨hx, -⟩ <;> rw [hx] <;> trivial

/-- Behind a cell stands a node of the list or the tail. -/
theorem next_listed (h : LruInv lruNext lruPrev status lru temp pcs) {d : Ptr N}
    (hd : IsCell .node .lruHead lru d) (hq : q ≠ .lruTail) (hl : ∀ x ∈ lru, q ≠ .node x) :
    lruNext d ≠ q := by
  rcases h.linked.next_mem hd with hn | ⟨y, hy, hn⟩
  · rw [hn]
    exact hq.symm
  · rw [hn]
    exact (hl y hy).symm

/-- A store to the `lru_next` of a cell outside the list. -/
theorem foreignNext (h : LruInv lruNext lruPrev status lru temp pcs) (hp : p ≠ .lruHead)
    (hl : ∀ x ∈ lru, p ≠ .node x) (v : Ptr N) :
    LruInv (Function.update lruNext p v) lruPrev status lru temp pcs := by
  have hcell : ∀ d, IsCell .node .lruHead lru d → Function.update lruNext p v d = lruNext d := by
    rintro d (rfl | ⟨x, hx, rfl⟩)
    · exact Function.update_of_ne hp.symm _ _
    · exact Function.update_of_ne (hl x hx).symm _ _
  refine ⟨h.linked.update hp hl, h.mem, h.temp, fun d hd => ?_, fun t c l hr => ?_,
    fun t p' n q' hg => ?_⟩
  · rw [hcell d hd]
    exact h.back d hd
  · obtain ⟨x, hx, rfl⟩ := h.repairing_mem hr
    rw [hcell _ (isCell_node hx)]
    exact h.repairing t c _ hr
  · obtain ⟨hnext, hprev, x, hx, rfl⟩ := h.gap t p' n q' hg
    rw [hcell _ (isCell_node hx)]
    exact ⟨hnext, hprev, x, hx, rfl⟩

/-- A store to the `lru_prev` of an address that is behind no cell. -/
theorem foreignPrev (h : LruInv lruNext lruPrev status lru temp pcs) (hq : q ≠ .lruTail)
    (hl : ∀ x ∈ lru, q ≠ .node x) (v : Ptr N) :
    LruInv lruNext (Function.update lruPrev q v) status lru temp pcs := by
  have hcell : ∀ d, IsCell .node .lruHead lru d →
      Function.update lruPrev q v (lruNext d) = lruPrev (lruNext d) := fun d hd =>
    Function.update_of_ne (h.next_listed hd hq hl) _ _
  refine ⟨h.linked, h.mem, h.temp, fun d hd => ?_, fun t c l hr => ?_, fun t p n q' hg => ?_⟩
  · rw [hcell d hd]
    exact h.back d hd
  · obtain ⟨x, hx, rfl⟩ := h.repairing_mem hr
    have hrep := h.repairing t c _ hr
    have hc := hcell _ (isCell_node hx)
    rw [hrep.2.1] at hc
    rw [hc]
    exact hrep
  · obtain ⟨hnext, hprev, x, hx, rfl⟩ := h.gap t p n q' hg
    have hc := hcell _ (isCell_node hx)
    rw [hnext] at hc
    rw [hc]
    exact ⟨hnext, hprev, x, hx, rfl⟩

/-- A change of status that moves the node in or out of no list. -/
theorem restatus (h : LruInv lruNext lruPrev status lru temp pcs)
    (hlru : σ.inLru ↔ (status n).inLru) (htemp : σ = .rest .temp ↔ status n = .rest .temp)
    (hrep : ∀ t c, (pcs t).repairing ≠ some (c, .node n)) :
    LruInv lruNext lruPrev (Function.update status n σ) lru temp pcs := by
  refine ⟨h.linked, fun x => ?_, fun x => ?_, h.back, fun t c l hr => ?_, h.gap⟩
  · by_cases hx : x = n
    · subst hx
      rw [Function.update_self, hlru]
      exact h.mem x
    · rw [Function.update_of_ne hx]
      exact h.mem x
  · by_cases hx : x = n
    · subst hx
      rw [Function.update_self, htemp]
      exact h.temp x
    · rw [Function.update_of_ne hx]
      exact h.temp x
  · obtain ⟨hprev, hnext, x, rfl, hx⟩ := h.repairing t c l hr
    have hxn : x ≠ n := by
      rintro rfl
      exact hrep t c hr
    refine ⟨hprev, hnext, x, rfl, ?_⟩
    rw [Function.update_of_ne hxn]
    exact hx

/-- The temporary list takes the node in. -/
theorem append (h : LruInv lruNext lruPrev status lru temp pcs) (hs : status n = .held t .limbo) :
    LruInv lruNext lruPrev (Function.update status n (.rest .temp)) lru (temp ++ [n]) pcs := by
  refine ⟨h.linked, fun x => ?_, fun x => ?_, h.back, fun t' c l hr => ?_, h.gap⟩
  · by_cases hx : x = n
    · subst hx
      rw [Function.update_self, h.mem x, hs]
      exact Iff.rfl
    · rw [Function.update_of_ne hx]
      exact h.mem x
  · by_cases hx : x = n
    · simp [hx]
    · rw [Function.update_of_ne hx]
      simp [hx, h.temp x]
  · obtain ⟨hprev, hnext, x, rfl, hx⟩ := h.repairing t' c l hr
    have hxn : x ≠ n := by
      rintro rfl
      rw [hs] at hx
      rcases hx with hx | ⟨hx, -⟩ <;> cases hx
    refine ⟨hprev, hnext, x, rfl, ?_⟩
    rw [Function.update_of_ne hxn]
    exact hx

/-- The old first node's `lru_prev` is exact while nothing has been put in front of it. -/
theorem first_back (h : LruInv lruNext lruPrev status lru temp pcs) :
    lruPrev (lruNext .lruHead) = .lruHead := by
  rcases h.back _ isCell_head with hb | ⟨t, hr⟩ | ⟨t, n, hg⟩
  · exact hb
  · obtain ⟨-, -, x, hx, -⟩ := h.repairing t _ _ hr
    cases hx
  · obtain ⟨-, -, x, -, hx⟩ := h.gap t _ n _ hg
    cases hx

/-- The cell before a listed node whose `lru_prev` is not the head sentinel. -/
theorem prev_spec (h : LruInv lruNext lruPrev status lru temp pcs) (hn : n ∈ lru)
    (hne : lruPrev (.node n) ≠ .lruHead) (hgap : ∀ t, (pcs t).gap = none) :
    ∃ x ∈ lru, lruPrev (.node n) = .node x ∧ lruNext (.node x) = .node n ∧ x ≠ n := by
  obtain ⟨d, hd, hdn⟩ := h.linked.pred hn
  have hprev : lruPrev (.node n) = d := by
    rw [← hdn] at hne ⊢
    rcases h.back d hd with hb | ⟨t, hr⟩ | ⟨t, z, hg⟩
    · exact hb
    · exact absurd (h.repairing t _ _ hr).1 hne
    · rw [hgap t] at hg
      cases hg
  rw [hprev] at hne ⊢
  rcases hd with rfl | ⟨x, hx, rfl⟩
  · exact absurd rfl hne
  · refine ⟨x, hx, rfl, hdn, ?_⟩
    rintro rfl
    exact h.linked.next_ne_self Ptr.node_injective (by simp) (by simp) hx hdn

variable [DecidableEq T]

/-- The thread's views after its step, if it was neither repairing nor in a gap before. -/
theorem view_other (pc' : PC N K V) (hrep : (pcs t).repairing = none) (hgap : (pcs t).gap = none)
    (t' : T) :
    (∀ r, (pcs t').repairing = some r → (Function.update pcs t pc' t').repairing = some r) ∧
      ∀ r, (pcs t').gap = some r → (Function.update pcs t pc' t').gap = some r := by
  by_cases heq : t' = t
  · subst heq
    rw [hrep, hgap]
    exact ⟨fun r hr => (by cases hr), fun r hr => (by cases hr)⟩
  · rw [Function.update_of_ne heq]
    exact ⟨fun r hr => hr, fun r hr => hr⟩

/-- **The head compare-exchange** of a sublist `first … x` whose links are in place: its nodes are
    listed, and the old first node's `lru_prev` awaits its repair. -/
theorem splice {l : List (Fin N)} {x : Fin N} {first : Ptr N} {status' : Fin N → Status T}
    {temp' : List (Fin N)} (h : LruInv lruNext lruPrev status lru temp pcs)
    (hchain : Chain (fun y => lruNext (.node y)) .node first l (.node x))
    (hback : ∀ y ∈ l, lruPrev (lruNext (.node y)) = .node y)
    (hfirst : lruPrev first = .lruHead) (hlast : lruNext (.node x) = lruNext .lruHead)
    (hmem : ∀ y, y ∈ l ++ x :: lru ↔ (status' y).inLru)
    (htemp : ∀ y, y ∈ temp' ↔ status' y = .rest .temp)
    (hkeep : ∀ y ∈ lru, status' y = status y)
    (hrep : (pcs t).repairing = none) (hgap : (pcs t).gap = none) (hgap' : pc'.gap = none)
    (hrep' : pc'.repairing = some (lruNext .lruHead, .node x))
    (howner : status' x = .held t .linked ∨ (status' x = .rest .resident ∧ pc'.inside = true)) :
    LruInv (Function.update lruNext .lruHead first) lruPrev status' (l ++ x :: lru) temp'
      (Function.update pcs t pc') := by
  have hnode : ∀ y, Function.update lruNext .lruHead first (.node y) = lruNext (.node y) := fun y =>
    Function.update_of_ne (by simp) _ _
  have hother := fun t' => view_other pc' hrep hgap t'
  refine ⟨?_, hmem, htemp, ?_, ?_, ?_⟩
  · exact Linked.splice (by simp) hchain hlast h.linked
  · rintro d (rfl | ⟨y, hy, rfl⟩)
    · rw [Function.update_self]
      exact Or.inl hfirst
    · rw [hnode y]
      rcases List.mem_append.1 hy with hy | hy
      · exact Or.inl (hback y hy)
      rcases List.mem_cons.1 hy with rfl | hy
      · refine Or.inr (Or.inl ⟨t, ?_⟩)
        rw [Function.update_self, hrep', hlast]
      · rcases h.back _ (isCell_node hy) with hb | ⟨t', hr⟩ | ⟨t', z, hg⟩
        · exact Or.inl hb
        · exact Or.inr (Or.inl ⟨t', (hother t').1 _ hr⟩)
        · exact Or.inr (Or.inr ⟨t', z, (hother t').2 _ hg⟩)
  · intro t' c l' hr
    by_cases heq : t' = t
    · subst heq
      rw [Function.update_self] at hr ⊢
      rw [hrep'] at hr
      cases hr
      exact ⟨h.first_back, (hnode x).trans hlast, x, rfl, howner⟩
    · rw [Function.update_of_ne heq] at hr ⊢
      obtain ⟨y, hy, rfl⟩ := h.repairing_mem hr
      obtain ⟨hprev, hnext, z, hz, hst⟩ := h.repairing t' c _ hr
      obtain rfl := Ptr.node_injective hz
      refine ⟨hprev, (hnode y).trans hnext, y, rfl, ?_⟩
      rw [hkeep y hy]
      exact hst
  · intro t' p z q hg
    have hne : t' ≠ t := by
      rintro rfl
      rw [Function.update_self, hgap'] at hg
      cases hg
    rw [Function.update_of_ne hne] at hg
    obtain ⟨hnext, hprev, y, hy, rfl⟩ := h.gap t' p z q hg
    exact ⟨(hnode y).trans hnext, hprev, y, by simp [hy], rfl⟩

/-- The repair of the old first node's `lru_prev`. -/
theorem repair {l : Ptr N} (h : LruInv lruNext lruPrev status lru temp pcs)
    (hr : (pcs t).repairing = some (c, l)) (hin : ∀ t', (pcs t').inside = true →
      (pcs t).inside = true → t' = t) (hgap : (pcs t).gap = none) (hrep' : pc'.repairing = none)
    (hgap' : pc'.gap = none) :
    LruInv lruNext (Function.update lruPrev c l) status lru temp (Function.update pcs t pc') := by
  obtain ⟨hprev, hnext, x, rfl, hx⟩ := h.repairing t c l hr
  obtain ⟨x', hxl, hx'⟩ := h.repairing_mem hr
  obtain rfl := Ptr.node_injective hx'
  -- no other thread repairs behind the same node
  have hothers : ∀ t' c' l', t' ≠ t → (pcs t').repairing = some (c', l') → c' ≠ c := by
    rintro t' c' l' hne hr' rfl
    obtain ⟨-, hnext', y, rfl, hy⟩ := h.repairing t' c' l' hr'
    obtain ⟨y', hyl, hy'⟩ := h.repairing_mem hr'
    obtain rfl := Ptr.node_injective hy'
    obtain rfl := Ptr.node_injective
      (h.next_inj (isCell_node hyl) (isCell_node hxl) (hnext'.trans hnext.symm))
    rcases hx with hx | ⟨hx, hi⟩ <;> rcases hy with hy | ⟨hy, hi'⟩
    · rw [hx] at hy
      cases hy
      exact hne rfl
    · rw [hx] at hy
      cases hy
    · rw [hx] at hy
      cases hy
    · exact hne (hin t' hi' hi)
  refine ⟨h.linked, h.mem, h.temp, fun d hd => ?_, fun t' c' l' hr' => ?_, fun t' p n q hg => ?_⟩
  · by_cases hdx : d = .node x
    · subst hdx
      rw [hnext, Function.update_self]
      exact Or.inl rfl
    · have hdc : lruNext d ≠ c := fun hdc =>
        hdx (h.next_inj hd (isCell_node hxl) (hdc.trans hnext.symm))
      rw [Function.update_of_ne hdc]
      rcases h.back d hd with hb | ⟨t', hr'⟩ | ⟨t', z, hg⟩
      · exact Or.inl hb
      · have hne : t' ≠ t := by
          rintro rfl
          rw [hr] at hr'
          cases hr'
          exact hdx rfl
        exact Or.inr (Or.inl ⟨t', by rw [Function.update_of_ne hne]; exact hr'⟩)
      · have hne : t' ≠ t := by
          rintro rfl
          rw [hgap] at hg
          cases hg
        exact Or.inr (Or.inr ⟨t', z, by rw [Function.update_of_ne hne]; exact hg⟩)
  · have hne : t' ≠ t := by
      rintro rfl
      rw [Function.update_self, hrep'] at hr'
      cases hr'
    rw [Function.update_of_ne hne] at hr' ⊢
    rw [Function.update_of_ne (hothers t' c' l' hne hr')]
    exact h.repairing t' c' l' hr'
  · have hne : t' ≠ t := by
      rintro rfl
      rw [Function.update_self, hgap'] at hg
      cases hg
    rw [Function.update_of_ne hne] at hg
    obtain ⟨hn, hp, hl⟩ := h.gap t' p n q hg
    have hqc : q ≠ c := by
      rintro rfl
      rw [hprev] at hp
      cases hp
    rw [Function.update_of_ne hqc]
    exact ⟨hn, hp, hl⟩

/-- **The first store of an unlinking** takes the node out of the list. -/
theorem unlink (h : LruInv lruNext lruPrev status lru temp pcs) (hn : n ∈ lru)
    (hne : lruPrev (.node n) ≠ .lruHead) (hgap : ∀ t, (pcs t).gap = none)
    (hσ : ¬ σ.inLru) (htemp : σ ≠ .rest .temp) (hnt : status n ≠ .rest .temp)
    (hrep : ∀ t' c', (pcs t').repairing ≠ some (c', .node n))
    (hrept : (pcs t).repairing = none) (hrep' : pc'.repairing = none)
    (hgap' : pc'.gap = some (lruPrev (.node n), n, lruNext (.node n))) :
    LruInv (Function.update lruNext (lruPrev (.node n)) (lruNext (.node n))) lruPrev
      (Function.update status n σ) (lru.erase n) temp (Function.update pcs t pc') := by
  have hdup := h.nodup
  obtain ⟨x, hx, hpx, hxn, hxne⟩ := h.prev_spec hn hne hgap
  rw [hpx] at hgap' ⊢
  have herase : ∀ d, IsCell Ptr.node .lruHead (lru.erase n) d → IsCell Ptr.node .lruHead lru d :=
    fun d hd => hd.imp id fun ⟨y, hy, hdy⟩ => ⟨y, List.mem_of_mem_erase hy, hdy⟩
  have hother := fun t' => view_other pc' hrept (hgap t) t'
  refine ⟨?_, fun y => ?_, fun y => ?_, fun d hd => ?_, fun t' c l hr => ?_, fun t' p z q hg => ?_⟩
  · exact h.linked.unlink Ptr.node_injective (by simp) (by simp) hn (isCell_node hx) hxn
  · by_cases hy : y = n
    · subst hy
      rw [Function.update_self]
      exact iff_of_false hdup.not_mem_erase hσ
    · rw [Function.update_of_ne hy, List.mem_erase_of_ne hy]
      exact h.mem y
  · by_cases hy : y = n
    · subst hy
      rw [Function.update_self, h.temp y]
      exact iff_of_false hnt htemp
    · rw [Function.update_of_ne hy]
      exact h.temp y
  · -- the only cell whose successor changes is `x`, and there the thread has its gap
    by_cases hdx : d = .node x
    · subst hdx
      rw [Function.update_self]
      exact Or.inr (Or.inr ⟨t, n, by rw [Function.update_self, hgap']⟩)
    · rw [Function.update_of_ne hdx]
      rcases h.back d (herase d hd) with hb | ⟨t', hr⟩ | ⟨t', z, hg⟩
      · exact Or.inl hb
      · exact Or.inr (Or.inl ⟨t', (hother t').1 _ hr⟩)
      · exact Or.inr (Or.inr ⟨t', z, (hother t').2 _ hg⟩)
  · have hne' : t' ≠ t := by
      rintro rfl
      rw [Function.update_self, hrep'] at hr
      cases hr
    rw [Function.update_of_ne hne'] at hr ⊢
    obtain ⟨hprev, hnext, y, rfl, hy⟩ := h.repairing t' c l hr
    have hyn : y ≠ n := by
      rintro rfl
      exact hrep t' c hr
    -- the repaired node is the last of its splice, and `x` is followed by `n`
    have hyx : Ptr.node y ≠ .node x := by
      intro heq
      rw [heq, hxn] at hnext
      rw [← hnext] at hprev
      exact hne hprev
    rw [Function.update_of_ne hyx]
    refine ⟨hprev, hnext, y, rfl, ?_⟩
    rw [Function.update_of_ne hyn]
    exact hy
  · -- the gap is the only one
    have heq : t' = t := by
      by_contra hne'
      rw [Function.update_of_ne hne', hgap t'] at hg
      cases hg
    subst heq
    rw [Function.update_self, hgap'] at hg
    cases hg
    refine ⟨Function.update_self .., ?_, x, (List.mem_erase_of_ne hxne).2 hx, rfl⟩
    rcases h.back _ (isCell_node hn) with hb | ⟨t', hr⟩ | ⟨t', z, hg⟩
    · exact hb
    · exact absurd hr (hrep t' _)
    · rw [hgap t'] at hg
      cases hg

/-- **The second store of an unlinking** makes the back link exact again. -/
theorem close (h : LruInv lruNext lruPrev status lru temp pcs)
    (hg : (pcs t).gap = some (p, n, q)) (hgaps : ∀ t', t' ≠ t → (pcs t').gap = none)
    (hrept : (pcs t).repairing = none) (hrep' : pc'.repairing = none) (hgap' : pc'.gap = none) :
    LruInv lruNext (Function.update lruPrev q p) status lru temp (Function.update pcs t pc') := by
  obtain ⟨hnext, hprev, x, hx, rfl⟩ := h.gap t p n q hg
  refine ⟨h.linked, h.mem, h.temp, fun d hd => ?_, fun t' c l hr => ?_, fun t' p' z q' hg' => ?_⟩
  · by_cases hdx : d = .node x
    · subst hdx
      rw [hnext, Function.update_self]
      exact Or.inl rfl
    · have hdq : lruNext d ≠ q := fun hdq =>
        hdx (h.next_inj hd (isCell_node hx) (hdq.trans hnext.symm))
      rw [Function.update_of_ne hdq]
      rcases h.back d hd with hb | ⟨t', hr⟩ | ⟨t', z, hg'⟩
      · exact Or.inl hb
      · have hne : t' ≠ t := by
          rintro rfl
          rw [hrept] at hr
          cases hr
        exact Or.inr (Or.inl ⟨t', by rw [Function.update_of_ne hne]; exact hr⟩)
      · by_cases hne : t' = t
        · subst hne
          rw [hg] at hg'
          cases hg'
          exact absurd rfl hdx
        · rw [hgaps t' hne] at hg'
          cases hg'
  · have hne : t' ≠ t := by
      rintro rfl
      rw [Function.update_self, hrep'] at hr
      cases hr
    rw [Function.update_of_ne hne] at hr ⊢
    obtain ⟨hp, hrest⟩ := h.repairing t' c l hr
    have hcq : c ≠ q := by
      rintro rfl
      rw [hp] at hprev
      cases hprev
    rw [Function.update_of_ne hcq]
    exact ⟨hp, hrest⟩
  · by_cases hne : t' = t
    · subst hne
      rw [Function.update_self, hgap'] at hg'
      cases hg'
    · rw [Function.update_of_ne hne, hgaps t' hne] at hg'
      cases hg'

end LruInv

end Lru

end DeferredLru.Threads
