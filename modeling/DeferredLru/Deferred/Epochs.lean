import DeferredLru.Deferred.Runs
import DeferredLru.Lib.Trace

set_option autoImplicit false

/-! # Evictions respect the access order, up to pull epochs

Hits do not move nodes; the Recent list collects them and a pull moves them to the front together. So
the LRU list is not sorted by last access, but it is by the *epoch* of the last access, the number of
pulls before it, once the marked nodes are left out: these all belong to the current epoch
(`Ordered`). Every effect keeps that, and a purge, which takes unmarked nodes from the tail, evicts
no node whose epoch is later than that of a node it leaves. -/

namespace DeferredLru

open Intrusive

variable {N : ℕ} {K V : Type} {cfg : Config N K} {m m' : Mem N K V} {a a' : Lists N}

/-! ## Epochs -/

/-- The pull epoch of a run and the epoch of the last access to each node. -/
structure History (N : ℕ) where
  epoch : ℕ
  lastAccess : Fin N → ℕ

/-- A hit or an insertion accesses its node in the current epoch; a pull ends the epoch. -/
def History.next (h : History N) : Event N K V → History N
  | .hit n => { h with lastAccess := Function.update h.lastAccess n h.epoch }
  | .inserted n _ _ => { h with lastAccess := Function.update h.lastAccess n h.epoch }
  | .pull => { h with epoch := h.epoch + 1 }
  | .purge .. => h

/-- The epochs at the end of a run. -/
def history (trace : List (Event N K V)) : History N := trace.foldl History.next ⟨0, fun _ => 0⟩

@[simp] theorem history_concat (trace : List (Event N K V)) (e : Event N K V) :
    history (trace ++ [e]) = (history trace).next e := by
  simp [history]

/-- The node is in the LRU list. -/
def Mem.Resident (m : Mem N K V) (n : Fin N) : Prop :=
  Visits (fun x => m.lruNext (.node x)) .node (m.lruNext .lruHead) n

theorem LruList.resident_iff {l : List (Fin N)} (h : LruList m l) (n : Fin N) :
    m.Resident n ↔ n ∈ l :=
  Chain.visits_iff Ptr.node_injective (by simp) h.linked

/-- At every purge of the trace, each evicted node was accessed in no later epoch than each node
    still resident afterwards. -/
def RespectsEpochs (trace : List (Event N K V)) : Prop :=
  ∀ past before after deleted rest, trace = past ++ .purge before after deleted :: rest →
    ∀ x y, before.Resident x → ¬ after.Resident x → after.Resident y →
      (history past).lastAccess x ≤ (history past).lastAccess y

theorem RespectsEpochs.concat {trace : List (Event N K V)} {e : Event N K V}
    (h : RespectsEpochs trace)
    (he : ∀ before after deleted, e = .purge before after deleted →
      ∀ x y, before.Resident x → ¬ after.Resident x → after.Resident y →
        (history trace).lastAccess x ≤ (history trace).lastAccess y) :
    RespectsEpochs (trace ++ [e]) := by
  intro past before after deleted rest heq
  rcases Intrusive.concat_split heq with ⟨rfl, rfl, -⟩ | ⟨rest', rfl, -⟩
  · exact he before after deleted rfl
  · exact h past before after deleted rest' rfl

/-! ## The order of the LRU list -/

/-- Accesses are no later than now, marked nodes were accessed in this epoch, and the unmarked nodes
    stand in the LRU list by the epoch of their last access, latest first. -/
structure Ordered (h : History N) (a : Lists N) : Prop where
  le_epoch : ∀ n, h.lastAccess n ≤ h.epoch
  marked : ∀ n ∈ a.recent, h.lastAccess n = h.epoch
  sorted : (a.lru.filter (fun n => n ∉ a.recent)).Pairwise
    (fun x y => h.lastAccess y ≤ h.lastAccess x)

namespace Ordered

variable {h : History N} {n : Fin N}

theorem initial : Ordered ⟨0, fun _ => 0⟩ (Lists.initial N) :=
  ⟨fun _ => le_rfl, by simp [Lists.initial], by simp [Lists.initial]⟩

theorem access_le (ho : Ordered h a) (n x : Fin N) :
    Function.update h.lastAccess n h.epoch x ≤ h.epoch := by
  by_cases hx : x = n
  · rw [hx, Function.update_self]
  · rw [Function.update_of_ne hx]
    exact ho.le_epoch x

/-- A hit on an unmarked node takes it out of the sorted part. -/
theorem mark (ho : Ordered h a) (n : Fin N) :
    Ordered { h with lastAccess := Function.update h.lastAccess n h.epoch } (a.mark n) := by
  have hcase : n ∈ (a.mark n).recent ∧ (∀ x ∈ (a.mark n).recent, x = n ∨ x ∈ a.recent) ∧
      ∀ x ∈ a.recent, x ∈ (a.mark n).recent := by
    unfold Lists.mark
    by_cases hn : n ∈ a.recent
    · rw [if_pos hn]
      exact ⟨hn, fun x hx => Or.inr hx, fun x hx => hx⟩
    · rw [if_neg hn]
      exact ⟨by simp, fun x hx => List.mem_cons.1 hx, fun x hx => List.mem_cons_of_mem _ hx⟩
  obtain ⟨hn, hsub, hsup⟩ := hcase
  refine ⟨ho.access_le n, ?_, ?_⟩
  · intro x hx
    show Function.update h.lastAccess n h.epoch x = h.epoch
    by_cases hxn : x = n
    · rw [hxn, Function.update_self]
    · rw [Function.update_of_ne hxn]
      exact ho.marked x ((hsub x hx).resolve_left hxn)
  · rw [Lists.mark_lru]
    have hsublist : (a.lru.filter (fun x => x ∉ (a.mark n).recent)).Sublist
        (a.lru.filter (fun x => x ∉ a.recent)) :=
      List.monotone_filter_right _ (fun x hx => by
        simp only [decide_eq_true_eq] at hx ⊢
        exact fun hm => hx (hsup x hm))
    refine (ho.sorted.sublist hsublist).imp_of_mem ?_
    intro x y hx hy hxy
    have hne : ∀ z, z ∈ a.lru.filter (fun x => x ∉ (a.mark n).recent) → z ≠ n := by
      rintro z hz rfl
      exact (by simpa using List.of_mem_filter hz : z ∉ (a.mark z).recent) hn
    show Function.update h.lastAccess n h.epoch y ≤ Function.update h.lastAccess n h.epoch x
    rw [Function.update_of_ne (hne x hx), Function.update_of_ne (hne y hy)]
    exact hxy

/-- The nodes that a pull leaves behind are still in order: the front one, if it was marked, was
    accessed in the epoch that ends. -/
theorem rest_sorted (ho : Ordered h a) (hdup : a.lru.Nodup) :
    (a.lru.filter (fun n => n ∉ a.recent || a.isFront n)).Pairwise
      (fun x y => h.lastAccess y ≤ h.lastAccess x) := by
  have hsorted := ho.sorted
  unfold Lists.isFront
  cases hl : a.lru with
  | nil => simp
  | cons f t =>
      rw [hl] at hsorted hdup
      have hft : f ∉ t := (List.nodup_cons.1 hdup).1
      have htail : t.filter (fun n => n ∉ a.recent || (f :: t).head? = some n) =
          t.filter (fun n => n ∉ a.recent) := by
        refine List.filter_congr (fun x hx => ?_)
        have hxf : f ≠ x := fun heq => hft (heq ▸ hx)
        simp [hxf]
      rw [List.filter_cons_of_pos (by simp), htail]
      by_cases hf : f ∈ a.recent
      · rw [List.filter_cons_of_neg (by simpa using hf)] at hsorted
        refine List.pairwise_cons.2 ⟨fun x _ => ?_, hsorted⟩
        rw [ho.marked f hf]
        exact ho.le_epoch x
      · rwa [List.filter_cons_of_pos (by simpa using hf)] at hsorted

/-- A pull puts the nodes of its epoch before all others. -/
theorem pull (ho : Ordered h a) (hdup : a.lru.Nodup) :
    Ordered { h with epoch := h.epoch + 1 } a.pull := by
  refine ⟨fun n => (ho.le_epoch n).trans (Nat.le_succ _), by simp [Lists.pull], ?_⟩
  have hnone : a.pull.lru.filter (fun n => n ∉ a.pull.recent) = a.pull.lru :=
    List.filter_eq_self.2 (by simp [Lists.pull])
  have hmoved : ∀ x ∈ a.recent.filter (fun n => !a.isFront n), ∀ y,
      h.lastAccess y ≤ h.lastAccess x := by
    intro x hx y
    rw [ho.marked x (List.mem_of_mem_filter hx)]
    exact ho.le_epoch y
  rw [hnone]
  refine List.pairwise_append.2 ⟨?_, ho.rest_sorted hdup, fun x hx y _ => hmoved x hx y⟩
  exact List.pairwise_of_forall_mem_list (fun x hx y _ => hmoved x hx y)

/-- A new node is put before all others. -/
theorem link {p : List (Fin N)} {b : ℕ} (ho : Ordered h a) (hn : n ∉ a.lru)
    (hsub : ∀ x ∈ a.recent, x ∈ a.lru) :
    Ordered { h with lastAccess := Function.update h.lastAccess n h.epoch }
      ({ a with pool := p }.link n b) := by
  have hold : ∀ x ∈ a.lru, Function.update h.lastAccess n h.epoch x = h.lastAccess x := fun x hx => by
    have hxn : x ≠ n := fun heq => hn (heq ▸ hx)
    rw [Function.update_of_ne hxn]
  refine ⟨ho.access_le n, fun x hx => ?_, ?_⟩
  · exact (hold x (hsub x hx)).trans (ho.marked x hx)
  · show ((n :: a.lru).filter (fun x => x ∉ a.recent)).Pairwise _
    have hnr : n ∉ a.recent := fun hr => hn (hsub n hr)
    rw [List.filter_cons_of_pos (by simpa using hnr)]
    refine List.pairwise_cons.2 ⟨fun x _ => ?_, ?_⟩
    · show Function.update h.lastAccess n h.epoch x ≤ Function.update h.lastAccess n h.epoch n
      rw [Function.update_self]
      exact ho.access_le n x
    · refine ho.sorted.imp_of_mem ?_
      intro x y hx hy hxy
      show Function.update h.lastAccess n h.epoch y ≤ Function.update h.lastAccess n h.epoch x
      rw [hold x (List.mem_of_mem_filter hx), hold y (List.mem_of_mem_filter hy)]
      exact hxy

theorem evict (ho : Ordered h a) (vs : List (Fin N)) : Ordered h (a.evict vs) := by
  refine ⟨ho.le_epoch, ho.marked, ho.sorted.sublist ?_⟩
  exact (List.filter_sublist (p := fun n => n ∉ vs) (l := a.lru)).filter _

/-- **A purge takes the oldest epochs.** -/
theorem purge_le (ho : Ordered h a) {required : ℕ} {x y : Fin N}
    (hx : x ∈ a.evictable.take required) (hy : y ∈ a.lru) (hyv : y ∉ a.evictable.take required) :
    h.lastAccess x ≤ h.lastAccess y := by
  by_cases hyr : y ∈ a.recent
  · rw [ho.marked y hyr]
    exact ho.le_epoch x
  have hxe : x ∈ a.evictable := List.mem_of_mem_take hx
  have hsorted := ho.sorted
  cases hl : a.lru with
  | nil => exact absurd hy (by simp [hl])
  | cons f t =>
      have hev : a.evictable = (t.filter (fun n => n ∉ a.recent)).reverse := by
        rw [Lists.evictable, hl, List.tail_cons, List.filter_reverse]
      rw [hl] at hy hsorted
      rcases List.mem_cons.1 hy with rfl | hy
      · -- `y` is the front node, unmarked: it heads the sorted part
        rw [List.filter_cons_of_pos (by simpa using hyr)] at hsorted
        refine (List.pairwise_cons.1 hsorted).1 x ?_
        rw [hev] at hxe
        exact List.mem_reverse.1 hxe
      · have htail : (t.filter (fun n => n ∉ a.recent)).Pairwise
            (fun x y => h.lastAccess y ≤ h.lastAccess x) :=
          hsorted.sublist ((List.sublist_cons_self f t).filter _)
        have hrev : a.evictable.Pairwise (fun x y => h.lastAccess x ≤ h.lastAccess y) := by
          rw [hev]
          exact List.pairwise_reverse.2 htail
        have hye : y ∈ a.evictable := by
          rw [hev, List.mem_reverse]
          exact List.mem_filter.2 ⟨hy, by simpa using hyr⟩
        rw [← List.take_append_drop required a.evictable] at hrev hye
        exact (List.pairwise_append.1 hrev).2.2 x hx y ((List.mem_append.1 hye).resolve_left hyv)

end Ordered

/-! ## Runs -/

/-- A purge of ordered lists respects the epochs. -/
theorem purge_respects {trace : List (Event N K V)} {before after : Mem N K V} {required : ℕ}
    (ho : Ordered (history trace) a) (hbefore : Links cfg before a)
    (hafter : Links cfg after (a.purge required)) (x y : Fin N) (hx : before.Resident x)
    (hx' : ¬ after.Resident x) (hy : after.Resident y) :
    (history trace).lastAccess x ≤ (history trace).lastAccess y := by
  rw [hbefore.lru.resident_iff] at hx
  rw [hafter.lru.resident_iff] at hx' hy
  have hlru : (a.purge required).lru = a.lru.filter (fun n => n ∉ a.evictable.take required) := rfl
  rw [hlru, List.mem_filter] at hx' hy
  refine ho.purge_le ?_ hy.1 (by simpa using hy.2)
  by_contra hnv
  exact hx' ⟨hx, by simpa using hnv⟩

theorem Allocated.respects {trace events : List (Event N K V)} (h : Allocated cfg a a' events)
    (ho : Ordered (history trace) a) (hr : RespectsEpochs trace) :
    Ordered (history (trace ++ events)) a' ∧ RespectsEpochs (trace ++ events) := by
  cases h with
  | direct =>
      rw [List.append_nil]
      exact ⟨ho, hr⟩
  | @purged before after deleted hpool hbefore hafter =>
      refine ⟨?_, hr.concat ?_⟩
      · rw [history_concat]
        exact ho.evict _
      · intro b c d heq
        cases heq
        exact purge_respects ho hbefore hafter

theorem Effect.respects {trace events : List (Event N K V)} (hrep : Rep cfg m a)
    (heff : Effect cfg a events a') (ho : Ordered (history trace) a) (hr : RespectsEpochs trace) :
    Ordered (history (trace ++ events)) a' ∧ RespectsEpochs (trace ++ events) := by
  cases heff with
  | miss =>
      rw [List.append_nil]
      exact ⟨ho, hr⟩
  | hit hn =>
      refine ⟨?_, hr.concat (by simp)⟩
      rw [history_concat]
      exact ho.mark _
  | @pulled n hn =>
      have hmark : Ordered (history (trace ++ [Event.hit n])) (a.mark n) := by
        rw [history_concat]
        exact ho.mark n
      have hdup : (a.mark n).lru.Nodup := by
        rw [Lists.mark_lru]
        exact hrep.lru_nodup
      rw [show ([Event.hit n, .pull] : List (Event N K V)) = [.hit n] ++ [.pull] from rfl,
        ← List.append_assoc]
      refine ⟨?_, (hr.concat (by simp)).concat (by simp)⟩
      rw [history_concat]
      exact hmark.pull hdup
  | @inserted a₁ n p k v b events halloc hp hn =>
      obtain ⟨ho₁, hr₁⟩ := halloc.respects ho hr
      have hsub : ∀ x ∈ a₁.recent, x ∈ a₁.lru := by
        cases halloc with
        | direct => exact hrep.recent_sub
        | purged _ _ hafter => exact hafter.recent_sub
      rw [← List.append_assoc]
      refine ⟨?_, hr₁.concat (by simp)⟩
      rw [history_concat]
      exact ho₁.link hn hsub

/-- An `allocateNode` that is still looping has respected the epochs so far. -/
theorem allocateLoop_respects {inner fuel : ℕ} {past t t' : List (Event N K V)}
    (h : Links cfg m a) (hpull : m.pullRequest = false) (ho : Ordered (history (past ++ t)) a)
    (hr : RespectsEpochs (past ++ t)) (hinner : N < inner)
    (hrun : allocateLoop cfg inner fuel m.emptyHead m t = .running m' t') :
    RespectsEpochs (past ++ t') := by
  induction fuel generalizing m a t with
  | zero =>
      cases hrun
      exact hr
  | succ fuel ih =>
      cases hp : a.pool with
      | cons n p =>
          rw [(allocateLoop_of_pool inner fuel t h hp).1] at hrun
          cases hrun
      | nil =>
          have hempty : m.emptyHead = .null := by
            have := h.pool
            rwa [hp, chain_nil] at this
          obtain ⟨before, m₁, hreq, hbefore, hafter, hsame, -⟩ := requestPurge_spec h hpull hinner
          rw [hempty, allocateLoop] at hrun
          simp only [hreq] at hrun
          refine ih (hafter.flags _ _ _ false) (hsame.pullRequest.trans hpull) ?_ ?_ hrun
          · rw [← List.append_assoc, history_concat]
            exact ho.evict _
          · rw [← List.append_assoc]
            refine hr.concat (fun b c d heq => ?_)
            cases heq
            exact purge_respects ho hbefore hafter

theorem insert_respects {fuel : ℕ} {k : K} {v : V} {past trace : List (Event N K V)}
    (h : Rep cfg m a) (ho : Ordered (history past) a) (hr : RespectsEpochs past)
    (hrun : insert cfg fuel m k v = .running m' trace) : RespectsEpochs (past ++ trace) := by
  have hlinks : Links cfg { m with currentElementCount := m.currentElementCount + 1 } a :=
    h.toLinks.flags _ _ _ _
  have hloop : allocateNode cfg fuel { m with currentElementCount := m.currentElementCount + 1 } =
      .running m' trace := by
    unfold insert at hrun
    cases halloc : allocateNode cfg fuel
        { m with currentElementCount := m.currentElementCount + 1 } with
    | running m₁ t => simpa [halloc] using hrun
    | stuck => simp [halloc] at hrun
    | returned n m₁ t =>
        rw [halloc] at hrun
        dsimp only at hrun
        split at hrun <;> cases hrun
  have hlarge := allocateLoop_mono_inner hloop (by simp) (le_max_left fuel (N + 1))
  have hinner : N < max fuel (N + 1) := lt_of_lt_of_le (Nat.lt_succ_self N) (le_max_right ..)
  refine allocateLoop_respects hlinks h.noPull ?_ ?_ hinner hlarge
  · rwa [List.append_nil]
  · rwa [List.append_nil]

theorem Evolves.respects [Inhabited K] [Inhabited V] {trace : List (Event N K V)}
    (h : Evolves cfg m a trace) : Ordered (history trace) a ∧ RespectsEpochs trace := by
  induction h with
  | start => exact ⟨.initial, fun _ _ _ _ _ heq => absurd heq (by simp)⟩
  | step hev heff _ ih => exact heff.respects hev.rep ih.1 ih.2

section Observed

variable [Inhabited K] [Inhabited V] [DecidableEq K]

/-- What a single thread has done so far: completed calls and possibly a last `insert` that is still
    looking for a node. -/
inductive Observed (cfg : Config N K) : List (Event N K V) → Prop
  | completed {ops : List (Op K V)} {m : Mem N K V} {trace : List (Event N K V)} :
      Run cfg ops m trace → Observed cfg trace
  | inside {ops : List (Op K V)} {m m' : Mem N K V} {trace trace' : List (Event N K V)} {fuel : ℕ}
      {k : K} {v : V} : Run cfg ops m trace → insert cfg fuel m k v = .running m' trace' →
      Observed cfg (trace ++ trace')

/-- **Eviction respects the access order up to pull epochs**: whatever a single thread does, every
    node that a purge evicts was last accessed in no later epoch than each node it leaves. -/
theorem Observed.respectsEpochs {trace : List (Event N K V)} (h : Observed cfg trace) :
    RespectsEpochs trace := by
  cases h with
  | completed hrun =>
      obtain ⟨a, ha⟩ := hrun.evolves
      exact ha.respects.2
  | inside hrun hins =>
      obtain ⟨a, ha⟩ := hrun.evolves
      exact insert_respects ha.rep ha.respects.1 ha.respects.2 hins

/-- Two pulls keep the older key, which was found again in the second epoch. -/
theorem Observed.respectsEpochs_twoNodes :
    ∃ (trace : List (Event 2 ℕ ℕ)) (before after : Mem 2 ℕ ℕ), Observed twoNodes trace ∧
      trace = [.inserted 0 1 10, .inserted 1 2 20, .hit 0, .pull, .hit 0, .pull,
        .purge before after [(2, 20)], .inserted 1 3 30] ∧
      (history trace).lastAccess 0 = 1 ∧ RespectsEpochs trace := by
  have h : Observed twoNodes _ := .completed
    (((((Run.start.call (.insert (show insert twoNodes 3 _ 1 10 = _ from rfl))).call
      (.insert (show insert twoNodes 3 _ 2 20 = _ from rfl))).call
      (.find (show find twoNodes 3 _ 1 = _ from rfl))).call
      (.find (show find twoNodes 3 _ 1 = _ from rfl))).call
      (.insert (show insert twoNodes 3 _ 3 30 = _ from rfl)))
  exact ⟨_, _, _, h, rfl, rfl, h.respectsEpochs⟩

end Observed

end DeferredLru
