import DeferredLru.Deferred.Consolidation
import DeferredLru.Deferred.History
import DeferredLru.Deferred.Termination

set_option autoImplicit false

/-! # What the calls pay for

Deferring the moves is meant to make `lru_lock_` rare. A pull happens when the Recent list reaches its
threshold, and each node of that list is there because of a hit; a purge happens when the pool is
empty, and what it frees is refilled by as many insertions. So hits pay for pulls and insertions for
purges, and a call makes one of the two at most (`Paid`). Nor does a single consolidation depend on
the number of elements: a pull visits the marked nodes, and a purge its victims and the marked nodes
it passes by (`purgeLoop_rounds`). `Run.amortized` has both. -/

namespace DeferredLru

open Intrusive

variable {N : ℕ} {K V : Type} {cfg : Config N K} {m m' : Mem N K V} {a : Lists N}
  {past trace : List (Event N K V)} {calls : ℕ}

/-! ## Counting events -/

/-- The event is a hit. -/
def Event.isHit : Event N K V → Bool
  | .hit _ => true
  | _ => false

/-- The event is an insertion. -/
def Event.isInserted : Event N K V → Bool
  | .inserted .. => true
  | _ => false

/-- An execution of `pullRecent`. -/
def Event.isPull : Event N K V → Bool
  | .pull => true
  | _ => false

/-- Hits have paid for the pulls and the marks, insertions for the elements and the purges (for each as
    many elements as it frees at least), and each call made at most one hit or insertion. -/
structure Paid (cfg : Config N K) (a : Lists N) (trace : List (Event N K V)) (calls : ℕ) : Prop where
  pulls : cfg.pullThreshold * trace.countP Event.isPull + a.recent.length ≤ trace.countP Event.isHit
  purges : min cfg.purgeThreshold (N - cfg.pullThreshold) * trace.countP Event.isPurge +
    a.lru.length ≤ trace.countP Event.isInserted
  calls : trace.countP Event.isHit + trace.countP Event.isInserted ≤ calls

namespace Paid

theorem initial : Paid cfg (.initial N) ([] : List (Event N K V)) 0 := ⟨le_rfl, le_rfl, le_rfl⟩

theorem mono {calls' : ℕ} (h : Paid cfg a trace calls) (hle : calls ≤ calls') :
    Paid cfg a trace calls' := ⟨h.pulls, h.purges, h.calls.trans hle⟩

theorem length_mark_le (a : Lists N) (n : Fin N) :
    (a.mark n).recent.length ≤ a.recent.length + 1 := by
  unfold Lists.mark
  split
  · exact Nat.le_succ _
  · exact le_rfl

/-- **A hit** pays for at most one mark. -/
theorem hit (h : Paid cfg a past calls) (n : Fin N) :
    Paid cfg (a.mark n) (past ++ [.hit n]) (calls + 1) := by
  have hmark := length_mark_le a n
  obtain ⟨hpulls, hpurges, hcalls⟩ := h
  refine ⟨?_, ?_, ?_⟩
  all_goals
    simp only [List.countP_append, List.countP_singleton, Event.isHit, Event.isPull, Event.isPurge,
      Event.isInserted, Lists.mark_lru, if_true, Bool.false_eq_true, if_false, Nat.add_zero]
    omega

/-- **A pull** is paid by the marks it clears. -/
theorem pull (h : Paid cfg a past calls) (hmarks : cfg.pullThreshold ≤ a.recent.length)
    (hlen : a.pull.lru.length = a.lru.length) : Paid cfg a.pull (past ++ [.pull]) calls := by
  obtain ⟨hpulls, hpurges, hcalls⟩ := h
  have hempty : a.pull.recent.length = 0 := rfl
  refine ⟨?_, ?_, ?_⟩
  all_goals
    simp only [List.countP_append, List.countP_singleton, Event.isHit, Event.isPull, Event.isPurge,
      Event.isInserted, hempty, hlen, if_true, Bool.false_eq_true, if_false, Nat.add_zero,
      Nat.mul_add, Nat.mul_one]
    omega

/-- **A purge of the full cache** is paid by the elements it frees. -/
theorem purge {before after : Mem N K V} {deleted : List (K × V)} (h : Paid cfg a past calls)
    (hlinks : Links cfg m a) (hbelow : a.recent.length < cfg.pullThreshold) (hfull : a.lru.length = N) :
    Paid cfg (a.purge cfg.purgeThreshold) (past ++ [.purge before after deleted]) calls := by
  have hevictable : N - cfg.pullThreshold ≤ a.evictable.length := by
    -- behind the front node only the marked nodes are not evictable
    have hsplit := a.lru.tail.reverse.length_eq_length_filter_add fun n => n ∈ a.recent
    have hmarked : (a.lru.tail.reverse.filter fun n => n ∈ a.recent).length ≤ a.recent.length := by
      refine (List.subperm_of_subset ?_ fun n hn => ?_).length_le
      · exact (List.nodup_reverse.2 (hlinks.lru_nodup.sublist (List.tail_sublist _))).filter _
      · simpa using (List.mem_filter.1 hn).2
    have hrest : (a.lru.tail.reverse.filter fun n => !decide (n ∈ a.recent)) = a.evictable :=
      List.filter_congr fun n _ => by simp
    rw [hrest, List.length_reverse, List.length_tail] at hsplit
    omega
  have hlen := hlinks.purge_length cfg.purgeThreshold
  rw [List.length_take] at hlen
  obtain ⟨hpulls, hpurges, hcalls⟩ := h
  have hrecent : (a.purge cfg.purgeThreshold).recent = a.recent := rfl
  have hmin : min cfg.purgeThreshold (N - cfg.pullThreshold) ≤
      min cfg.purgeThreshold a.evictable.length := min_le_min_left _ hevictable
  refine ⟨?_, ?_, ?_⟩
  all_goals
    simp only [List.countP_append, List.countP_singleton, Event.isHit, Event.isPull, Event.isPurge,
      Event.isInserted, hrecent, if_true, Bool.false_eq_true, if_false, Nat.add_zero, Nat.mul_add,
      Nat.mul_one]
    omega

/-- **An insertion** pays for its element. -/
theorem link {p : List (Fin N)} {n : Fin N} {k : K} {v : V} {b : ℕ} (h : Paid cfg a past calls) :
    Paid cfg ({ a with pool := p }.link n b) (past ++ [.inserted n k v]) (calls + 1) := by
  obtain ⟨hpulls, hpurges, hcalls⟩ := h
  have hlen : ({ a with pool := p }.link n b).lru.length = a.lru.length + 1 := rfl
  have hrecent : ({ a with pool := p }.link n b).recent = a.recent := rfl
  refine ⟨?_, ?_, ?_⟩
  all_goals
    simp only [List.countP_append, List.countP_singleton, Event.isHit, Event.isPull, Event.isPurge,
      Event.isInserted, hlen, hrecent, if_true, Bool.false_eq_true, if_false, Nat.add_zero]
    omega

/-! ## Calls -/

theorem find [DecidableEq K] {fuel : ℕ} {k : K} {r : Option V} (h : Paid cfg a past calls)
    (hrep : Rep cfg m a) (hrun : find cfg fuel m k = .returned r m' trace) :
    ∃ a', Rep cfg m' a' ∧ Paid cfg a' (past ++ trace) (if r.isSome then calls + 1 else calls) := by
  rcases find_cases hrep hrun with ⟨-, rfl, rfl, rfl⟩ | ⟨n, a', hk, rfl, hrep', -, -, hcase⟩
  · rw [List.append_nil]
    exact ⟨a, hrep, h⟩
  · rcases hcase with ⟨rfl, rfl, -⟩ | ⟨rfl, rfl, hmarks⟩
    · exact ⟨_, hrep', h.hit n⟩
    · have hn := (Lists.lookup_spec hrep.toLinks hk).1
      have hlinks := markNodeRecent_spec hrep.toLinks hn
      have hlen : (a.mark n).pull.lru.length = (a.mark n).lru.length :=
        ((List.perm_ext_iff_of_nodup hrep'.lru_nodup hlinks.lru_nodup).2
          (Lists.mem_pull_lru hlinks.recent_sub)).length_eq
      have hpaid := (h.hit n).pull hmarks hlen
      rw [List.append_assoc] at hpaid
      exact ⟨_, hrep', hpaid⟩

theorem insert {fuel : ℕ} {k : K} {v : V} (h : Paid cfg a past calls) (hrep : Rep cfg m a)
    (hrun : insert cfg fuel m k v = .returned () m' trace) :
    ∃ a', Rep cfg m' a' ∧ Paid cfg a' (past ++ trace) (calls + 1) := by
  obtain ⟨a₁, n, p, events, rfl, -, -, -, halloc, hrep', -⟩ := insert_cases hrep hrun
  have hpaid : Paid cfg a₁ (past ++ events) calls := by
    cases halloc with
    | direct =>
        rw [List.append_nil]
        exact h
    | purged hpool => exact h.purge hrep.toLinks hrep.belowThreshold (hrep.length_of_pool_nil hpool)
  refine ⟨_, hrep', ?_⟩
  rw [← List.append_assoc]
  exact hpaid.link

end Paid

section Runs

variable [DecidableEq K] [Inhabited K] [Inhabited V]

theorem Run.paid {ops : List (Op K V)} (h : Run cfg ops m trace) :
    ∃ a, Rep cfg m a ∧ Paid cfg a trace ops.length := by
  induction h with
  | start => exact ⟨_, allocateMemory_rep cfg, Paid.initial⟩
  | @call ops op m m' trace trace' _ hcall ih =>
      obtain ⟨a, hrep, hpaid⟩ := ih
      rw [List.length_append, List.length_singleton]
      have hle : ∀ r : Option V, (if r.isSome then ops.length + 1 else ops.length) ≤ ops.length + 1 :=
        fun r => by split <;> omega
      cases hcall with
      | find hfind =>
          obtain ⟨a', hrep', hpaid'⟩ := hpaid.find hrep hfind
          exact ⟨a', hrep', hpaid'.mono (hle _)⟩
      | insert hinsert => exact hpaid.insert hrep hinsert
      | consume hconsume =>
          rcases consumeCachedOrCompute_cases hconsume with hfind | ⟨m₁, t₁, t₂, hfind, hinsert, -, rfl⟩
          · obtain ⟨a', hrep', hpaid'⟩ := hpaid.find hrep hfind
            exact ⟨a', hrep', hpaid'.mono (hle _)⟩
          · obtain ⟨a₁, hrep₁, hpaid₁⟩ := hpaid.find hrep hfind
            rw [← List.append_assoc]
            exact hpaid₁.insert hrep₁ hinsert

end Runs

/-! ## The loop of `purgeOld` -/

/-- **The rounds of a purge**: one for each node it still has to free, and one for each marked node
    that it passes by. -/
theorem purgeLoop_rounds {inner required fuel freed : ℕ} {l₁ l₂ : List (Fin N)} (h : Links cfg m a)
    (hl : a.lru = l₁ ++ l₂) (hinner : N ≤ inner)
    (hfuel : (required - freed) + (l₁.filter fun n => n ∈ a.recent).length < fuel) :
    ∃ r, purgeLoop cfg inner required fuel (lastCell l₁) freed m = some r := by
  induction fuel generalizing m a freed l₁ l₂ with
  | zero => exact absurd hfuel (Nat.not_lt_zero _)
  | succ fuel ih =>
      by_cases hreq : required ≤ freed
      · exact ⟨([], m), by unfold purgeLoop; exact if_pos (Or.inr hreq)⟩
      · cases l₁ using List.reverseRecOn with
        | nil => exact ⟨([], m), by simp [purgeLoop, lastCell]⟩
        | append_singleton l₀ n =>
            have hlru : LruList m (l₀ ++ n :: l₂) := by
              have := h.lru
              rwa [hl, List.append_assoc] at this
            have hprev := hlru.prev_eq_lastCell
            have hlast : lastCell (l₀ ++ [n]) = .node n := by simp [lastCell]
            rw [List.filter_append, List.length_append] at hfuel
            rw [hlast]
            by_cases hl₀ : l₀ = []
            · -- the front node ends the loop
              subst hl₀
              have hfront : m.lruPrev (.node n) = .lruHead := hprev
              exact ⟨([], m), by simp [purgeLoop, hreq, hfront]⟩
            · have hnext : m.lruPrev (.node n) ≠ .lruHead := by
                rw [hprev]
                exact fun hh => hl₀ (lastCell_eq_head_iff.1 hh)
              have hn : n ∈ a.lru := by rw [hl]; simp
              by_cases hmark : n ∈ a.recent
              · have hmk : m.markedRecent n = true := (h.markedRecent_iff n).2 hmark
                have hone : ([n].filter fun x => x ∈ a.recent).length = 1 := by simp [hmark]
                obtain ⟨r, hrun⟩ := @ih m a freed l₀ (n :: l₂) h (by rw [hl]; simp) (by omega)
                rw [← hprev] at hrun
                exact ⟨r, by simpa [purgeLoop, hreq, hnext, hmk] using hrun⟩
              · have hmk : m.markedRecent n = false := by
                  rw [← Bool.not_eq_true, h.markedRecent_iff]
                  exact hmark
                obtain ⟨m₁, hremoved, hunlinked, hlinks, -⟩ := evict_node_spec h hn hmark hinner
                have hdup := h.lru_nodup
                have hlru' : (a.evict [n]).lru = l₀ ++ l₂ := by
                  rw [Lists.evict_singleton_lru hdup, hl, List.append_assoc]
                  rw [hl, List.append_assoc] at hdup
                  have hn₀ : n ∉ l₀ := fun hm =>
                    (List.nodup_append.1 hdup).2.2 n hm n (by simp) rfl
                  rw [List.erase_append_right _ hn₀]
                  simp
                obtain ⟨r, hrun⟩ := @ih (evicted m₁ n) (a.evict [n]) (freed + 1) l₀ l₂ hlinks hlru' (by
                  show required - (freed + 1) + (l₀.filter fun x => x ∈ a.recent).length < fuel
                  omega)
                rw [← hprev] at hrun
                have hrun' : purgeLoop cfg inner required fuel (m.lruPrev (.node n)) (freed + 1)
                    (disposeNode { unlinked m₁ n with
                      currentElementCount := (unlinked m₁ n).currentElementCount - 1 } n) = _ := hrun
                refine ⟨((m₁.key n, m₁.value n) :: r.1, r.2), ?_⟩
                rw [purgeLoop, if_neg (by simp [hreq])]
                simp only [hnext, if_false, hmk, Bool.false_eq_true, hremoved, Option.bind_eq_bind,
                  Option.bind_some, if_true, hunlinked]
                rw [hrun']
                rfl

/-! ## The bounds -/

/-- **Consolidation is rare and short.** After any completed calls: `pullThreshold` hits have paid for
    each pull, as many insertions for each purge as it frees at least, and a call made one hit or one
    insertion at most. A pull of the cache that is left takes a round for each marked node, and a purge
    one for each victim and for each marked node. -/
theorem Run.amortized [DecidableEq K] [Inhabited K] [Inhabited V] {ops : List (Op K V)}
    (h : Run cfg ops m trace) :
    cfg.pullThreshold * trace.countP Event.isPull + m.recentCount ≤ trace.countP Event.isHit ∧
    min cfg.purgeThreshold (N - cfg.pullThreshold) * trace.countP Event.isPurge +
      m.currentElementCount ≤ trace.countP Event.isInserted ∧
    trace.countP Event.isHit + trace.countP Event.isInserted ≤ ops.length ∧
    (∀ fuel, m.recentCount < fuel → ∃ m', pullRecent fuel m = some m') ∧
    ∀ inner fuel, N ≤ inner → cfg.purgeThreshold + m.recentCount < fuel →
      ∃ r, purgeLoop cfg inner cfg.purgeThreshold fuel (m.lruPrev .lruTail) 0 m = some r := by
  obtain ⟨a, hrep, hpulls, hpurges, hcalls⟩ := h.paid
  refine ⟨?_, ?_, hcalls, fun fuel hfuel => ?_, fun inner fuel hinner hfuel => ?_⟩
  · rw [hrep.recentCount]
    exact hpulls
  · rw [hrep.count]
    exact hpurges
  · rw [hrep.recentCount] at hfuel
    obtain ⟨m', hrun, -⟩ := pullRecent_spec hrep.toLinks hfuel
    exact ⟨m', hrun⟩
  · have hmarked : (a.lru.filter fun n => n ∈ a.recent).length ≤ a.recent.length := by
      refine (List.subperm_of_subset (hrep.lru_nodup.filter _) fun n hn => ?_).length_le
      simpa using (List.mem_filter.1 hn).2
    rw [hrep.recentCount] at hfuel
    rw [hrep.lru.tail_prev]
    exact purgeLoop_rounds hrep.toLinks (List.append_nil _).symm hinner (by omega)

/-- Two hits pay for a pull; the insertion into the full cache purges one element. -/
theorem Run.amortized_threeNodes : ∃ (m : Mem 3 ℕ ℕ) (trace : List (Event 3 ℕ ℕ)),
    Run threeNodes [.insert 1 10, .insert 2 20, .insert 3 30, .find 1, .find 2, .insert 4 40] m trace ∧
    2 * trace.countP Event.isPull + m.recentCount ≤ trace.countP Event.isHit ∧
    min 1 (3 - 2) * trace.countP Event.isPurge + m.currentElementCount ≤
      trace.countP Event.isInserted ∧
    trace.countP Event.isHit + trace.countP Event.isInserted ≤ 6 ∧
    (∀ fuel, m.recentCount < fuel → ∃ m', pullRecent fuel m = some m') ∧
    ∀ inner fuel, 3 ≤ inner → 1 + m.recentCount < fuel →
      ∃ r, purgeLoop threeNodes inner 1 fuel (m.lruPrev .lruTail) 0 m = some r := by
  have hrun : Run threeNodes
      [.insert 1 10, .insert 2 20, .insert 3 30, .find 1, .find 2, .insert 4 40] _ _ :=
    (((((Run.start.call (.insert (show insert threeNodes 4 _ 1 10 = _ from rfl))).call
      (.insert (show insert threeNodes 4 _ 2 20 = _ from rfl))).call
      (.insert (show insert threeNodes 4 _ 3 30 = _ from rfl))).call
      (.find (show find threeNodes 4 _ 1 = _ from rfl))).call
      (.find (show find threeNodes 4 _ 2 = _ from rfl))).call
      (.insert (show insert threeNodes 4 _ 4 40 = _ from rfl))
  exact ⟨_, _, hrun, hrun.amortized⟩

end DeferredLru
