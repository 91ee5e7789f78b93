import DeferredLru.Concurrent.Counter
import DeferredLru.Concurrent.History
import Mathlib.Data.Fintype.Card

set_option autoImplicit false

/-! # What `ConcurrentLRU` deletes

`evictLeastRecentlyUsed` hands the key and the value of a node to `onDelete` after it has unlinked the
node from its bucket, and `releaseMemory` those of the nodes that are left in the buckets. Several
threads may evict at a time, each its own node, whose lock it has; so what `onDelete` is handed is what
was inserted (`Recorded`), and in the end every pair was deleted once (`LoggedRun.deletes_each`). -/

namespace DeferredLru.ConcurrentLru

open Intrusive Table

variable {N : ℕ} {K V T : Type} {cfg : Config N K} {s s' : State N K V T} {m : Mem N K V}
  {a : Lists N} {trace : List (Label N K V T)} {act : Act N K V} {t : T} {n : Fin N}
  {pc p : PC N K V} {move : Move K V}

/-! ## `releaseMemory` -/

/-- `releaseMemory` of a cache with this many buckets: what it hands to `onDelete`, and the number of
    buckets that it leaves. -/
def releaseMemory (fuel bucketCount : ℕ) (m : Mem N K V) : Option (List (K × V) × ℕ) := do
  let buckets ← (List.range bucketCount).mapM fun b => walk m.htNext fuel (m.ht b)
  some (buckets.flatten.map fun n => (m.key n, m.value n), 0)

/-- So many calls of `releaseMemory` in a row. -/
def releaseRepeatedly (fuel : ℕ) (m : Mem N K V) : ℕ → ℕ → Option (List (K × V))
  | 0, _ => some []
  | calls + 1, bucketCount => do
      let (deleted, bucketCount) ← releaseMemory fuel bucketCount m
      let rest ← releaseRepeatedly fuel m calls bucketCount
      some (deleted ++ rest)

/-- A released cache has no bucket left. -/
theorem releaseRepeatedly_zero (fuel calls : ℕ) (m : Mem N K V) :
    releaseRepeatedly fuel m calls 0 = some [] := by
  induction calls with
  | zero => rfl
  | succ calls ih =>
      rw [releaseRepeatedly]
      simp [releaseMemory, ih]

theorem Shape.releaseRepeatedly (h : Shape cfg m a) {fuel : ℕ} (hfuel : N < fuel) (calls size : ℕ) :
    releaseRepeatedly fuel m (calls + 1) size =
      some (((List.range size).flatMap a.bucket).map fun n => (m.key n, m.value n)) := by
  have hwalk : (fun b => walk m.htNext fuel (m.ht b)) = fun b => pure (a.bucket b) := by
    funext b
    refine (h.chains b).walk (lt_of_le_of_lt ?_ hfuel)
    simpa using (h.bucket_nodup b).length_le_card
  rw [ConcurrentLru.releaseRepeatedly, releaseMemory, hwalk, List.mapM_pure]
  simp [releaseRepeatedly_zero, List.flatMap_def]

theorem Config.whichBucket_lt (cfg : Config N K) (k : K) : cfg.whichBucket k < cfg.bucketCount := by
  refine Nat.mod_lt _ (Nat.div_pos ?_ cfg.loadFactor_pos)
  have hN := cfg.capacity_pos
  omega

/-! ## What `onDelete` is handed -/

/-- What the next access of the thread hands to `onDelete`. -/
def State.deletion (s : State N K V T) (t : T) : Option (K × V) :=
  match s.pc t with
  | .insert _ _ (.onDelete n) => some (s.mem.key n, s.mem.value n)
  | _ => none

/-- The node is out of its bucket. -/
def HtRemovePC.unlinked : HtRemovePC N → Bool
  | .unlockPrev _ _ => true
  | .clearNext _ => true
  | .clearFlag _ => true
  | .unlock _ r => r
  | _ => false

/-- The node that the thread has taken out of its bucket and not yet handed to `onDelete`. -/
def PC.undeleted : PC N K V → Option (Fin N)
  | .insert _ _ (.htRemove n q) => if q.unlinked then some n else none
  | .insert _ _ (.onDelete n) => some n
  | _ => none

/-- Its lock is taken. -/
theorem PC.undeleted_holds (h : pc.undeleted = some n) : .node n ∈ pc.holds := by
  unfold PC.undeleted at h
  split at h
  · split at h <;> cases h
    rename_i q _
    cases q with
    | setNext b prev => cases prev <;> simp [PC.holds, InsertPC.holds, HtRemovePC.holds]
    | _ => simp [PC.holds, InsertPC.holds, HtRemovePC.holds]
  · cases h
    exact List.mem_singleton_self _
  · cases h

theorem PC.undeleted_writes (h : pc.undeleted = some n) : pc.writes = none := by
  unfold PC.undeleted at h
  split at h <;> first | rfl | cases h

theorem PC.op_evict (h : pc.op = some (.evict n)) : .node n ∈ pc.holds ∧ pc.writes = none := by
  unfold PC.op at h
  split at h <;> cases h
  rename_i prev
  refine ⟨?_, rfl⟩
  cases prev <;> simp [PC.holds, InsertPC.holds, HtRemovePC.holds]

/-! ## Steps -/

/-- How a step changes what the thread has still to delete. -/
inductive DeleteStep (pc p : PC N K V) : Prop
  | evict (n : Fin N) : pc.op = some (.evict n) → pc.undeleted = none → p.undeleted = some n →
      DeleteStep pc p
  | delete (k : K) (v : V) (n : Fin N) : pc = .insert k v (.onDelete n) → p.undeleted = none →
      DeleteStep pc p
  | other : (∀ k v n, pc ≠ .insert k v (.onDelete n)) → p.undeleted = pc.undeleted →
      (∀ n, pc.op ≠ some (.evict n)) → DeleteStep pc p

theorem htRemove_deleteStep {k : K} {v : V} {q q' : HtRemovePC N}
    (hs : q.Standing cfg s.mem a trace n) (hr : nextHtRemove cfg s n q = (act, .inl q')) :
    DeleteStep (V := V) (.insert k v (.htRemove n q)) (.insert k v (.htRemove n q')) := by
  cases q with
  | walk b prev current =>
      refine .other (by simp) ?_ (by simp [PC.op])
      cases current with
      | none => exact hs.2.2.current_ne_none.elim
      | some c =>
          simp only [nextHtRemove, htRemoveAt] at hr
          split at hr
          · cases prev <;> cases hr <;> rfl
          · cases hr
            rfl
  | tryLock b x =>
      refine .other (by simp) ?_ (by simp [PC.op])
      simp only [nextHtRemove] at hr
      split at hr <;> cases hr <;> rfl
  | setNext b prev =>
      refine .evict n rfl rfl ?_
      cases prev <;> cases hr <;> rfl
  | _ => cases hr <;> exact .other (by simp) rfl (by simp [PC.op])

/-- `htRemove` returns when it gives the lock of the bucket back. -/
theorem htRemove_returned {q : HtRemovePC N} {r : Bool}
    (hr : nextHtRemove cfg s n q = (act, .inr r)) : ∃ b, q = .unlock b r := by
  cases q with
  | unlock b r' =>
      cases hr
      exact ⟨b, rfl⟩
  | tryLock b x =>
      simp only [nextHtRemove] at hr
      split at hr <;> cases hr
  | setNext b prev => cases prev <;> cases hr
  | _ => cases hr

theorem afterFind_undeleted (producer : Option V) (k : K) (r : Option V) :
    (afterFind (N := N) producer k r).undeleted = none := by
  unfold afterFind
  split <;> rfl

theorem Transition.deleteStep [DecidableEq K] (h : Transition cfg s pc move act p)
    (hs : Standing cfg s.mem a trace pc) : DeleteStep pc p := by
  cases h with
  | call c => cases c <;> exact .other (by simp) rfl (by simp [PC.op])
  | find hfind =>
      refine .other (by simp) ?_ (by simp [PC.op])
      cases hfind with
      | missing hr => exact afterFind_undeleted ..
      | unlock n r => exact afterFind_undeleted ..
      | _ => rfl
  | insert hinsert =>
      cases hinsert with
      | htRemove hr => exact htRemove_deleteStep hs.2 hr
      | unlinked hr =>
          obtain ⟨b, rfl⟩ := htRemove_returned hr
          exact .other (by simp) rfl (by simp [PC.op])
      | linked hr =>
          obtain ⟨b, rfl⟩ := htRemove_returned hr
          exact .other (by simp) rfl (by simp [PC.op])
      | onDelete n => exact .delete _ _ n rfl rfl
      | @htInsert n q =>
          refine .other (by simp) rfl ?_
          cases q <;> simp [PC.op]
      | @hashed n q =>
          refine .other (by simp) rfl ?_
          cases q <;> simp [PC.op]
      | _ => exact .other (by simp) rfl (by simp [PC.op])

/-! ## The record of a run -/

/-- The pairs deleted, those of the nodes `hand` that are still to be deleted, and those of the table
    are the pairs inserted. -/
structure Recorded (s : State N K V T) (ops : List (Table.Op (Fin N) K V))
    (l : List (Table.Entry (Fin N) K V)) (deleted : List (K × V)) (hand : List (Fin N)) : Prop where
  undeleted : ∀ n, n ∈ hand ↔ ∃ t, (s.pc t).undeleted = some n
  nodup : hand.Nodup
  balance : (deleted ++ hand.map (fun n => (s.mem.key n, s.mem.value n)) ++
    l.map Table.Entry.pair).Perm (Table.insertedPairs ops)

theorem Recorded.initial [Inhabited K] [Inhabited V] : Recorded (initial N K V T) [] [] [] [] where
  undeleted n := by simp [ConcurrentLru.initial, PC.undeleted]
  nodup := List.nodup_nil
  balance := List.Perm.nil

/-- Two threads do not have the same node still to delete. -/
theorem Inv.undeleted_unique (h : Inv cfg s a trace) {u : T} (ht : (s.pc t).undeleted = some n)
    (hu : (s.pc u).undeleted = some n) : u = t :=
  h.nodes.unique (PC.undeleted_holds hu) (PC.undeleted_holds ht)

theorem State.deletion_eq_none (h : ∀ k v n, s.pc t ≠ .insert k v (.onDelete n)) :
    s.deletion t = none := by
  unfold State.deletion
  split
  · rename_i heq
    exact absurd heq (h _ _ _)
  · rfl

section Step

variable [DecidableEq K] {ops : List (Table.Op (Fin N) K V)}
  {l l' : List (Table.Entry (Fin N) K V)} {deleted : List (K × V)} {hand : List (Fin N)}

/-- Nodes in hands keep their keys and values. -/
theorem Recorded.kept (hr : Recorded s ops l deleted hand) (h : Inv cfg s a trace)
    (hmoved : Transition cfg s (s.pc t) move act p) {nodes : List (Fin N)} (hsub : nodes ⊆ hand) :
    nodes.map (fun n => ((act.onMem s.mem).key n, (act.onMem s.mem).value n)) =
      nodes.map fun n => (s.mem.key n, s.mem.value n) := by
  refine List.map_congr_left fun n hn => ?_
  obtain ⟨u, hu⟩ := (hr.undeleted n).1 (hsub hn)
  obtain ⟨hkey, hvalue⟩ := hmoved.contents (n := n) fun hw => by
    obtain rfl := h.nodes.unique (PC.undeleted_holds hu) (PC.writes_holds hw)
    rw [PC.undeleted_writes hu] at hw
    cases hw
  rw [hkey, hvalue]

variable [DecidableEq T]

/-- **One step** keeps the record. -/
theorem Recorded.step (hr : Recorded s ops l deleted hand) (h : Inv cfg s a trace)
    (hmoved : Transition cfg s (s.pc t) move act p) (hdup : (l.map Table.Entry.handle).Nodup)
    (hparts : Parts s.mem.key s.mem.value cfg.whichBucket a.bucket l)
    (hfollows : Follows l (s.pc t).op l') :
    ∃ hand', Recorded (s.apply t act p) (ops ++ (s.pc t).op.toList) l'
      (deleted ++ (s.deletion t).toList) hand' := by
  have hpcs : ∀ u, (s.apply t act p).pc u = if u = t then p else s.pc u := fun u =>
    Function.update_apply ..
  have hkept := hr.kept h hmoved (List.Subset.refl hand)
  rcases hmoved.deleteStep (h.standing t) with ⟨n, hop, hpc, hp⟩ | ⟨k, v, n, hpc, hp⟩ |
    ⟨hpc, hp, hop⟩
  · -- the node is evicted, and is in the hands of this thread now
    obtain ⟨hholds, hwrites⟩ := PC.op_evict hop
    have hnot : n ∉ hand := fun hn => by
      obtain ⟨u, hu⟩ := (hr.undeleted n).1 hn
      obtain rfl := h.nodes.unique (PC.undeleted_holds hu) hholds
      rw [hpc] at hu
      cases hu
    rw [hop] at hfollows ⊢
    cases hfollows with
    | @evict e he =>
        obtain ⟨hkey, hvalue⟩ := hmoved.contents (n := e.handle) (by rw [hwrites]; nofun)
        have hpair : ((act.onMem s.mem).key e.handle, (act.onMem s.mem).value e.handle) = e.pair := by
          rw [hkey, hvalue, hparts.key e he, hparts.value e he]
          rfl
        refine ⟨e.handle :: hand, fun x => ?_, List.nodup_cons.2 ⟨hnot, hr.nodup⟩, ?_⟩
        · simp only [hpcs]
          constructor
          · intro hx
            rcases List.mem_cons.1 hx with rfl | hx
            · exact ⟨t, by rw [if_pos rfl, hp]⟩
            · obtain ⟨u, hu⟩ := (hr.undeleted x).1 hx
              refine ⟨u, ?_⟩
              rw [if_neg (fun hut => by rw [hut, hpc] at hu; cases hu)]
              exact hu
          · rintro ⟨u, hu⟩
            by_cases hut : u = t
            · rw [if_pos hut, hp] at hu
              cases hu
              exact List.mem_cons_self
            · rw [if_neg hut] at hu
              exact List.mem_cons_of_mem _ ((hr.undeleted x).2 ⟨u, hu⟩)
        · have hdeletion : s.deletion t = none :=
            State.deletion_eq_none fun k v x hx => by rw [hx] at hpc; cases hpc
          rw [Option.toList_some, insertedPairs_evict, hdeletion, Option.toList_none, List.append_nil,
            List.map_cons]
          show (deleted ++ ((act.onMem s.mem).key e.handle, (act.onMem s.mem).value e.handle) ::
            hand.map (fun n => ((act.onMem s.mem).key n, (act.onMem s.mem).value n)) ++ _).Perm _
          rw [hpair, hkept, List.append_assoc]
          refine List.Perm.trans ?_ hr.balance
          rw [List.append_assoc]
          refine List.Perm.append_left _ (List.perm_middle.symm.trans ?_)
          exact List.Perm.append_left _ ((perm_evict hdup he).map Table.Entry.pair)
  · -- `onDelete` is handed a node in hands
    have hn : n ∈ hand := (hr.undeleted n).2 ⟨t, by rw [hpc]; rfl⟩
    have hdeletion : s.deletion t = some (s.mem.key n, s.mem.value n) := by
      unfold State.deletion
      rw [hpc]
    rw [show (s.pc t).op = none by rw [hpc]; rfl] at hfollows ⊢
    obtain rfl : l' = l := hfollows
    refine ⟨hand.erase n, fun x => ?_, hr.nodup.erase n, ?_⟩
    · rw [hr.nodup.mem_erase_iff, hr.undeleted x]
      simp only [hpcs]
      constructor
      · rintro ⟨hx, u, hu⟩
        refine ⟨u, ?_⟩
        rw [if_neg (fun hut => by rw [hut, hpc] at hu; exact hx (Option.some.inj hu).symm)]
        exact hu
      · rintro ⟨u, hu⟩
        by_cases hut : u = t
        · rw [if_pos hut, hp] at hu
          cases hu
        · rw [if_neg hut] at hu
          refine ⟨?_, u, hu⟩
          rintro rfl
          exact hut (h.undeleted_unique (by rw [hpc]; rfl) hu)
    · rw [hdeletion, Option.toList_none, List.append_nil]
      refine List.Perm.trans ?_ hr.balance
      show (deleted ++ [(s.mem.key n, s.mem.value n)] ++ (hand.erase n).map (fun n =>
        ((act.onMem s.mem).key n, (act.onMem s.mem).value n)) ++ _).Perm _
      rw [hr.kept h hmoved List.erase_subset, List.append_assoc deleted]
      refine List.Perm.append_right _ (List.Perm.append_left _ ?_)
      exact ((List.perm_cons_erase hn).map fun n => (s.mem.key n, s.mem.value n)).symm
  · -- any other step leaves the hands alone
    refine ⟨hand, fun x => ?_, hr.nodup, ?_⟩
    · rw [hr.undeleted x]
      refine exists_congr fun u => ?_
      rw [hpcs u]
      by_cases hut : u = t
      · rw [if_pos hut, hut, hp]
      · rw [if_neg hut]
    · rw [State.deletion_eq_none hpc, Option.toList_none, List.append_nil]
      show (deleted ++ hand.map (fun n => ((act.onMem s.mem).key n, (act.onMem s.mem).value n)) ++
        _).Perm _
      rw [hkept]
      generalize (s.pc t).op = op at hfollows hop
      cases op with
      | none =>
          obtain rfl : l' = l := hfollows
          simpa using hr.balance
      | some op =>
          cases hfollows with
          | @insert x k v hfresh =>
              rw [Option.toList_some, insertedPairs_insert]
              refine List.Perm.trans ?_ (hr.balance.append_right [(k, v)])
              rw [List.append_assoc _ _ [(k, v)]]
              exact List.Perm.append_left _ (List.perm_append_singleton _ _).symm
          | @evict e he => exact absurd rfl (hop e.handle)
          | find k =>
              rw [Option.toList_some, insertedPairs_find]
              exact hr.balance

end Step

/-! ## Runs -/

variable [DecidableEq K] [DecidableEq T] [Inhabited K] [Inhabited V]
  {ok : State N K V T → Label N K V T → Prop} {deleted : List (K × V)}

/-- A run, with the pairs that evictions have handed to `onDelete`, in order. -/
inductive LoggedRun (cfg : Config N K) (ok : State N K V T → Label N K V T → Prop) :
    State N K V T → List (Label N K V T) → List (K × V) → Prop
  | start : LoggedRun cfg ok (initial N K V T) [] []
  | step {s s' : State N K V T} {trace : List (Label N K V T)} {deleted : List (K × V)} {t : T}
      {move : Move K V} {act : Act N K V} : LoggedRun cfg ok s trace deleted →
      ConcurrentLru.step cfg s t move = some (act, s') → ok s ⟨t, s.pc t, move, act⟩ →
      LoggedRun cfg ok s' (trace ++ [⟨t, s.pc t, move, act⟩]) (deleted ++ (s.deletion t).toList)

theorem Run.logged (h : Run cfg ok s trace) : ∃ deleted, LoggedRun cfg ok s trace deleted := by
  induction h with
  | start => exact ⟨[], .start⟩
  | step _ hstep hok ih =>
      obtain ⟨deleted, hlog⟩ := ih
      exact ⟨_, hlog.step hstep hok⟩

theorem LoggedRun.recorded (h : LoggedRun cfg ok s trace deleted) :
    ∃ a l hand, Inv cfg s a trace ∧ Tabled cfg s a l ∧ Replays (trace.filterMap Label.op) l ∧
      Recorded s (trace.filterMap Label.op) l deleted hand := by
  induction h with
  | start => exact ⟨_, _, _, Inv.initial cfg, .initial, .empty, .initial⟩
  | step _ hstep _ ih =>
      obtain ⟨a, l, hand, hinv, htabled, hreplays, hrecorded⟩ := ih
      obtain ⟨p, hmoved, -, rfl⟩ := step_transition hstep
      obtain ⟨l', hfollows, htabled'⟩ := htabled.step hinv hmoved
      obtain ⟨hand', hrecorded'⟩ :=
        hrecorded.step hinv hmoved hreplays.nodup htabled.parts hfollows
      rw [filterMap_concat]
      exact ⟨_, l', hand', hinv.step hstep, htabled', hreplays.follow hfollows, hrecorded'⟩

/-- **Every inserted pair is deleted exactly once.** In every state with no call running, the pairs
    that evictions have handed to `onDelete`, together with those that one or more calls of
    `releaseMemory` hand to it, are the pairs inserted. -/
theorem LoggedRun.deletes_each (h : LoggedRun cfg ok s trace deleted) (hidle : ∀ t, s.pc t = .idle)
    (calls : ℕ) :
    ∃ released, (∀ fuel, N < fuel →
        releaseRepeatedly fuel s.mem (calls + 1) cfg.bucketCount = some released) ∧
      (deleted ++ released).Perm (Table.insertedPairs (trace.filterMap Label.op)) := by
  obtain ⟨a, l, hand, hinv, htabled, hreplays, hrecorded⟩ := h.recorded
  obtain rfl : hand = [] := by
    refine List.eq_nil_iff_forall_not_mem.2 fun n hn => ?_
    obtain ⟨t, ht⟩ := (hrecorded.undeleted n).1 hn
    rw [hidle t] at ht
    cases ht
  refine ⟨_, fun fuel hfuel => hinv.shape.releaseRepeatedly hfuel calls cfg.bucketCount, ?_⟩
  have hbalance := hrecorded.balance
  rw [List.map_nil, List.append_nil] at hbalance
  exact (List.Perm.append_left _ (htabled.parts.pairs hreplays.nodup cfg.whichBucket_lt)).trans
    hbalance

/-- Thread 1 and thread 2 evict the two pairs of a full cache at the same time, and one of them is
    released later. -/
theorem LoggedRun.deletes_each_evicted : ∃ (s : State 2 ℕ ℕ (Fin 3))
    (trace : List (Label 2 ℕ ℕ (Fin 3))) (deleted : List (ℕ × ℕ)),
    LoggedRun twoNodes (fun _ _ => True) s trace deleted ∧
      trace.filterMap Label.op = [.insert 0 1 10, .insert 1 2 20, .evict 0, .evict 1,
        .insert 0 3 30, .insert 1 4 40] ∧
      ∃ released, (∀ fuel, 2 < fuel →
          releaseRepeatedly fuel s.mem (1 + 1) twoNodes.bucketCount = some released) ∧
        (deleted ++ released).Perm (Table.insertedPairs (trace.filterMap Label.op)) := by
  obtain ⟨s, trace, hrun, hgood⟩ := Run.of_play twoNodes (fun _ _ => True) (fun _ _ => true)
    (fun _ _ _ => trivial)
    (calls 1 (.insert 1 10) 28 ++ calls 1 (.insert 2 20) 28 ++ calls 1 (.insert 3 30) 25 ++
      calls 2 (.insert 4 40) 24 ++ goes 1 22 ++ goes 2 20)
    (fun (s : State 2 ℕ ℕ (Fin 3)) trace => (∀ t, (s.pc t).isIdle = true) ∧
      trace.filterMap Label.op = [.insert 0 1 10, .insert 1 2 20, .evict 0, .evict 1,
        .insert 0 3 30, .insert 1 4 40]) (by decide +kernel)
  obtain ⟨hidle, hops⟩ := of_decide_eq_true hgood
  obtain ⟨deleted, hlog⟩ := hrun.logged
  exact ⟨s, trace, deleted, hlog, hops,
    hlog.deletes_each (fun t => PC.eq_idle (hidle t)) 1⟩

end DeferredLru.ConcurrentLru
