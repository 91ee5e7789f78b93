import DeferredLru.Deferred.History
import DeferredLru.Threads.Lists
import DeferredLru.Threads.Linearization

set_option autoImplicit false

/-! # Every inserted pair is deleted once

`purgeOld` hands the key and the value of an evicted node to `onDelete` when the node is out of both
lists, and `releaseMemory` those of the nodes that are left in the buckets. Between its eviction and
the call a node is in the hands of the one consolidating thread (`PC.undeleted`), and nobody writes to
it; so `onDelete` is handed what was inserted, in the order of the evictions, each pair once
(`Recorded`). -/

namespace DeferredLru.Threads

open Intrusive Table

variable {N : ℕ} {K V T : Type} {cfg : Config N K} {s : State N K V T} {g g' : Ghost N T} {t : T}
  {n : Fin N} {act : Act N K V} {pc pc' : PC N K V} {fails : Bool} {move : Move K V}

/-! ## What `onDelete` is handed -/

/-- What the next access of the thread hands to `onDelete`. -/
def State.deletion (s : State N K V T) (t : T) : Option (K × V) :=
  match s.pc t with
  | .consolidate _ (.purge (.onDelete n _ _)) => some (s.mem.key n, s.mem.value n)
  | _ => none

/-- The node that the thread has taken out of its bucket and not yet handed to `onDelete`. -/
def PurgePC.undeleted : PurgePC N → Option (Fin N)
  | .bucket n _ _ p => if p.removed then some n else none
  | .unlink n _ _ _ => some n
  | .onDelete n _ _ => some n
  | _ => none

/-- The same for a thread. -/
def PC.undeleted : PC N K V → Option (Fin N)
  | .consolidate _ (.purge p) => p.undeleted
  | _ => none

theorem PC.undeleted_inside (h : pc.undeleted = some n) : pc.inside = true := by
  cases pc with
  | consolidate back p =>
      cases p with
      | purge p => rfl
      | _ => cases h
  | _ => cases h

/-- It is not being filled. -/
theorem PC.undeleted_holds (h : pc.undeleted = some n) :
    ∃ x, pc.holds = some (n, x) ∧ x ≠ .building := by
  cases pc with
  | consolidate back p =>
      cases p with
      | purge p =>
          cases p with
          | bucket x next freed p =>
              cases hrem : p.removed with
              | true =>
                  simp only [PC.undeleted, PurgePC.undeleted, hrem, if_true] at h
                  cases h
                  exact ⟨.evicting, by simp [PC.holds, ConsolidatePC.holds, PurgePC.holds, hrem], by simp⟩
              | false =>
                  simp only [PC.undeleted, PurgePC.undeleted, hrem] at h
                  cases h
          | unlink x next freed p =>
              cases h
              cases hun : p.unlinked with
              | true =>
                  exact ⟨.evicted, by simp [PC.holds, ConsolidatePC.holds, PurgePC.holds, hun], by simp⟩
              | false =>
                  exact ⟨.evicting, by simp [PC.holds, ConsolidatePC.holds, PurgePC.holds, hun], by simp⟩
          | onDelete x next freed =>
              cases h
              exact ⟨.evicted, rfl, by simp⟩
          | _ => cases h
      | _ => cases h
  | _ => cases h

/-! ## Steps -/

/-- How a step changes what is still to be deleted. -/
inductive DeleteStep (pc pc' : PC N K V) (op : Option (Table.Op (Fin N) K V)) : Prop
  | evict (n : Fin N) : op = some (.evict n) → pc.undeleted = none → pc.inside = true →
      pc'.undeleted = some n → DeleteStep pc pc' op
  | delete (back : Back K V) (n : Fin N) (next : Ptr N) (freed : ℕ) :
      pc = .consolidate back (.purge (.onDelete n next freed)) → pc'.undeleted = none → op = none →
      DeleteStep pc pc' op
  | other : (∀ back n next freed, pc ≠ .consolidate back (.purge (.onDelete n next freed))) →
      pc'.undeleted = pc.undeleted → (∀ n, op ≠ some (.evict n)) → DeleteStep pc pc' op

theorem afterFind_undeleted (producer : Option V) (k : K) (r : Option V) :
    (afterFind producer k r : PC N K V).undeleted = none := by
  cases producer <;> cases r <;> rfl

theorem Back.pc_undeleted (back : Back K V) : (back.pc : PC N K V).undeleted = none := by
  cases back with
  | find producer k r => exact afterFind_undeleted producer k r
  | _ => rfl

theorem allocateAt_undeleted (consume : Bool) (k : K) (v : V) (p : Ptr N) :
    (allocateAt consume k v p).undeleted = none := by
  cases p <;> rfl

theorem purgeAt_undeleted (back : Back K V) (node : Ptr N) (freed : ℕ) :
    (purging back (purgeAt cfg node freed)).undeleted = none := by
  unfold purgeAt
  split_ifs <;> rfl

theorem nextPurge_deleteStep {back : Back K V} {p : PurgePC N} {p' : Option (PurgePC N)}
    (h : nextPurge cfg s fails p = some (act, p')) (t : T) :
    DeleteStep (.consolidate back (.purge p)) (purging back p')
      (Label.op ⟨t, .consolidate back (.purge p), .go fails, act⟩) := by
  cases p with
  | tail =>
      cases h
      exact .other (by simp) (purgeAt_undeleted ..) (by simp [Label.op])
  | prev node freed =>
      cases node <;> cases h
      refine .other (by simp) ?_ (by simp [Label.op])
      split_ifs <;> rfl
  | test n next freed =>
      cases h
      refine .other (by simp) ?_ (by simp [Label.op])
      cases s.mem.markedRecent n with
      | true => exact purgeAt_undeleted ..
      | false => rfl
  | bucket n next freed p =>
      obtain ⟨⟨a, q⟩, hq, heq⟩ := Option.map_eq_some_iff.1 h
      cases heq
      cases p with
      | lock b =>
          simp only [nextRemove] at hq
          split_ifs at hq
          cases hq
          exact .other (by simp) rfl (by simp [Label.op])
      | recheck b =>
          cases hq
          refine .other (by simp) ?_ (by simp [Label.op])
          cases s.mem.markedRecent n <;> rfl
      | load b =>
          cases hq
          refine .other (by simp) ?_ (by simp [Label.op])
          by_cases hhead : s.mem.buckets b = some n
          · rw [if_pos hhead]
            rfl
          · rw [if_neg hhead]
            cases s.mem.buckets b <;> rfl
      | walk b x =>
          cases hq
          refine .other (by simp) ?_ (by simp [Label.op])
          by_cases hlink : s.mem.bucketNext x = some n
          · rw [if_pos hlink]
            rfl
          · rw [if_neg hlink]
            cases s.mem.bucketNext x <;> rfl
      | storeHead b q =>
          cases hq
          exact .evict n rfl rfl rfl rfl
      | storeParent b x q =>
          cases hq
          exact .evict n rfl rfl rfl rfl
      | unlock b removed =>
          cases hq
          refine .other (by simp) ?_ (by simp [Label.op])
          cases removed with
          | true => rfl
          | false => exact purgeAt_undeleted ..
      | _ =>
          cases hq
          exact .other (by simp) rfl (by simp [Label.op])
  | unlink n next freed p =>
      obtain ⟨⟨a, q⟩, hq, heq⟩ := Option.map_eq_some_iff.1 h
      cases heq
      refine .other (by simp) ?_ (by simp [Label.op])
      cases q <;> rfl
  | onDelete n next freed =>
      cases h
      exact .delete back n next freed rfl rfl rfl
  | count n next freed =>
      cases h
      exact .other (by simp) rfl (by simp [Label.op])
  | dispose n next freed p =>
      obtain ⟨⟨a, q⟩, hq, heq⟩ := Option.map_eq_some_iff.1 h
      cases heq
      refine .other (by simp) ?_ (by simp [Label.op])
      cases q with
      | some q => rfl
      | none => exact purgeAt_undeleted ..

theorem nextConsolidate_deleteStep {back : Back K V} {p : ConsolidatePC N}
    (h : nextConsolidate cfg s fails back p = some (act, pc')) (t : T) :
    DeleteStep (.consolidate back p) pc' (Label.op ⟨t, .consolidate back p, .go fails, act⟩) := by
  cases p with
  | purge p =>
      obtain ⟨⟨a, q⟩, hq, heq⟩ := Option.map_eq_some_iff.1 h
      cases heq
      have hstep : DeleteStep _ (purging back q) _ := nextPurge_deleteStep hq t
      cases q <;> exact hstep
  | pull p =>
      obtain ⟨⟨a, q⟩, hq, heq⟩ := Option.map_eq_some_iff.1 h
      cases heq
      refine .other (by simp) ?_ (by simp [Label.op])
      cases q <;> rfl
  | tryLock =>
      simp only [nextConsolidate] at h
      split_ifs at h <;> cases h
      · exact .other (by simp) rfl (by simp [Label.op])
      · exact .other (by simp) (Back.pc_undeleted back) (by simp [Label.op])
  | testPurge =>
      cases h
      refine .other (by simp) ?_ (by simp [Label.op])
      cases s.mem.purgeRequest <;> rfl
  | testPull =>
      cases h
      refine .other (by simp) ?_ (by simp [Label.op])
      cases s.mem.pullRequest <;> rfl
  | unlock =>
      cases h
      exact .other (by simp) (Back.pc_undeleted back) (by simp [Label.op])
  | _ =>
      cases h
      exact .other (by simp) rfl (by simp [Label.op])

/-- An insertion deletes nothing, but it may go over to a purge. -/
theorem nextInsert_undeleted {consume : Bool} {k : K} {v : V} {p : InsertPC N}
    (h : nextInsert cfg s fails consume k v p = some (act, pc')) : pc'.undeleted = none := by
  cases p with
  | allocate p =>
      cases p with
      | load =>
          cases h
          exact allocateAt_undeleted ..
      | loadNext node =>
          simp only [nextInsert] at h
          split_ifs at h
          cases h
          rfl
      | cas node link =>
          simp only [nextInsert] at h
          split_ifs at h
          · cases node <;> cases h
            rfl
          · cases h
            exact allocateAt_undeleted ..
  | bucket n p =>
      obtain ⟨⟨a, q⟩, hq, heq⟩ := Option.map_eq_some_iff.1 h
      cases heq
      cases q <;> rfl
  | add n p =>
      obtain ⟨⟨a, q⟩, hq, heq⟩ := Option.map_eq_some_iff.1 h
      cases heq
      cases q <;> rfl
  | reset n =>
      cases h
      cases consume <;> rfl
  | _ =>
      cases h
      rfl

section Steps

variable [DecidableEq K]

theorem nextFind_undeleted {producer : Option V} {k : K} {p : FindPC N V}
    (h : nextFind cfg s fails producer k p = some (act, pc')) : pc'.undeleted = none := by
  cases p with
  | lock =>
      simp only [nextFind] at h
      split_ifs at h
      cases h
      rfl
  | mark n r p =>
      obtain ⟨⟨a, q⟩, hq, heq⟩ := Option.map_eq_some_iff.1 h
      cases heq
      cases q <;> rfl
  | threshold r =>
      cases h
      cases recentThresholdHit cfg s.mem with
      | true => rfl
      | false => exact afterFind_undeleted ..
  | _ =>
      cases h
      rfl

theorem next_deleteStep (h : next cfg s pc move = some (act, pc')) (t : T) :
    DeleteStep pc pc' (Label.op ⟨t, pc, move, act⟩) := by
  cases next_transition h with
  | call hidle c =>
      have hc : (c.pc : PC N K V).undeleted = none := by cases c <;> rfl
      rcases hidle with rfl | ⟨k, v, rfl⟩ <;> exact .other (by simp) hc (by simp [Label.op])
  | find hfind =>
      refine .other (by simp) (nextFind_undeleted hfind) fun n hop => ?_
      unfold Label.op at hop
      split at hop <;> simp_all
  | insert hinsert =>
      refine .other (by simp) (nextInsert_undeleted hinsert) fun n hop => ?_
      unfold Label.op at hop
      split at hop <;> simp_all
  | consolidate hconsolidate => exact nextConsolidate_deleteStep hconsolidate t

/-- Only the thread that fills a node writes its key and value. -/
theorem Inv.contents_kept (h : Inv cfg s g) (hnext : next cfg s (s.pc t) move = some (act, pc'))
    (hn : ∀ u, g.status n ≠ .held u .building) :
    (act.onMem s.mem).key n = s.mem.key n ∧ (act.onMem s.mem).value n = s.mem.value n := by
  have hsite := next_site hnext
  have hne : ∀ x, (s.pc t).holds = some (x, .building) → n ≠ x := by
    rintro x hx rfl
    exact hn t (h.held hx)
  cases act with
  | setKey x k =>
      obtain ⟨consume, v, hpc⟩ := hsite
      exact ⟨Function.update_of_ne (hne x (by rw [hpc]; rfl)) _ _, rfl⟩
  | setValue x v =>
      obtain ⟨consume, k, hpc⟩ := hsite
      exact ⟨rfl, Function.update_of_ne (hne x (by rw [hpc]; rfl)) _ _⟩
  | _ => exact ⟨rfl, rfl⟩

end Steps

/-! ## The record of a run -/

/-- The evicted entries `gone` were handed to `onDelete` in order, but for the last one if a thread has
    it still in hands; with those of the table they are the inserted entries. -/
structure Recorded (s : State N K V T) (ops : List (Table.Op (Fin N) K V))
    (l gone : List (Table.Entry (Fin N) K V)) (deleted : List (K × V)) (hand : Option (Fin N)) : Prop where
  undeleted : ∀ n, hand = some n ↔ ∃ t, (s.pc t).undeleted = some n
  order : gone.map Table.Entry.pair = deleted ++ hand.toList.map fun n => (s.mem.key n, s.mem.value n)
  balance : ((gone ++ l).map Table.Entry.pair).Perm (Table.insertedPairs ops)

theorem Recorded.initial [Inhabited K] [Inhabited V] :
    Recorded (initial N K V T) [] [] [] [] none where
  undeleted n := by simp [Threads.initial, PC.undeleted]
  order := rfl
  balance := List.Perm.nil

/-- Who has a node in hands is inside, and alone. -/
theorem Inv.undeleted_unique (h : Inv cfg s g) {u : T} (hin : (s.pc t).inside = true)
    (hu : (s.pc u).undeleted = some n) : u = t := h.locks.inside_unique (PC.undeleted_inside hu) hin

theorem PC.atRest.undeleted (h : pc.atRest = true) : pc.undeleted = none := by
  cases pc with
  | consolidate back p => cases h
  | _ => rfl

theorem State.deletion_eq_none (h : (s.pc t).undeleted = none) : s.deletion t = none := by
  unfold State.deletion
  split
  · rename_i heq
    rw [heq] at h
    cases h
  · rfl

/-- `releaseMemory` deletes what the bucket chains hold, bucket by bucket. -/
theorem releaseMemory_chains {m : Mem N K V} {bucket : ℕ → List (Fin N)}
    (hchain : ∀ b, Chain m.bucketNext some (m.buckets b) (bucket b) none) {fuel : ℕ} (hfuel : N < fuel)
    (size : ℕ) : releaseMemory fuel size m =
      some (((List.range size).flatMap bucket).map (fun n => (m.key n, m.value n)), 0) := by
  have hbucket : (fun b => releaseBucket m fuel (m.buckets b)) =
      fun b => pure ((bucket b).map (fun n => (m.key n, m.value n))) := by
    funext b
    have hdup := Chain.nodup (Option.some_injective _) (by simp) (hchain b)
    exact releaseBucket_spec (hchain b) ((length_le_capacity hdup).trans_lt hfuel)
  rw [releaseMemory, hbucket, List.mapM_pure, List.map_flatMap, List.flatMap_def]
  rfl

variable [DecidableEq K] [DecidableEq T]

/-- A run, with the pairs that purges have handed to `onDelete`, in order. -/
inductive LoggedRun [Inhabited K] [Inhabited V] (cfg : Config N K)
    (ok : State N K V T → Label N K V T → Prop) :
    State N K V T → List (Label N K V T) → List (K × V) → Prop
  | start : LoggedRun cfg ok (initial N K V T) [] []
  | step {s s' : State N K V T} {trace : List (Label N K V T)} {deleted : List (K × V)} {t : T}
      {move : Move K V} {act : Act N K V} : LoggedRun cfg ok s trace deleted →
      Threads.step cfg s t move = some (act, s') → ok s ⟨t, s.pc t, move, act⟩ →
      LoggedRun cfg ok s' (trace ++ [⟨t, s.pc t, move, act⟩]) (deleted ++ (s.deletion t).toList)

theorem Run.logged [Inhabited K] [Inhabited V] {ok : State N K V T → Label N K V T → Prop}
    {trace : List (Label N K V T)} (h : Run cfg ok s trace) :
    ∃ deleted, LoggedRun cfg ok s trace deleted := by
  induction h with
  | start => exact ⟨[], .start⟩
  | step _ hstep hok ih =>
      obtain ⟨deleted, hlog⟩ := ih
      exact ⟨_, hlog.step hstep hok⟩

variable {ops : List (Table.Op (Fin N) K V)} {l l' gone : List (Table.Entry (Fin N) K V)}
  {deleted : List (K × V)} {hand : Option (Fin N)}

/-- **One step** keeps the record. -/
theorem Recorded.step (hr : Recorded s ops l gone deleted hand) (h : Inv cfg s g)
    (hnext : next cfg s (s.pc t) move = some (act, pc')) (hdup : (l.map Table.Entry.handle).Nodup)
    (hparts : Parts s.mem.key s.mem.value cfg.keyToBucketNr g.bucket l)
    (hfollows : Follows l (Label.op ⟨t, s.pc t, move, act⟩) l') :
    ∃ gone' hand', Recorded (s.apply t act pc')
      (ops ++ (Label.op ⟨t, s.pc t, move, act⟩).toList) l' gone'
      (deleted ++ (s.deletion t).toList) hand' := by
  have hpcs : ∀ u, (s.apply t act pc').pc u = if u = t then pc' else s.pc u := fun u =>
    Function.update_apply ..
  -- the node in hands keeps its key and value
  have hkept : hand.toList.map (fun n => ((act.onMem s.mem).key n, (act.onMem s.mem).value n)) =
      hand.toList.map fun n => (s.mem.key n, s.mem.value n) := by
    refine List.map_congr_left fun n hn => ?_
    obtain ⟨u, hu⟩ := (hr.undeleted n).1 (Option.mem_toList.1 hn)
    obtain ⟨x, hx, hne⟩ := PC.undeleted_holds hu
    obtain ⟨hkey, hvalue⟩ := h.contents_kept (n := n) hnext fun w hw => by
      rw [h.held hx] at hw
      exact hne (Own.held.inj hw).2
    rw [hkey, hvalue]
  rcases next_deleteStep hnext t with ⟨n, hop, hpc, hin, hpc'⟩ | ⟨back, n, next, freed, hpc, hpc', hop⟩ |
    ⟨hpc, hpc', hop⟩
  · -- an eviction: nobody had a node in hands before
    have hnone : hand = none := by
      cases hand with
      | none => rfl
      | some x =>
          obtain ⟨u, hu⟩ := (hr.undeleted x).1 rfl
          obtain rfl := h.undeleted_unique hin hu
          rw [hpc] at hu
          cases hu
    subst hnone
    rw [hop] at hfollows
    cases hfollows with
    | @evict e he =>
        have hn : e.handle ∈ g.bucket _ := (hparts.mem_iff _).2 ⟨e, he, rfl, rfl⟩
        obtain ⟨hkey, hvalue⟩ := h.bucket_contents hnext hn
        refine ⟨gone ++ [e], some e.handle, fun x => ?_, ?_, ?_⟩
        · simp only [hpcs]
          constructor
          · rintro hx
            cases hx
            exact ⟨t, by rw [if_pos rfl, hpc']⟩
          · rintro ⟨u, hu⟩
            by_cases hut : u = t
            · rw [if_pos hut, hpc'] at hu
              exact hu
            · rw [if_neg hut] at hu
              exact absurd (h.undeleted_unique hin hu) hut
        · rw [State.deletion_eq_none hpc, List.map_append, hr.order]
          simp only [Option.toList_none, List.map_nil, List.append_nil, Option.toList_some,
            List.map_cons]
          show _ ++ [(e.key, e.value)] = _ ++ [((act.onMem s.mem).key e.handle, (act.onMem s.mem).value e.handle)]
          rw [hkey, hvalue, hparts.key e he, hparts.value e he]
        · rw [hop]
          rw [Option.toList_some, insertedPairs_evict, List.append_assoc]
          exact (((perm_evict hdup he).append_left gone).map _).trans hr.balance
  · -- `onDelete` is handed the node in hands
    have hhand : hand = some n := (hr.undeleted n).2 ⟨t, by rw [hpc]; rfl⟩
    have hin : (s.pc t).inside = true := by rw [hpc]; rfl
    have hdeletion : s.deletion t = some (s.mem.key n, s.mem.value n) := by
      unfold State.deletion
      rw [hpc]
    subst hhand
    rw [hop] at hfollows
    obtain rfl : l' = l := hfollows
    refine ⟨gone, none, fun x => ?_, ?_, ?_⟩
    · simp only [hpcs]
      constructor
      · intro hx
        cases hx
      rintro ⟨u, hu⟩
      by_cases hut : u = t
      · rw [if_pos hut, hpc'] at hu
        cases hu
      · rw [if_neg hut] at hu
        exact absurd (h.undeleted_unique hin hu) hut
    · rw [hr.order, hdeletion]
      simp
    · rw [hop]
      simpa using hr.balance
  · -- any other step leaves the hands alone
    have hdeletion : s.deletion t = none := by
      unfold State.deletion
      split
      · rename_i heq
        exact absurd heq (hpc _ _ _ _)
      · rfl
    refine ⟨gone, hand, fun x => ?_, ?_, ?_⟩
    · rw [hr.undeleted x]
      refine exists_congr fun u => ?_
      rw [hpcs u]
      by_cases hut : u = t
      · rw [if_pos hut, hut, hpc']
      · rw [if_neg hut]
    · rw [hdeletion, Option.toList_none, List.append_nil, hr.order]
      exact congrArg _ hkept.symm
    · generalize hlabel : Label.op ⟨t, s.pc t, move, act⟩ = op at hfollows hop
      cases op with
      | none =>
          obtain rfl : l' = l := hfollows
          simpa using hr.balance
      | some op =>
          cases hfollows with
          | @insert h k v hfresh =>
              rw [Option.toList_some, insertedPairs_insert]
              refine List.Perm.trans ?_ (hr.balance.append_right [(k, v)])
              rw [List.map_append, List.map_cons]
              refine List.perm_middle.trans ?_
              rw [← List.map_append]
              exact (List.perm_append_singleton _ _).symm
          | @evict e he => exact absurd rfl (hop e.handle)
          | find k =>
              rw [Option.toList_some, insertedPairs_find]
              exact hr.balance

/-! ## Runs -/

variable [Inhabited K] [Inhabited V] {trace : List (Label N K V T)}

/-- The log does not change what a run is. -/
theorem LoggedRun.run {ok : State N K V T → Label N K V T → Prop}
    (h : LoggedRun cfg ok s trace deleted) : Run cfg ok s trace := by
  induction h with
  | start => exact .start
  | step _ hstep hok ih => exact ih.step hstep hok

theorem LoggedRun.recorded (h : LoggedRun cfg PopsUnused s trace deleted) :
    ∃ g l gone hand, Inv cfg s g ∧ Tabled cfg s g l ∧ Replays (trace.filterMap Label.op) l ∧
      Recorded s (trace.filterMap Label.op) l gone deleted hand := by
  induction h with
  | start => exact ⟨_, _, _, _, .initial cfg, .initial, .empty, .initial⟩
  | step _ hstep hok ih =>
      obtain ⟨g, l, gone, hand, hinv, htabled, hreplays, hrecorded⟩ := ih
      obtain ⟨pc', hnext, rfl⟩ := step_eq hstep
      obtain ⟨g', hinv', -⟩ := hinv.step hnext fun n hn => (hinv.unused_iff n).1 (hok n hn)
      obtain ⟨l', hfollows, htabled'⟩ := htabled.step hinv hnext hinv'
      obtain ⟨gone', hand', hrecorded'⟩ :=
        hrecorded.step hinv hnext hreplays.nodup htabled.parts hfollows
      rw [filterMap_concat]
      exact ⟨g', l', gone', hand', hinv', htabled', hreplays.follow hfollows, hrecorded'⟩

/-- **Every inserted pair is deleted exactly once.** If every popped node is unused, then in every
    state with no call running, the pairs that purges have handed to `onDelete`, together with those
    that one or more calls of `releaseMemory` hand to it, are the pairs inserted. -/
theorem LoggedRun.deletes_all (h : LoggedRun cfg PopsUnused s trace deleted)
    (hrest : ∀ t, (s.pc t).atRest = true) (calls : ℕ) :
    ∃ released, (∀ fuel, N < fuel →
        releaseRepeatedly fuel s.mem (calls + 1) cfg.bucketCount = some released) ∧
      (deleted ++ released).Perm (Table.insertedPairs (trace.filterMap Label.op)) := by
  obtain ⟨g, l, gone, hand, hinv, htabled, hreplays, hrecorded⟩ := h.recorded
  have hhand : hand = none := by
    cases hand with
    | none => rfl
    | some n =>
        obtain ⟨u, hu⟩ := (hrecorded.undeleted n).1 rfl
        rw [PC.atRest.undeleted (hrest u)] at hu
        cases hu
  subst hhand
  refine ⟨((List.range cfg.bucketCount).flatMap g.bucket).map (fun n => (s.mem.key n, s.mem.value n)),
    fun fuel hfuel => ?_, ?_⟩
  · rw [releaseRepeatedly, releaseMemory_chains hinv.buckets.chain hfuel]
    simp [releaseRepeatedly_zero]
  · have hbalance := hrecorded.balance
    rw [List.map_append, hrecorded.order, Option.toList_none, List.map_nil, List.append_nil] at hbalance
    exact (List.Perm.append_left _ (htabled.parts.pairs hreplays.nodup cfg.keyToBucketNr_lt)).trans
      hbalance

/-- The third insertion of thread 1 evicts the first pair, while thread 2 looks for the second. -/
theorem LoggedRun.deletes_all_evicted : ∃ (s : State 2 ℕ ℕ (Fin 3)) (trace : List (Label 2 ℕ ℕ (Fin 3)))
    (deleted : List (ℕ × ℕ)), LoggedRun twoNodes PopsUnused s trace deleted ∧
      trace.filterMap Label.op =
        [.insert 0 1 10, .insert 1 2 20, .evict 0, .find 2 (some 20), .insert 0 3 30] ∧
      ∃ released, (∀ fuel, 2 < fuel →
          releaseRepeatedly fuel s.mem (1 + 1) twoNodes.bucketCount = some released) ∧
        (deleted ++ released).Perm (Table.insertedPairs (trace.filterMap Label.op)) := by
  obtain ⟨s, trace, hrun, hgood⟩ := Run.of_play twoNodes PopsPooled linkUnchanged
    popsPooled_of_linkUnchanged
    ((1, .call (.insert 1 10)) :: goes 1 19 ++ (1, .call (.insert 2 20)) :: goes 1 19 ++
      (1, .call (.insert 3 30)) :: goes 1 17 ++ (2, .call (.find 2)) :: goes 2 13 ++ goes 1 37)
    (fun (s : State 2 ℕ ℕ (Fin 3)) trace => (∀ t, (s.pc t).atRest = true) ∧ trace.filterMap Label.op =
      [.insert 0 1 10, .insert 1 2 20, .evict 0, .find 2 (some 20), .insert 0 3 30])
    (by decide +kernel)
  obtain ⟨hrest, hops⟩ := of_decide_eq_true hgood
  obtain ⟨-, -, -, -, hunused⟩ := hrun.pooled
  obtain ⟨deleted, hlog⟩ := hunused.logged
  exact ⟨s, trace, deleted, hlog, hops, hlog.deletes_all hrest 1⟩

end DeferredLru.Threads
