import DeferredLru.Lib.Tally
import DeferredLru.Threads.Lists

set_option autoImplicit false

/-! # The cache at rest

`PopsPooled` keeps the pool a list of free nodes, but a pop may still skip some of them. If every pop
makes the link that the popped node has now the head (`PopsFresh`), so that no thread was fooled by a
node that had left the pool and come back, no node is lost: what is not on the pool is in the LRU list
or in the hands of a thread. And `current_element_count_` counts the nodes that are not on the pool,
but for the threads that are between the two (`CountInv`).

With no call running the memory then is one that the sequential code works on: the lists of `Links`
hold every node, and the counter is the length of the LRU list (`Run.resting_shape`). -/

namespace DeferredLru.Threads

open Intrusive

variable {N : ℕ} {K V T : Type} {cfg : Config N K} {s : State N K V T} {g g' : Ghost N T} {t : T}
  {n : Fin N} {pool : List (Fin N)} {act : Act N K V} {pc pc' : PC N K V} {fails : Bool}
  {move : Move K V}

/-! ## Fresh pops -/

/-- The pointer that a pop makes the head of the pool is the link of the popped node. -/
def PopsFresh (s : State N K V T) (l : Label N K V T) : Prop :=
  ∀ n e, l.deed = .pop n → l.act = .setEmptyHead e → e = s.mem.lruNext (.node n)

theorem popsFresh_of_linkUnchanged (s : State N K V T) (l : Label N K V T)
    (h : linkUnchanged s l = true) : PopsFresh s l := by
  intro n e hdeed hact
  unfold linkUnchanged at h
  rw [hdeed, hact] at h
  cases e with
  | null => exact (of_decide_eq_true h).symm
  | node x => exact (of_decide_eq_true h).symm
  | _ => cases h

/-- The pool holds the free nodes. -/
structure PoolExact (m : Mem N K V) (g : Ghost N T) (pool : List (Fin N)) : Prop extends
    PoolInv m g pool where
  all : ∀ n, g.status n = .rest .free → n ∈ pool

theorem PoolExact.initial [Inhabited K] [Inhabited V] :
    PoolExact (initial N K V T).mem (.initial N T) (List.finRange N) :=
  ⟨PoolInv.initial, fun n _ => List.mem_finRange n⟩

/-- The pool after the deed. -/
def Deed.onPool (l : List (Fin N)) : Deed N → List (Fin N)
  | .pop _ => l.tail
  | .dispose n => n :: l
  | _ => l

/-- Only writes of the pool head change the pool. -/
theorem Label.deed_onPool (hact : ∀ e, act ≠ .setEmptyHead e) (l : List (Fin N)) :
    (Label.deed ⟨t, pc, move, act⟩).onPool l = l := by
  unfold Label.deed
  split <;> first | rfl | (rename_i heq; cases heq; exact absurd rfl (hact _))

section Steps

variable [DecidableEq K]

/-- **A step** takes the first node off the pool, puts one in front, or leaves it alone. -/
theorem PoolExact.step (hp : PoolExact s.mem g pool) (h : Inv cfg s g)
    (hnext : next cfg s (s.pc t) move = some (act, pc'))
    (he : Effect (Label.deed ⟨t, s.pc t, move, act⟩) g g')
    (hok : PopsFresh s ⟨t, s.pc t, move, act⟩) :
    PoolExact (act.onMem s.mem) g' ((Label.deed ⟨t, s.pc t, move, act⟩).onPool pool) := by
  by_cases hact : ∃ e, act = .setEmptyHead e
  · obtain ⟨e, rfl⟩ := hact
    rcases next_site hnext with ⟨consume, k, v, n, hpc, hhead⟩ | ⟨back, n, link, freed, hpc, rfl⟩
    · -- a pop
      have hdeed : Label.deed ⟨t, s.pc t, move, .setEmptyHead e⟩ = .pop n := by rw [hpc]; rfl
      rw [hdeed] at he ⊢
      have hchain := hp.chain
      rw [hhead] at hchain
      cases pool with
      | nil => cases hchain
      | cons y rest =>
          obtain rfl := Ptr.node_injective hchain.1
          have hdup := List.nodup_cons.1 (Chain.nodup Ptr.node_injective (by simp) hchain)
          refine ⟨⟨?_, fun x hx => (he.free x).2 ⟨hp.free x (List.mem_cons_of_mem _ hx), ?_⟩⟩,
            fun x hx => ?_⟩
          · rw [hok n e hdeed rfl]
            exact hchain.2
          · rintro rfl
            exact hdup.1 hx
          · obtain ⟨hfree, hne⟩ := (he.free x).1 hx
            exact (List.mem_cons.1 (hp.all x hfree)).resolve_left hne
    · -- a disposal
      have hdeed : Label.deed ⟨t, s.pc t, move, .setEmptyHead (.node n)⟩ = .dispose n := by
        rw [hpc]
        rfl
      rw [hdeed] at he ⊢
      obtain ⟨-, -, -, hlink⟩ := h.purge_inv hpc
      refine ⟨⟨⟨rfl, ?_⟩, fun x hx => (he.free x).2 ?_⟩, fun x hx => ?_⟩
      · show Chain _ _ (s.mem.lruNext (.node n)) pool _
        rw [show s.mem.lruNext (.node n) = s.mem.emptyHead from hlink]
        exact hp.chain
      · rcases List.mem_cons.1 hx with rfl | hx
        · exact Or.inl rfl
        · exact Or.inr (hp.free x hx)
      · rcases (he.free x).1 hx with rfl | hfree
        · exact List.mem_cons_self ..
        · exact List.mem_cons_of_mem _ (hp.all x hfree)
  · -- any other step
    have hact' : ∀ e, act ≠ .setEmptyHead e := fun e he => hact ⟨e, he⟩
    have hfree : ∀ x, g'.status x = .rest .free ↔ g.status x = .rest .free := fun x =>
      (he.free x).trans (Label.deed_free hact' _)
    rw [Label.deed_onPool hact']
    refine ⟨⟨?_, fun x hx => (hfree x).2 (hp.free x hx)⟩, fun x hx => hp.all x ((hfree x).1 hx)⟩
    have hhead : (act.onMem s.mem).emptyHead = s.mem.emptyHead := by
      cases act with
      | setEmptyHead e => exact absurd rfl (hact' e)
      | _ => rfl
    rw [hhead]
    refine hp.chain.congr fun x hx => ?_
    cases act with
    | setNext p q =>
        refine Function.update_of_ne ?_ _ _
        rintro rfl
        exact h.setNext_not_free hnext (hp.free x hx)
    | _ => rfl

end Steps

/-! ## The element counter -/

/-- The thread has counted the node that it inserts, and not yet got one. -/
def PC.allocating : PC N K V → Bool
  | .insert _ _ _ (.allocate _) => true
  | .consolidate (.insert _ _ _) _ => true
  | _ => false

/-- The thread has evicted a node and counted it off, and not yet put it in the pool. -/
def PC.disposing : PC N K V → Bool
  | .consolidate _ (.purge (.dispose _ _ _ _)) => true
  | _ => false

/-- What the access adds to the element counter. -/
def Act.up : Act N K V → ℕ
  | .countUp => 1
  | _ => 0

/-- What the access takes off the element counter. -/
def Act.down : Act N K V → ℕ
  | .countDown => 1
  | _ => 0

/-- How many nodes the deed takes from the pool. -/
def Deed.popped : Deed N → ℕ
  | .pop _ => 1
  | _ => 0

/-- How many nodes the deed puts in the pool. -/
def Deed.disposed : Deed N → ℕ
  | .dispose _ => 1
  | _ => 0

/-- How a step changes who is counted early and who late, by what it does to the counter and to the
    pool. -/
structure TallyStep (pc pc' : PC N K V) (act : Act N K V) (d : Deed N) : Prop where
  early : pc'.allocating.toNat + d.popped = pc.allocating.toNat + act.up
  late : pc'.disposing.toNat + d.disposed = pc.disposing.toNat + act.down
  down : act.down = 0 ∨ ∃ back n next freed, pc = .consolidate back (.purge (.count n next freed))

/-- The access neither counts nor touches the pool. -/
theorem TallyStep.other {d : Deed N} (halloc : pc'.allocating = pc.allocating)
    (hdispose : pc'.disposing = pc.disposing) (hact : act.up = 0 ∧ act.down = 0)
    (hd : d.popped = 0 ∧ d.disposed = 0) : TallyStep pc pc' act d :=
  ⟨by rw [halloc, hact.1, hd.1], by rw [hdispose, hact.2, hd.2], Or.inl hact.2⟩

theorem afterFind_tally (producer : Option V) (k : K) (r : Option V) :
    (afterFind producer k r : PC N K V).allocating = false ∧
      (afterFind producer k r : PC N K V).disposing = false := by
  cases producer <;> cases r <;> exact ⟨rfl, rfl⟩

theorem Back.pc_tally (back : Back K V) (p : ConsolidatePC N) :
    (back.pc : PC N K V).allocating = (PC.consolidate back p).allocating ∧
      (back.pc : PC N K V).disposing = false := by
  cases back with
  | request => exact ⟨rfl, rfl⟩
  | find producer k r => exact afterFind_tally producer k r
  | insert consume k v => exact ⟨rfl, rfl⟩

theorem PC.allocating_consolidate (back : Back K V) (p q : ConsolidatePC N) :
    (PC.consolidate back p).allocating = (PC.consolidate back q).allocating := by
  cases back <;> rfl

theorem allocateAt_tally (consume : Bool) (k : K) (v : V) (p : Ptr N) :
    (allocateAt consume k v p).allocating = true ∧ (allocateAt consume k v p).disposing = false := by
  cases p <;> exact ⟨rfl, rfl⟩

theorem purgeAt_disposing (back : Back K V) (node : Ptr N) (freed : ℕ) :
    (purging back (purgeAt cfg node freed)).disposing = false := by
  unfold purgeAt
  split_ifs <;> rfl

theorem purging_allocating (back : Back K V) (p : ConsolidatePC N) (q : Option (PurgePC N)) :
    (purging back q).allocating = (PC.consolidate back p).allocating := by
  cases q <;> exact PC.allocating_consolidate ..

theorem Label.popped_eq_zero (h : ∀ consume k v p, pc ≠ .insert consume k v (.allocate p)) :
    (Label.deed ⟨t, pc, move, act⟩).popped = 0 := by
  unfold Label.deed
  split <;> first | rfl | (rename_i heq; cases heq; exact absurd rfl (h _ _ _ _))

theorem Label.disposed_eq_zero (h : pc.disposing = false) :
    (Label.deed ⟨t, pc, move, act⟩).disposed = 0 := by
  unfold Label.deed
  split <;> first | rfl | (rename_i heq; cases heq; cases h)

/-- The access is none of the counter. -/
def Act.counts : Act N K V → Bool
  | .countUp => true
  | .countDown => true
  | _ => false

theorem Act.up_down (h : act.counts = false) : act.up = 0 ∧ act.down = 0 := by
  cases act <;> first | exact ⟨rfl, rfl⟩ | cases h

theorem nextAdd_counts {m : Mem N K V} {first last : Ptr N} {p : AddPC N} {p' : Option (AddPC N)}
    (h : nextAdd m fails first last p = some (act, p')) : act.counts = false := by
  cases p <;> simp only [nextAdd] at h <;> (try split_ifs at h) <;> cases h <;> rfl

theorem nextUnlink_counts {m : Mem N K V} {p : UnlinkPC N} {p' : Option (UnlinkPC N)}
    (h : nextUnlink m n p = some (act, p')) : act.counts = false := by
  cases p <;> simp only [nextUnlink] at h <;> (try split_ifs at h) <;> cases h <;> rfl

theorem nextMark_counts {m : Mem N K V} {p : MarkPC N} {p' : Option (MarkPC N)}
    (h : nextMark m fails n p = some (act, p')) : act.counts = false := by
  cases p <;> simp only [nextMark] at h <;> (try split_ifs at h) <;> cases h <;> rfl

theorem nextLink_counts {p : LinkPC N} {p' : Option (LinkPC N)}
    (h : nextLink cfg s n p = some (act, p')) : act.counts = false := by
  cases p <;> simp only [nextLink] at h <;> (try split_ifs at h) <;> cases h <;> rfl

theorem nextRemove_counts {p : RemovePC N} {p' : RemovePC N ⊕ Bool}
    (h : nextRemove cfg s n p = some (act, p')) : act.counts = false := by
  cases p <;> simp only [nextRemove] at h <;> (try split_ifs at h) <;> cases h <;> rfl

theorem nextPull_counts {m : Mem N K V} {p : PullPC N} {p' : Option (PullPC N)}
    (h : nextPull m fails p = some (act, p')) : act.counts = false := by
  cases p with
  | prev current last =>
      cases current <;> cases h
      rfl
  | unlink n last p =>
      obtain ⟨⟨a, q⟩, hq, heq⟩ := Option.map_eq_some_iff.1 h
      cases heq
      exact nextUnlink_counts hq
  | appendNext n last =>
      simp only [nextPull] at h
      split_ifs at h
      cases h
      rfl
  | add first last p =>
      obtain ⟨⟨a, q⟩, hq, heq⟩ := Option.map_eq_some_iff.1 h
      cases heq
      exact nextAdd_counts hq
  | _ =>
      cases h
      rfl

/-- A step of `consolidateCache` that neither counts nor disposes. -/
theorem tally_consolidate {back : Back K V} {p : ConsolidatePC N} (t : T) (move : Move K V)
    (halloc : pc'.allocating = (PC.consolidate back p).allocating)
    (hold : (PC.consolidate back p).disposing = false) (hnew : pc'.disposing = false)
    (hact : act.counts = false) :
    TallyStep (.consolidate back p) pc' act (Label.deed ⟨t, .consolidate back p, move, act⟩) :=
  .other halloc (hnew.trans hold.symm) (Act.up_down hact)
    ⟨Label.popped_eq_zero (by simp), Label.disposed_eq_zero hold⟩

theorem nextPurge_tally {back : Back K V} {p : PurgePC N} {p' : Option (PurgePC N)}
    (h : nextPurge cfg s fails p = some (act, p')) (t : T) :
    TallyStep (.consolidate back (.purge p)) (purging back p') act
      (Label.deed ⟨t, .consolidate back (.purge p), .go fails, act⟩) := by
  have halloc := purging_allocating back (.purge p) p'
  cases p with
  | tail =>
      cases h
      exact tally_consolidate t _ halloc rfl (purgeAt_disposing ..) rfl
  | prev node freed =>
      cases node <;> cases h
      refine tally_consolidate t _ halloc rfl ?_ rfl
      split_ifs <;> rfl
  | test n next freed =>
      cases h
      refine tally_consolidate t _ halloc rfl ?_ rfl
      cases s.mem.markedRecent n with
      | true => exact purgeAt_disposing ..
      | false => rfl
  | bucket n next freed p =>
      obtain ⟨⟨a, q⟩, hq, heq⟩ := Option.map_eq_some_iff.1 h
      cases heq
      refine tally_consolidate t _ halloc rfl ?_ (nextRemove_counts hq)
      rcases q with q | removed
      · rfl
      · cases removed with
        | true => rfl
        | false => exact purgeAt_disposing ..
  | unlink n next freed p =>
      obtain ⟨⟨a, q⟩, hq, heq⟩ := Option.map_eq_some_iff.1 h
      cases heq
      refine tally_consolidate t _ halloc rfl ?_ (nextUnlink_counts hq)
      cases q <;> rfl
  | onDelete n next freed =>
      cases h
      exact tally_consolidate t _ halloc rfl rfl rfl
  | count n next freed =>
      -- the node is counted off before it is in the pool
      cases h
      exact ⟨by rw [halloc]; rfl, rfl, Or.inr ⟨back, n, next, freed, rfl⟩⟩
  | dispose n next freed p =>
      obtain ⟨⟨a, q⟩, hq, heq⟩ := Option.map_eq_some_iff.1 h
      cases heq
      cases p with
      | cas link =>
          simp only [nextDispose] at hq
          split_ifs at hq
          · cases hq
            refine ⟨by rw [halloc]; rfl, ?_, Or.inl rfl⟩
            show (purging back (purgeAt cfg next (freed + 1))).disposing.toNat + 1 = 1
            rw [purgeAt_disposing]
            rfl
          · cases hq
            exact ⟨by rw [halloc]; rfl, rfl, Or.inl rfl⟩
      | _ =>
          cases hq
          exact ⟨by rw [halloc]; rfl, rfl, Or.inl rfl⟩

theorem nextConsolidate_tally {back : Back K V} {p : ConsolidatePC N}
    (h : nextConsolidate cfg s fails back p = some (act, pc')) (t : T) :
    TallyStep (.consolidate back p) pc' act
      (Label.deed ⟨t, .consolidate back p, .go fails, act⟩) := by
  have halloc := PC.allocating_consolidate (N := N) back
  cases p with
  | purge p =>
      obtain ⟨⟨a, q⟩, hq, heq⟩ := Option.map_eq_some_iff.1 h
      cases heq
      have hstep : TallyStep _ (purging back q) _ _ := nextPurge_tally hq t
      cases q <;> exact hstep
  | pull p =>
      obtain ⟨⟨a, q⟩, hq, heq⟩ := Option.map_eq_some_iff.1 h
      cases heq
      refine tally_consolidate t _ ?_ rfl ?_ (nextPull_counts hq)
      · cases q <;> exact halloc ..
      · cases q <;> rfl
  | tryLock =>
      simp only [nextConsolidate] at h
      split_ifs at h <;> cases h
      · exact tally_consolidate t _ (halloc ..) rfl rfl rfl
      · obtain ⟨hback, hback'⟩ := Back.pc_tally (N := N) back .tryLock
        exact tally_consolidate t _ hback rfl hback' rfl
  | testPurge =>
      cases h
      refine tally_consolidate t _ (halloc ..) rfl ?_ rfl
      cases s.mem.purgeRequest <;> rfl
  | testPull =>
      cases h
      refine tally_consolidate t _ (halloc ..) rfl ?_ rfl
      cases s.mem.pullRequest <;> rfl
  | unlock =>
      cases h
      obtain ⟨hback, hback'⟩ := Back.pc_tally (N := N) back .unlock
      exact tally_consolidate t _ hback rfl hback' rfl
  | _ =>
      cases h
      exact tally_consolidate t _ (halloc ..) rfl rfl rfl

theorem nextInsert_tally {consume : Bool} {k : K} {v : V} {p : InsertPC N}
    (h : nextInsert cfg s fails consume k v p = some (act, pc')) (t : T) :
    TallyStep (.insert consume k v p) pc' act
      (Label.deed ⟨t, .insert consume k v p, .go fails, act⟩) := by
  cases p with
  | count =>
      cases h
      exact ⟨rfl, rfl, Or.inl rfl⟩
  | allocate p =>
      cases p with
      | load =>
          cases h
          obtain ⟨halloc, hdispose⟩ := allocateAt_tally consume k v s.mem.emptyHead
          exact ⟨by rw [halloc]; rfl, by rw [hdispose]; rfl, Or.inl rfl⟩
      | loadNext node =>
          simp only [nextInsert] at h
          split_ifs at h
          cases h
          exact ⟨rfl, rfl, Or.inl rfl⟩
      | cas node link =>
          simp only [nextInsert] at h
          split_ifs at h
          · cases node <;> cases h
            exact ⟨rfl, rfl, Or.inl rfl⟩
          · cases h
            obtain ⟨halloc, hdispose⟩ := allocateAt_tally consume k v s.mem.emptyHead
            refine ⟨?_, by rw [hdispose, Label.disposed_eq_zero rfl]; rfl, Or.inl rfl⟩
            rw [halloc]
            cases node <;> rfl
  | bucket n p =>
      obtain ⟨⟨a, q⟩, hq, heq⟩ := Option.map_eq_some_iff.1 h
      cases heq
      have hzero : (Label.deed ⟨t, .insert consume k v (.bucket n p), .go fails, act⟩).popped = 0 ∧
          (Label.deed ⟨t, .insert consume k v (.bucket n p), .go fails, act⟩).disposed = 0 :=
        ⟨Label.popped_eq_zero (by simp), Label.disposed_eq_zero rfl⟩
      cases q <;> exact .other rfl rfl (Act.up_down (nextLink_counts hq)) hzero
  | add n p =>
      obtain ⟨⟨a, q⟩, hq, heq⟩ := Option.map_eq_some_iff.1 h
      cases heq
      have hzero : (Label.deed ⟨t, .insert consume k v (.add n p), .go fails, act⟩).popped = 0 ∧
          (Label.deed ⟨t, .insert consume k v (.add n p), .go fails, act⟩).disposed = 0 :=
        ⟨Label.popped_eq_zero (by simp), Label.disposed_eq_zero rfl⟩
      cases q <;> exact .other rfl rfl (Act.up_down (nextAdd_counts hq)) hzero
  | reset n =>
      cases h
      cases consume <;> exact ⟨rfl, rfl, Or.inl rfl⟩
  | _ =>
      cases h
      exact ⟨rfl, rfl, Or.inl rfl⟩

section Steps

variable [DecidableEq K]

theorem nextFind_tally {producer : Option V} {k : K} {p : FindPC N V}
    (h : nextFind cfg s fails producer k p = some (act, pc')) (t : T) :
    TallyStep (.find producer k p) pc' act
      (Label.deed ⟨t, .find producer k p, .go fails, act⟩) := by
  have hzero : ∀ a, (Label.deed ⟨t, .find producer k p, .go fails, a⟩).popped = 0 ∧
      (Label.deed ⟨t, .find producer k p, .go fails, a⟩).disposed = 0 := fun a =>
    ⟨Label.popped_eq_zero (by simp), Label.disposed_eq_zero rfl⟩
  cases p with
  | lock =>
      simp only [nextFind] at h
      split_ifs at h
      cases h
      exact .other rfl rfl ⟨rfl, rfl⟩ (hzero _)
  | mark n r p =>
      obtain ⟨⟨a, q⟩, hq, heq⟩ := Option.map_eq_some_iff.1 h
      cases heq
      cases q <;> exact .other rfl rfl (Act.up_down (nextMark_counts hq)) (hzero _)
  | threshold r =>
      cases h
      cases recentThresholdHit cfg s.mem with
      | true => exact .other rfl rfl ⟨rfl, rfl⟩ (hzero _)
      | false =>
          obtain ⟨halloc, hdispose⟩ := afterFind_tally (N := N) producer k r
          exact .other halloc hdispose ⟨rfl, rfl⟩ (hzero _)
  | _ =>
      cases h
      exact .other rfl rfl ⟨rfl, rfl⟩ (hzero _)

theorem next_tally (h : next cfg s pc move = some (act, pc')) (t : T) :
    TallyStep pc pc' act (Label.deed ⟨t, pc, move, act⟩) := by
  cases next_transition h with
  | call hidle c => rcases hidle with rfl | ⟨k, v, rfl⟩ <;> cases c <;> exact ⟨rfl, rfl, Or.inl rfl⟩
  | find hfind => exact nextFind_tally hfind t
  | insert hinsert => exact nextInsert_tally hinsert t
  | consolidate hconsolidate => exact nextConsolidate_tally hconsolidate t

end Steps

/-- The counter counts the nodes that are not on the pool, an inserted one early and an evicted one
    late. -/
def Counted (s : State N K V T) (pool : List (Fin N)) : Prop :=
  ∃ early late, Counts PC.allocating s.pc early ∧ Counts PC.disposing s.pc late ∧
    s.mem.currentElementCount + late + pool.length = early + N

theorem Counted.initial [Inhabited K] [Inhabited V] :
    Counted (initial N K V T) (List.finRange N) :=
  ⟨0, 0, .zero fun _ => rfl, .zero fun _ => rfl, by simp [Threads.initial, allocateMemory]⟩

theorem onMem_count (act : Act N K V) (m : Mem N K V) (h : act.down ≤ m.currentElementCount) :
    (act.onMem m).currentElementCount + act.down = m.currentElementCount + act.up := by
  cases act with
  | countDown => exact Nat.sub_add_cancel h
  | _ => rfl

theorem PoolExact.length_lt (hp : PoolExact s.mem g pool) (hn : g.status n ≠ .rest .free) :
    pool.length < N := by
  have hdup : (n :: pool).Nodup := List.nodup_cons.2
    ⟨fun hm => hn (hp.free n hm), Chain.nodup Ptr.node_injective (by simp) hp.chain⟩
  exact length_le_capacity hdup

/-! ## No call is running -/

theorem Inv.quiet_of_atRest (h : Inv cfg s g) (hrest : ∀ t, (s.pc t).atRest = true) : g.quiet := by
  refine h.quiet ?_
  cases hl : s.lruLock with
  | none => rfl
  | some t =>
      have hin := (h.locks.lru t).2 hl
      generalize s.pc t = pc, hrest t = hpc at hin
      cases pc <;> first | cases hin | cases hpc

/-- Every node is on the pool or in the LRU list. -/
theorem Inv.resting_of_atRest (h : Inv cfg s g) (hrest : ∀ t, (s.pc t).atRest = true) (n : Fin N) :
    g.status n = .rest .free ∨ g.status n = .rest .resident := by
  cases hs : g.status n with
  | held t x =>
      have hv := h.status.view_eq hs
      rw [(PC.atRest.detached (hrest t)).holds] at hv
      cases hv
  | rest p =>
      cases p with
      | free => exact Or.inl rfl
      | resident => exact Or.inr rfl
      | temp =>
          have htemp := (h.lru.temp n).2 hs
          rw [(h.quiet_of_atRest hrest).2] at htemp
          cases htemp

/-- A marked node is on the Recent list. -/
theorem Inv.marked_of_atRest (h : Inv cfg s g) (hrest : ∀ t, (s.pc t).atRest = true) (n : Fin N) :
    s.mem.recentNext n ≠ .null ↔ n ∈ g.recent := by
  rw [h.recent.marked n, h.recent.recent n]
  cases hr : g.role n with
  | held t x =>
      have hv := h.role.view_eq hr
      rw [(PC.atRest.detached (hrest t)).marks] at hv
      cases hv
  | rest p =>
      cases p with
      | unmarked => exact iff_of_false id (by simp)
      | recent => exact iff_of_true trivial rfl
      | slice =>
          have hslice := (h.recent.slice n).2 hr
          rw [(h.quiet_of_atRest hrest).1] at hslice
          cases hslice

section Steps

variable [DecidableEq K] [DecidableEq T]

/-- **One step** keeps the count. -/
theorem Counted.step (hc : Counted s pool) (h : Inv cfg s g) (hp : PoolExact s.mem g pool)
    (hnext : next cfg s (s.pc t) move = some (act, pc'))
    (hpool : (Label.deed ⟨t, s.pc t, move, act⟩).popped ≤ pool.length) :
    Counted (s.apply t act pc') ((Label.deed ⟨t, s.pc t, move, act⟩).onPool pool) := by
  obtain ⟨early, late, hearly, hlate, hcount⟩ := hc
  obtain ⟨hstep₁, hstep₂, hdown⟩ := next_tally hnext t
  obtain ⟨early', hearly', heq₁⟩ := hearly.update t pc'
  obtain ⟨late', hlate', heq₂⟩ := hlate.update t pc'
  have hlength : ((Label.deed ⟨t, s.pc t, move, act⟩).onPool pool).length +
      (Label.deed ⟨t, s.pc t, move, act⟩).popped =
        pool.length + (Label.deed ⟨t, s.pc t, move, act⟩).disposed := by
    generalize Label.deed ⟨t, s.pc t, move, act⟩ = d at hpool
    cases d with
    | pop n =>
        show pool.tail.length + 1 = pool.length
        rw [List.length_tail]
        exact Nat.sub_add_cancel hpool
    | dispose n => rfl
    | _ => rfl
  -- the thread that counts down holds the node it has counted
  have hle : act.down ≤ s.mem.currentElementCount := by
    rcases hdown with hzero | ⟨back, n, next, freed, hpc⟩
    · rw [hzero]
      exact Nat.zero_le _
    · have hheld := h.held (t := t) (n := n) (x := .evicted) (by rw [hpc]; rfl)
      have hlt := hp.length_lt (n := n) (by rw [hheld]; simp)
      have hin : (s.pc t).inside = true := by rw [hpc]; rfl
      have hnobody : late = 0 := hlate.eq_zero fun u => by
        cases hu : (s.pc u).disposing with
        | false => rfl
        | true =>
            have hinu : (s.pc u).inside = true := by
              generalize s.pc u = pcu at hu
              unfold PC.disposing at hu
              split at hu <;> first | rfl | cases hu
            rw [h.locks.inside_unique hinu hin, hpc] at hu
            cases hu
      have hone : act.down ≤ 1 := by cases act <;> simp [Act.down]
      omega
  have hmem := onMem_count act s.mem hle
  refine ⟨early', late', hearly', hlate', ?_⟩
  show (act.onMem s.mem).currentElementCount + _ + _ = _
  omega

end Steps

/-! ## Runs -/

variable [DecidableEq K] [DecidableEq T] [Inhabited K] [Inhabited V] {trace : List (Label N K V T)}

theorem Run.exact (h : Run cfg PopsFresh s trace) :
    ∃ g pool, Inv cfg s g ∧ PoolExact s.mem g pool ∧ Counted s pool := by
  induction h with
  | start => exact ⟨_, _, .initial cfg, .initial, .initial⟩
  | @step s s' trace t move act _ hstep hok ih =>
      obtain ⟨g, pool, hinv, hpool, hcounted⟩ := ih
      obtain ⟨pc', hnext, rfl⟩ := step_eq hstep
      have hfree := fun n => hpool.popped_free (n := n) hnext
      obtain ⟨g', hinv', he⟩ := hinv.step hnext hfree
      refine ⟨g', _, hinv', hpool.step hinv hnext he hok, hcounted.step hinv hpool hnext ?_⟩
      cases hd : Label.deed ⟨t, s.pc t, move, act⟩ with
      | pop n => exact List.length_pos_of_mem (hpool.all n (hfree n hd))
      | _ => exact Nat.zero_le _

/-- **At rest.** If every pop makes the popped node's own link the head of the pool, then in every
    state with no call running the memory holds four intact lists, every node is on the pool or in the
    LRU list, and `current_element_count_` is the length of the LRU list. -/
theorem Run.resting_shape (h : Run cfg PopsFresh s trace) (hrest : ∀ t, (s.pc t).atRest = true) :
    ∃ a : Lists N, Links cfg s.mem a ∧ (∀ n, n ∈ a.pool ∨ n ∈ a.lru) ∧
      s.mem.currentElementCount = a.lru.length := by
  obtain ⟨g, pool, hinv, hpool, early, late, hearly, hlate, hcount⟩ := h.exact
  have hstatus := hinv.resting_of_atRest hrest
  have hlru : ∀ n, n ∈ g.lru ↔ g.status n = .rest .resident := by
    intro n
    rw [hinv.lru.mem n]
    rcases hstatus n with hs | hs <;> simp [hs, Status.inLru]
  have htotal : ∀ n, n ∈ pool ∨ n ∈ g.lru := fun n =>
    (hstatus n).imp (hpool.all n) (hlru n).2
  have hdisjoint : ∀ n ∈ pool, n ∉ g.lru := fun n hn hl => hinv.listed_not_free hl (hpool.free n hn)
  refine ⟨⟨g.lru, g.recent, pool, g.bucket⟩, ⟨⟨hinv.lru.linked, fun c => hinv.back_of_atRest hrest⟩,
    hpool.chain, hinv.recent.chain, hinv.marked_of_atRest hrest, fun n hn => (hlru n).2 ?_, hdisjoint,
    hinv.buckets.chain, fun b n => ?_⟩, htotal, ?_⟩
  · have hcompatible := hinv.compatible n
    rw [(hinv.recent.recent n).1 hn] at hcompatible
    rcases hstatus n with hs | hs
    · rw [hs] at hcompatible
      exact absurd rfl hcompatible
    · exact hs
  · show n ∈ g.bucket b ↔ n ∈ g.lru ∧ _
    rw [hinv.buckets.mem b n, hlru n]
    rcases hstatus n with hs | hs <;> simp [hs, Status.inBucket]
  · -- the two lists share out the nodes
    have hperm : (pool ++ g.lru).Perm (List.finRange N) := by
      refine (List.perm_ext_iff_of_nodup ?_ (List.nodup_finRange N)).2 fun n => ?_
      · refine List.nodup_append.2 ⟨Chain.nodup Ptr.node_injective (by simp) hpool.chain,
          hinv.lru.nodup, fun x hx y hy hxy => hdisjoint x hx (hxy ▸ hy)⟩
      · simpa using htotal n
    have hlength := hperm.length_eq
    rw [List.length_append, List.length_finRange] at hlength
    have hearly₀ := hearly.eq_zero fun t => by
      generalize s.pc t = pc, hrest t = hpc
      cases pc <;> first | rfl | cases hpc
    have hlate₀ := hlate.eq_zero fun t => by
      generalize s.pc t = pc, hrest t = hpc
      cases pc <;> first | rfl | cases hpc
    show s.mem.currentElementCount = g.lru.length
    omega

/-- Two threads insert at the same time, the third key evicts the first. -/
theorem Run.resting_shape_evicted : ∃ s : State 2 ℕ ℕ (Fin 3), s.mem.lruNext .lruHead = .node 0 ∧
    ∃ a : Lists 2, Links twoNodes s.mem a ∧ (∀ n, n ∈ a.pool ∨ n ∈ a.lru) ∧
      s.mem.currentElementCount = a.lru.length := by
  obtain ⟨s, trace, hrun, hgood⟩ := Run.of_play twoNodes PopsFresh linkUnchanged
    popsFresh_of_linkUnchanged
    ((1, .call (.insert 1 10)) :: goes 1 8 ++ (2, .call (.insert 2 20)) :: goes 2 8 ++ goes 1 11 ++
      goes 2 11 ++ (1, .call (.insert 3 30)) :: goes 1 47)
    (fun (s : State 2 ℕ ℕ (Fin 3)) _ =>
      s.mem.lruNext .lruHead = .node 0 ∧ ∀ t, (s.pc t).atRest = true) (by decide +kernel)
  obtain ⟨hfirst, hrest⟩ := of_decide_eq_true hgood
  exact ⟨s, hfirst, hrun.resting_shape hrest⟩

end DeferredLru.Threads
