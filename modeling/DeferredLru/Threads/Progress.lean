import DeferredLru.Threads.Lists

set_option autoImplicit false

/-! # Every call can go on

A step of the machine is missing in two cases: a thread waits for a bucket lock, or it accesses memory
through a pointer that leads to no node, which has no defined behaviour in the source. The second
case does not occur: every pointer that a function stores through leads to a cell of a list it relies
on (`Inv.next_isSome`). The first one is never circular, since a thread that has a bucket locked waits
for no lock (`Inv.awaits_none`); so a call that waits, waits for a thread that can go on
(`Run.progress`). -/

namespace DeferredLru.Threads

open Intrusive

variable {N : ℕ} {K V T : Type} {cfg : Config N K} {s : State N K V T} {g : Ghost N T} {t : T}
  {n : Fin N} {back : Back K V}

/-! ## What a thread waits for -/

/-- The bucket whose lock `addNodeToBucket` takes next. -/
def LinkPC.awaits : LinkPC N → Option ℕ
  | .lock b => some b
  | _ => none

/-- The bucket whose lock `removeNodeFromBucket` takes next. -/
def RemovePC.awaits : RemovePC N → Option ℕ
  | .lock b => some b
  | _ => none

/-- The bucket whose lock the next access takes. -/
def PC.awaits (cfg : Config N K) : PC N K V → Option ℕ
  | .find _ k .lock => some (cfg.keyToBucketNr k)
  | .insert _ _ _ (.bucket _ p) => p.awaits
  | .consolidate _ (.purge (.bucket _ _ _ p)) => p.awaits
  | _ => none

/-- A thread that has a bucket locked waits for no other. -/
theorem PC.awaits_of_lockedBucket {pc : PC N K V} {b : ℕ} (h : pc.lockedBucket cfg = some b) :
    pc.awaits cfg = none := by
  cases pc with
  | find producer k p =>
      cases p with
      | lock => cases h
      | _ => rfl
  | insert consume k v p =>
      cases p with
      | bucket n p =>
          cases p with
          | lock b => cases h
          | _ => rfl
      | _ => rfl
  | consolidate back p =>
      cases p with
      | purge p =>
          cases p with
          | bucket n next freed p =>
              cases p with
              | lock b => cases h
              | _ => rfl
          | _ => rfl
      | _ => rfl
  | _ => rfl

theorem PC.atRest_of_lockedBucket {pc : PC N K V} {b : ℕ} (h : pc.lockedBucket cfg = some b) :
    pc.atRest = false := by
  cases pc with
  | idle => cases h
  | delivered k v => cases h
  | _ => rfl

/-! ## Pointers that were tested -/

/-- What the tests of the loops say about the pointer that the thread goes on with: `allocateNode` has
    seen that it is not null, `pullRecent` that the slice has not ended. -/
def PC.tested : PC N K V → Prop
  | .insert _ _ _ (.allocate (.loadNext p)) => ∃ n, p = .node n
  | .insert _ _ _ (.allocate (.cas p _)) => ∃ n, p = .node n
  | .consolidate _ (.pull (.prev current _)) => current ≠ .dummy
  | _ => True

theorem afterFind_tested (producer : Option V) (k : K) (r : Option V) :
    (afterFind producer k r : PC N K V).tested := by
  cases producer <;> cases r <;> trivial

theorem Back.pc_tested (back : Back K V) : (back.pc : PC N K V).tested := by
  cases back with
  | find producer k r => exact afterFind_tested producer k r
  | _ => trivial

theorem Call.pc_tested (c : Call K V) : (c.pc : PC N K V).tested := by
  cases c <;> trivial

theorem allocateAt_tested {p : Ptr N} (hp : p = .null ∨ ∃ n, p = .node n) (consume : Bool) (k : K)
    (v : V) : (allocateAt consume k v p).tested := by
  rcases hp with rfl | ⟨n, rfl⟩
  · trivial
  · exact ⟨n, rfl⟩

theorem pullAt_tested (back : Back K V) (current last : Ptr N) :
    (pulling back (pullAt current last)).tested := by
  unfold pullAt
  split_ifs with hend hempty
  · trivial
  · trivial
  · exact hend

/-- The pool head is null or leads to a node. -/
theorem PoolInv.head {pool : List (Fin N)} (h : PoolInv s.mem g pool) :
    s.mem.emptyHead = .null ∨ ∃ n, s.mem.emptyHead = .node n :=
  h.chain.start_mem.imp id fun ⟨n, _, hn⟩ => ⟨n, hn⟩

section Steps

variable {fails : Bool} {act : Act N K V} {pc' : PC N K V}

theorem nextInsert_tested {consume : Bool} {k : K} {v : V} {p : InsertPC N}
    (hhead : s.mem.emptyHead = .null ∨ ∃ n, s.mem.emptyHead = .node n)
    (hp : (PC.insert consume k v p).tested)
    (h : nextInsert cfg s fails consume k v p = some (act, pc')) : pc'.tested := by
  cases p with
  | allocate p =>
      cases p with
      | load =>
          cases h
          exact allocateAt_tested hhead ..
      | loadNext node =>
          simp only [nextInsert] at h
          split_ifs at h
          cases h
          exact hp
      | cas node link =>
          simp only [nextInsert] at h
          split_ifs at h
          · cases node <;> cases h
            trivial
          · cases h
            exact allocateAt_tested hhead ..
  | bucket n p =>
      obtain ⟨⟨a, q⟩, hq, heq⟩ := Option.map_eq_some_iff.1 h
      cases heq
      cases q <;> trivial
  | add n p =>
      obtain ⟨⟨a, q⟩, hq, heq⟩ := Option.map_eq_some_iff.1 h
      cases heq
      cases q <;> trivial
  | reset n =>
      cases h
      cases consume <;> trivial
  | _ =>
      cases h
      trivial

theorem nextPull_tested {p : PullPC N} {p' : Option (PullPC N)}
    (h : nextPull s.mem fails p = some (act, p')) : (pulling back p').tested := by
  cases p with
  | initHead slice =>
      cases h
      exact pullAt_tested ..
  | prev current last =>
      cases current with
      | node n =>
          cases h
          by_cases hfront : s.mem.lruPrev (.node n) = .lruHead
          · rw [if_pos hfront]
            trivial
          · rw [if_neg hfront]
            trivial
      | _ => cases h
  | skipStore n next last =>
      cases h
      exact pullAt_tested ..
  | takenStore n next =>
      cases h
      exact pullAt_tested ..
  | unlink n last p =>
      obtain ⟨⟨a, q⟩, hq, heq⟩ := Option.map_eq_some_iff.1 h
      cases heq
      cases q <;> trivial
  | appendNext n last =>
      simp only [nextPull] at h
      split_ifs at h
      cases h
      trivial
  | add first last p =>
      obtain ⟨⟨a, q⟩, hq, heq⟩ := Option.map_eq_some_iff.1 h
      cases heq
      cases q <;> trivial
  | _ =>
      cases h
      trivial

theorem nextConsolidate_tested {p : ConsolidatePC N}
    (h : nextConsolidate cfg s fails back p = some (act, pc')) : pc'.tested := by
  cases p with
  | tryLock =>
      simp only [nextConsolidate] at h
      split_ifs at h <;> cases h
      · trivial
      · exact Back.pc_tested back
  | testPurge =>
      cases h
      cases s.mem.purgeRequest <;> trivial
  | testPull =>
      cases h
      cases s.mem.pullRequest <;> trivial
  | purge p =>
      obtain ⟨⟨a, q⟩, hq, heq⟩ := Option.map_eq_some_iff.1 h
      cases heq
      cases q <;> trivial
  | pull p =>
      obtain ⟨⟨a, q⟩, hq, heq⟩ := Option.map_eq_some_iff.1 h
      cases heq
      have hpulling : (pulling back q).tested := nextPull_tested hq
      cases q with
      | none => trivial
      | some q => exact hpulling
  | unlock =>
      cases h
      exact Back.pc_tested back
  | _ =>
      cases h
      trivial

variable [DecidableEq K] {move : Move K V}

theorem nextFind_tested {producer : Option V} {k : K} {p : FindPC N V}
    (h : nextFind cfg s fails producer k p = some (act, pc')) : pc'.tested := by
  cases p with
  | lock =>
      simp only [nextFind] at h
      split_ifs at h
      cases h
      trivial
  | mark n r p =>
      obtain ⟨⟨a, q⟩, hq, heq⟩ := Option.map_eq_some_iff.1 h
      cases heq
      cases q <;> trivial
  | threshold r =>
      cases h
      cases hit : recentThresholdHit cfg s.mem with
      | true => trivial
      | false => exact afterFind_tested ..
  | _ =>
      cases h
      trivial

/-- What was tested stays tested until it is used, if the pool head leads to a node or is null. -/
theorem next_tested {pc : PC N K V}
    (hhead : s.mem.emptyHead = .null ∨ ∃ n, s.mem.emptyHead = .node n) (hp : pc.tested)
    (h : next cfg s pc move = some (act, pc')) : pc'.tested := by
  cases next_transition h with
  | call hpc c => exact Call.pc_tested c
  | find h => exact nextFind_tested h
  | insert h => exact nextInsert_tested hhead hp h
  | consolidate h => exact nextConsolidate_tested h

end Steps

/-! ## Accesses are defined -/

/-- The function can make its next access. -/
def Goes {α β : Type} (r : Option (α × β)) : Prop := ∃ a b, r = some (a, b)

theorem Goes.map {α β γ : Type} {r : Option (α × β)} (h : Goes r) (f : α × β → α × γ) :
    Goes (r.map f) := by
  obtain ⟨a, b, rfl⟩ := h
  exact ⟨(f (a, b)).1, (f (a, b)).2, rfl⟩

section Access

variable {fails : Bool}

theorem Goes.ite {α β : Type} {c : Prop} [Decidable c] {r r' : Option (α × β)} (h : Goes r)
    (h' : Goes r') : Goes (if c then r else r') := by
  split_ifs
  · exact h
  · exact h'

theorem goes_of_isBase {α β : Type} {p : Ptr N} (h : p.isBase = true) (a : α) (b : β) :
    Goes (if p.isBase then some (a, b) else none) := ⟨a, b, if_pos h⟩

theorem InList.isBase {p : Ptr N} (h : InList g p) : p.isBase = true := by
  obtain ⟨x, -, rfl⟩ := h
  rfl

/-- The cell behind a listed node is a node or the tail sentinel. -/
theorem Inv.next_isBase (h : Inv cfg s g) (hn : n ∈ g.lru) :
    (s.mem.lruNext (.node n)).isBase = true := by
  rcases h.lru.linked.next_mem (isCell_node hn) with htail | ⟨x, -, hx⟩
  · rw [htail]
    rfl
  · rw [hx]
    rfl

/-- The cell whose back link is to be repaired. -/
theorem Inv.repair_isBase (h : Inv cfg s g) {c l : Ptr N} (hr : (s.pc t).repairing = some (c, l)) :
    c.isBase = true := by
  obtain ⟨x, hx, rfl⟩ := h.lru.repairing_mem hr
  obtain ⟨-, hlink, -⟩ := h.lru.repairing t c _ hr
  rw [← hlink]
  exact h.next_isBase hx

/-- The cell behind the gap of an unlinking. -/
theorem Inv.gap_isBase (h : Inv cfg s g) {p q : Ptr N} (hg : (s.pc t).gap = some (p, n, q)) :
    q.isBase = true := by
  obtain ⟨hlink, -, x, hx, rfl⟩ := h.lru.gap t p n q hg
  rw [← hlink]
  exact h.next_isBase hx

theorem Inv.unlink_goes (h : Inv cfg s g) (hin : (s.pc t).inside = true) {p : UnlinkPC N}
    (hp : p.inv s.mem g n) (hgap : p.unlinked = false → (s.pc t).gap = none)
    (hnext : ∀ a b, p = .storePrev a b → (s.pc t).gap = some (a, n, b)) :
    Goes (nextUnlink s.mem n p) := by
  cases p with
  | loadPrev => exact ⟨_, _, rfl⟩
  | loadNext prev => exact ⟨_, _, rfl⟩
  | storeNext prev next =>
      exact goes_of_isBase (InList.isBase (UnlinkPC.inv.prev_listed h hin (hgap rfl) hp)) ..
  | storePrev prev next => exact goes_of_isBase (h.gap_isBase (hnext prev next rfl)) ..

theorem nextMark_goes (m : Mem N K V) (p : MarkPC N) : Goes (nextMark m fails n p) := by
  cases p with
  | cas q => exact Goes.ite ⟨_, _, rfl⟩ ⟨_, _, rfl⟩
  | _ => exact ⟨_, _, rfl⟩

theorem nextDispose_goes (m : Mem N K V) (p : DisposePC N) : Goes (nextDispose m fails n p) := by
  cases p with
  | cas q => exact Goes.ite ⟨_, _, rfl⟩ ⟨_, _, rfl⟩
  | _ => exact ⟨_, _, rfl⟩

theorem nextLink_goes {p : LinkPC N}
    (hfree : ∀ b, p.awaits = some b → s.bucketLock (lockIndex b) = none) :
    Goes (nextLink cfg s n p) := by
  cases p with
  | lock b => exact ⟨_, _, if_pos (Option.isNone_iff_eq_none.2 (hfree b rfl))⟩
  | _ => exact ⟨_, _, rfl⟩

theorem nextRemove_goes {p : RemovePC N}
    (hfree : ∀ b, p.awaits = some b → s.bucketLock (lockIndex b) = none) :
    Goes (nextRemove cfg s n p) := by
  cases p with
  | lock b => exact ⟨_, _, if_pos (Option.isNone_iff_eq_none.2 (hfree b rfl))⟩
  | _ => exact ⟨_, _, rfl⟩

/-- `addSublistToLruHead` on two nodes. -/
theorem nextAdd_goes {m : Mem N K V} {first last : Ptr N} {p : AddPC N}
    (hfirst : p = .storePrev → first.isBase = true)
    (hlast : ∀ c, p = .storeNext c → last.isBase = true)
    (hrepair : ∀ c, p = .repair c → c.isBase = true) : Goes (nextAdd m fails first last p) := by
  cases p with
  | storePrev => exact goes_of_isBase (hfirst rfl) ..
  | load => exact ⟨_, _, rfl⟩
  | storeNext c => exact goes_of_isBase (hlast c rfl) ..
  | cas c => exact Goes.ite ⟨_, _, rfl⟩ ⟨_, _, rfl⟩
  | repair c => exact goes_of_isBase (hrepair c rfl) ..

theorem Inv.purge_goes (h : Inv cfg s g) {p : PurgePC N}
    (hpc : s.pc t = .consolidate back (.purge p))
    (hfree : ∀ b, (s.pc t).awaits cfg = some b → s.bucketLock (lockIndex b) = none) :
    Goes (nextPurge cfg s fails p) := by
  obtain ⟨hin, -, hinv⟩ := h.purge_inv hpc
  cases p with
  | prev node freed =>
      obtain ⟨x, -, rfl⟩ := hinv
      exact ⟨_, _, rfl⟩
  | bucket x next freed p =>
      refine (nextRemove_goes fun b hb => hfree b ?_).map _
      rw [hpc]
      exact hb
  | unlink x next freed p =>
      refine (h.unlink_goes hin hinv.2.2 (fun hp => ?_) fun a b hp => ?_).map _
      · rw [hpc]
        cases p with
        | storePrev => cases hp
        | _ => rfl
      · rw [hpc, hp]
        rfl
  | dispose x next freed p => exact (nextDispose_goes _ p).map _
  | _ => exact ⟨_, _, rfl⟩

theorem Inv.pull_goes (h : Inv cfg s g) {p : PullPC N} (hpc : s.pc t = .consolidate back (.pull p))
    (htested : (s.pc t).tested) : Goes (nextPull s.mem fails p) := by
  obtain ⟨hin, hinv⟩ := h.pull_inv hpc
  rw [hpc] at htested
  cases p with
  | prev current last =>
      rcases hinv.1.1.start_mem with hend | ⟨x, -, rfl⟩
      · exact absurd hend htested
      · exact ⟨_, _, rfl⟩
  | unlink x last p =>
      refine (h.unlink_goes hin hinv.2.2.2 (fun hp => ?_) fun a b hp => ?_).map _
      · rw [hpc]
        cases p with
        | storePrev => cases hp
        | _ => rfl
      · rw [hpc, hp]
        rfl
  | appendNext x last =>
      refine goes_of_isBase ?_ ..
      rcases hinv.2.last_isCell with rfl | ⟨y, -, rfl⟩ <;> rfl
  | add first last p =>
      refine (nextAdd_goes (fun hp => ?_) (fun c hp => ?_) fun c hp => ?_).map _
      · subst hp
        obtain ⟨⟨x, -, rfl⟩, -⟩ := hinv.2.ends
        rfl
      · subst hp
        obtain ⟨-, x, -, rfl⟩ := hinv.2.1.ends
        rfl
      · subst hp
        exact h.repair_isBase (t := t) (l := last) (by rw [hpc]; rfl)
  | _ => exact ⟨_, _, rfl⟩

theorem Inv.consolidate_goes (h : Inv cfg s g) {p : ConsolidatePC N}
    (hpc : s.pc t = .consolidate back p) (htested : (s.pc t).tested)
    (hfree : ∀ b, (s.pc t).awaits cfg = some b → s.bucketLock (lockIndex b) = none) :
    Goes (nextConsolidate cfg s fails back p) := by
  cases p with
  | tryLock => exact Goes.ite ⟨_, _, rfl⟩ ⟨_, _, rfl⟩
  | purge p => exact (h.purge_goes hpc hfree).map _
  | pull p => exact (h.pull_goes hpc htested).map _
  | _ => exact ⟨_, _, rfl⟩

theorem Inv.insert_goes (h : Inv cfg s g) {consume : Bool} {k : K} {v : V} {p : InsertPC N}
    (hpc : s.pc t = .insert consume k v p) (htested : (s.pc t).tested)
    (hfree : ∀ b, (s.pc t).awaits cfg = some b → s.bucketLock (lockIndex b) = none) :
    Goes (nextInsert cfg s fails consume k v p) := by
  rw [hpc] at htested
  cases p with
  | allocate p =>
      cases p with
      | load => exact ⟨_, _, rfl⟩
      | loadNext node =>
          obtain ⟨x, rfl⟩ := htested
          exact goes_of_isBase (p := .node x) rfl ..
      | cas node link =>
          obtain ⟨x, rfl⟩ := htested
          exact Goes.ite ⟨_, _, rfl⟩ ⟨_, _, rfl⟩
  | bucket x p =>
      refine (nextLink_goes fun b hb => hfree b ?_).map _
      rw [hpc]
      exact hb
  | add x p =>
      refine (nextAdd_goes (fun _ => rfl) (fun _ _ => rfl) fun c hp => ?_).map _
      exact h.repair_isBase (t := t) (l := .node x) (by rw [hpc, hp]; rfl)
  | _ => exact ⟨_, _, rfl⟩

variable [DecidableEq K]

theorem nextFind_goes {producer : Option V} {k : K} {p : FindPC N V}
    (hfree : ∀ b, (PC.find producer k p : PC N K V).awaits cfg = some b →
      s.bucketLock (lockIndex b) = none) : Goes (nextFind cfg s fails producer k p) := by
  cases p with
  | lock => exact ⟨_, _, if_pos (Option.isNone_iff_eq_none.2 (hfree _ rfl))⟩
  | mark n r p => exact (nextMark_goes _ p).map _
  | _ => exact ⟨_, _, rfl⟩

/-- **Every access is defined**: a running call whose lock is free makes its next access. -/
theorem Inv.next_isSome (h : Inv cfg s g) (htested : (s.pc t).tested)
    (hbusy : (s.pc t).atRest = false)
    (hfree : ∀ b, (s.pc t).awaits cfg = some b → s.bucketLock (lockIndex b) = none) :
    Goes (next cfg s (s.pc t) (.go fails)) := by
  generalize hpc : s.pc t = pc at hbusy
  cases pc with
  | idle => cases hbusy
  | delivered k v => cases hbusy
  | find producer k p => exact nextFind_goes fun b hb => hfree b (by rw [hpc]; exact hb)
  | insert consume k v p => exact h.insert_goes hpc htested hfree
  | consolidate back p => exact h.consolidate_goes hpc htested hfree

end Access

/-! ## Runs -/

variable [DecidableEq K] [DecidableEq T] [Inhabited K] [Inhabited V] {trace : List (Label N K V T)}

theorem Run.tested (h : Run cfg PopsPooled s trace) (t : T) : (s.pc t).tested := by
  induction h with
  | start => trivial
  | @step s s' trace u move act hrun hstep hok ih =>
      obtain ⟨pc', hnext, rfl⟩ := step_eq hstep
      obtain ⟨g, pool, -, hpool, -⟩ := hrun.pooled
      show (Function.update s.pc u pc' t).tested
      by_cases ht : t = u
      · subst ht
        rw [Function.update_self]
        exact next_tested hpool.head ih hnext
      · rw [Function.update_of_ne ht]
        exact ih

/-- The thread can make its next access, whether or not a compare-exchange fails spuriously. -/
def State.CanGo (cfg : Config N K) (s : State N K V T) (t : T) : Prop :=
  ∀ fails, ∃ act s', Threads.step cfg s t (.go fails) = some (act, s')

theorem Run.canGo (h : Run cfg PopsPooled s trace) (hbusy : (s.pc t).atRest = false)
    (hfree : ∀ b, (s.pc t).awaits cfg = some b → s.bucketLock (lockIndex b) = none) :
    s.CanGo cfg t := by
  obtain ⟨g, pool, hinv, -, -⟩ := h.pooled
  intro fails
  obtain ⟨act, pc', hnext⟩ := hinv.next_isSome (h.tested t) hbusy hfree
  exact ⟨act, s.apply t act pc', Option.map_eq_some_iff.2 ⟨_, hnext, rfl⟩⟩

/-- **No deadlock and no invalid access.** In every state of a run whose pops stay on the pool chain,
    every running call makes its next access, or waits for the lock of a bucket that is held by
    another thread, whose call makes its next access. -/
theorem Run.progress (h : Run cfg PopsPooled s trace) (t : T) (hbusy : (s.pc t).atRest = false) :
    s.CanGo cfg t ∨ ∃ b u, (s.pc t).awaits cfg = some b ∧ s.bucketLock (lockIndex b) = some u ∧
      u ≠ t ∧ s.CanGo cfg u := by
  cases hb : (s.pc t).awaits cfg with
  | none =>
      refine Or.inl (h.canGo hbusy fun b hb' => ?_)
      rw [hb] at hb'
      cases hb'
  | some b =>
      cases hu : s.bucketLock (lockIndex b) with
      | none =>
          refine Or.inl (h.canGo hbusy fun b' hb' => ?_)
          rw [hb] at hb'
          cases hb'
          exact hu
      | some u =>
          obtain ⟨g, pool, hinv, -, -⟩ := h.pooled
          -- the holder stands inside a critical section, where no lock is taken
          obtain ⟨c, hc, -⟩ := (hinv.locks.bucket u _).2 hu
          have hnone := PC.awaits_of_lockedBucket hc
          refine Or.inr ⟨b, u, rfl, hu, ?_, h.canGo (PC.atRest_of_lockedBucket hc) ?_⟩
          · rintro rfl
            rw [hnone] at hb
            cases hb
          · intro b' hb'
            rw [hnone] at hb'
            cases hb'

/-- Thread 2 waits for the lock of the only bucket, which thread 1 holds for its insertion. -/
theorem Run.progress_waiting : ∃ (s : State 2 ℕ ℕ ℕ) (trace : List (Label 2 ℕ ℕ ℕ)),
    Run twoNodes PopsPooled s trace ∧ Threads.step twoNodes s 2 (.go false) = none ∧
      (s.CanGo twoNodes 2 ∨ ∃ b u, (s.pc 2).awaits twoNodes = some b ∧
        s.bucketLock (lockIndex b) = some u ∧ u ≠ 2 ∧ s.CanGo twoNodes u) := by
  obtain ⟨s, trace, hrun, hgood⟩ := Run.of_play twoNodes PopsPooled linkUnchanged
    popsPooled_of_linkUnchanged
    ((1, .call (.insert 10 100)) :: goes 1 9 ++ [(2, .call (.find 10))])
    (fun (s : State 2 ℕ ℕ ℕ) _ => (s.pc 2).atRest = false ∧
      (Threads.step twoNodes s 2 (.go false)).isNone) (by decide +kernel)
  obtain ⟨hbusy, hblocked⟩ := of_decide_eq_true hgood
  exact ⟨s, trace, hrun, Option.isNone_iff_eq_none.1 hblocked, hrun.progress 2 hbusy⟩

end DeferredLru.Threads
