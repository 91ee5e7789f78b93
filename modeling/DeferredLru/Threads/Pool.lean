import DeferredLru.Deferred.Runs
import DeferredLru.Threads.Sites
import DeferredLru.Threads.Steps

set_option autoImplicit false

/-! # The pool and who owns its nodes

`allocateNode` reads the pool head and the link of the node it leads to, and then takes the node off
by a compare-exchange that only checks that the head is still the same. Between the second read and
the compare-exchange others may take the node, insert it, evict it and put it back; then the link that
was read is stale, and the compare-exchange puts whatever it leads to at the head of the pool.

`PopsPooled` says that this does not happen: the pointer that a pop makes the head is null or leads to
a node behind the popped one. In the runs that meet it at every pop the pool holds free nodes only
(`PoolInv`), and a popped node belongs to its thread alone (`Run.ownership`); `Run.not_ownership_aba`
is a run that does not meet it. -/

namespace DeferredLru.Threads

open Intrusive

variable {N : ℕ} {K V T : Type} {cfg : Config N K} {s : State N K V T} {g g' : Ghost N T} {t : T}
  {n : Fin N} {pool : List (Fin N)}

/-! ## The pool -/

/-- The chain from `empty_head_` ends, and its nodes are free. -/
structure PoolInv (m : Mem N K V) (g : Ghost N T) (pool : List (Fin N)) : Prop where
  chain : Chain (fun x => m.lruNext (.node x)) .node m.emptyHead pool .null
  free : ∀ n ∈ pool, g.status n = .rest .free

theorem PoolInv.initial [Inhabited K] [Inhabited V] :
    PoolInv (initial N K V T).mem (.initial N T) (List.finRange N) where
  chain := allocateMemory_pool N 0 (by omega)
  free _ _ := rfl

theorem PoolInv.onPool_iff (h : PoolInv s.mem g pool) (n : Fin N) : s.OnPool n ↔ n ∈ pool :=
  Chain.visits_iff Ptr.node_injective (by simp) h.chain

/-! ## What a step does to it -/

theorem Inv.listed_not_free (h : Inv cfg s g) (hn : n ∈ g.lru) : g.status n ≠ .rest .free := by
  intro hs
  have hlru := (h.lru.mem n).1 hn
  rw [hs] at hlru
  exact hlru

theorem Inv.held_not_free (h : Inv cfg s g) {x : Stage} (hv : (s.pc t).holds = some (n, x)) :
    g.status n ≠ .rest .free := by
  rw [h.held hv]
  simp

theorem Inv.temp_not_free (h : Inv cfg s g) (hn : n ∈ g.temp) : g.status n ≠ .rest .free := by
  rw [(h.lru.temp n).1 hn]
  simp

section Frame

variable {fails : Bool} {p q : Ptr N}

/-- A write of `addSublistToLruHead` to an `lru_next` goes to the head sentinel or to the last node
    of the sublist. -/
theorem nextAdd_setNext {m : Mem N K V} {first last : Ptr N} {r : AddPC N} {r' : Option (AddPC N)}
    (h : nextAdd m fails first last r = some (.setNext p q, r')) : p = .lruHead ∨ p = last := by
  cases r <;> simp only [nextAdd] at h <;> (try split_ifs at h) <;> cases h <;> simp

/-- `removeNodeFromLru` writes the `lru_next` of the cell before the node. -/
theorem nextUnlink_setNext {m : Mem N K V} {r : UnlinkPC N} {r' : Option (UnlinkPC N)}
    (h : nextUnlink m n r = some (.setNext p q, r')) : ∃ b, r = .storeNext p b := by
  cases r <;> simp only [nextUnlink] at h <;> (try split_ifs at h) <;> cases h
  exact ⟨_, rfl⟩

/-- `disposeNode` writes the `lru_next` of its node. -/
theorem nextDispose_setNext {m : Mem N K V} {r : DisposePC N} {r' : Option (DisposePC N)}
    (h : nextDispose m fails n r = some (.setNext p q, r')) : p = .node n := by
  cases r <;> simp only [nextDispose] at h <;> (try split_ifs at h) <;> cases h
  rfl

theorem nextMark_setNext {m : Mem N K V} {r : MarkPC N} {r' : Option (MarkPC N)} :
    nextMark m fails n r ≠ some (.setNext p q, r') := by
  intro h
  cases r <;> simp only [nextMark] at h <;> (try split_ifs at h) <;> cases h

theorem UnlinkPC.inv.prev_listed (h : Inv cfg s g) (hin : (s.pc t).inside = true)
    (hgap : (s.pc t).gap = none) {b : Ptr N}
    (hp : UnlinkPC.inv s.mem g n (.storeNext p b)) : ∃ x ∈ g.lru, p = .node x := by
  obtain ⟨hn, hne, rfl, -⟩ := hp
  obtain ⟨x, hx, hpx, -⟩ := h.lru.prev_spec hn hne (h.no_gap hin hgap)
  exact ⟨x, hx, hpx⟩

theorem Inv.insert_setNext (h : Inv cfg s g) {consume : Bool} {k : K} {v : V} {r : InsertPC N}
    {pc' : PC N K V} (hpc : s.pc t = .insert consume k v r)
    (hnext : nextInsert cfg s fails consume k v r = some (.setNext (.node n) q, pc')) :
    g.status n ≠ .rest .free := by
  cases r with
  | allocate r => cases r <;> simp only [nextInsert] at hnext <;> (try split_ifs at hnext) <;>
      (try cases hnext); split at hnext <;> cases hnext
  | bucket x r =>
      obtain ⟨⟨a, r'⟩, hr, heq⟩ := Option.map_eq_some_iff.1 hnext
      cases heq
      cases r <;> simp only [nextLink] at hr <;> (try split_ifs at hr) <;> cases hr
  | add x r =>
      obtain ⟨⟨a, r'⟩, hr, heq⟩ := Option.map_eq_some_iff.1 hnext
      cases heq
      rcases nextAdd_setNext hr with hp | hp
      · cases hp
      · obtain rfl := Ptr.node_injective hp
        exact h.held_not_free (t := t) (x := r.stage) (by rw [hpc]; rfl)
  | _ => cases hnext

theorem Inv.purge_setNext (h : Inv cfg s g) {back : Back K V} {r : PurgePC N}
    {r' : Option (PurgePC N)} (hpc : s.pc t = .consolidate back (.purge r))
    (hnext : nextPurge cfg s fails r = some (.setNext (.node n) q, r')) :
    g.status n ≠ .rest .free := by
  obtain ⟨hin, -, hinv⟩ := h.purge_inv hpc
  cases r with
  | prev node freed => cases node <;> cases hnext
  | bucket x next freed r =>
      obtain ⟨⟨a, r'⟩, hr, heq⟩ := Option.map_eq_some_iff.1 hnext
      cases heq
      cases r <;> simp only [nextRemove] at hr <;> (try split_ifs at hr) <;> cases hr
  | unlink x next freed r =>
      obtain ⟨⟨a, r'⟩, hr, heq⟩ := Option.map_eq_some_iff.1 hnext
      cases heq
      obtain ⟨b, rfl⟩ := nextUnlink_setNext hr
      obtain ⟨y, hy, hn⟩ := UnlinkPC.inv.prev_listed h hin (by rw [hpc]; rfl) hinv.2.2
      obtain rfl := Ptr.node_injective hn
      exact h.listed_not_free hy
  | dispose x next freed r =>
      obtain ⟨⟨a, r'⟩, hr, heq⟩ := Option.map_eq_some_iff.1 hnext
      cases heq
      obtain rfl := Ptr.node_injective (nextDispose_setNext hr)
      exact h.held_not_free (t := t) (x := .evicted) (by rw [hpc]; rfl)
  | _ => cases hnext

theorem Inv.pull_setNext (h : Inv cfg s g) {back : Back K V} {r : PullPC N}
    {r' : Option (PullPC N)} (hpc : s.pc t = .consolidate back (.pull r))
    (hnext : nextPull s.mem fails r = some (.setNext (.node n) q, r')) :
    g.status n ≠ .rest .free := by
  obtain ⟨hin, hinv⟩ := h.pull_inv hpc
  cases r with
  | prev current last => cases current <;> cases hnext
  | unlink x last r =>
      obtain ⟨⟨a, r'⟩, hr, heq⟩ := Option.map_eq_some_iff.1 hnext
      cases heq
      obtain ⟨b, rfl⟩ := nextUnlink_setNext hr
      obtain ⟨y, hy, hn⟩ := UnlinkPC.inv.prev_listed h hin (by rw [hpc]; rfl) hinv.2.2.2
      obtain rfl := Ptr.node_injective hn
      exact h.listed_not_free hy
  | appendNext x last =>
      simp only [nextPull] at hnext
      split_ifs at hnext
      cases hnext
      rcases hinv.2.last_isCell with hl | ⟨y, hy, hn⟩
      · cases hl
      · obtain rfl := Ptr.node_injective hn
        exact h.temp_not_free hy
  | add first last r =>
      obtain ⟨⟨a, r'⟩, hr, heq⟩ := Option.map_eq_some_iff.1 hnext
      cases heq
      rcases nextAdd_setNext hr with hp | rfl
      · cases hp
      · have hsub : Sublist s.mem g first (.node n) := by
          cases r with
          | storePrev => exact hinv.2
          | repair c =>
              simp only [nextAdd] at hr
              split_ifs at hr
              cases hr
          | _ => exact hinv.2.1
        obtain ⟨-, y, hy, hn⟩ := hsub.ends
        obtain rfl := Ptr.node_injective hn
        exact h.temp_not_free hy
  | _ => cases hnext

variable [DecidableEq K] {move : Move K V} {pc' : PC N K V}

/-- `find` writes no `lru_next`. -/
theorem nextFind_setNext {producer : Option V} {k : K} {r : FindPC N V} :
    nextFind cfg s fails producer k r ≠ some (.setNext p q, pc') := by
  intro h
  cases r with
  | lock =>
      simp only [nextFind] at h
      split_ifs at h
      cases h
  | mark x v r =>
      obtain ⟨⟨a, r'⟩, hr, heq⟩ := Option.map_eq_some_iff.1 h
      cases heq
      exact nextMark_setNext hr
  | _ => cases h

/-- **No write goes to the link of a free node.** -/
theorem Inv.setNext_not_free (h : Inv cfg s g)
    (hnext : next cfg s (s.pc t) move = some (.setNext (.node n) q, pc')) :
    g.status n ≠ .rest .free := by
  have hmoved := next_transition hnext
  generalize hpc : s.pc t = pc at hmoved
  cases hmoved with
  | find hfind => exact absurd hfind nextFind_setNext
  | insert hinsert => exact h.insert_setNext hpc hinsert
  | @consolidate back p _ _ _ hconsolidate =>
      cases p with
      | purge p =>
          obtain ⟨⟨a, r⟩, hr, heq⟩ := Option.map_eq_some_iff.1 hconsolidate
          cases heq
          exact h.purge_setNext hpc hr
      | pull p =>
          obtain ⟨⟨a, r⟩, hr, heq⟩ := Option.map_eq_some_iff.1 hconsolidate
          cases heq
          exact h.pull_setNext hpc hr
      | tryLock =>
          simp only [nextConsolidate] at hconsolidate
          split_ifs at hconsolidate <;> cases hconsolidate
      | _ => cases hconsolidate

end Frame

/-- Only writes of the pool head change which nodes are free. -/
theorem Label.deed_free {pc : PC N K V} {move : Move K V} {act : Act N K V}
    (hact : ∀ e, act ≠ .setEmptyHead e) (P : Prop) :
    (Label.deed ⟨t, pc, move, act⟩).free n P ↔ P := by
  unfold Label.deed
  split <;> first | exact Iff.rfl | (rename_i heq; cases heq; exact absurd rfl (hact _))

/-! ## Runs -/

/-- The pointer that a pop makes the head of the pool is null or leads to a node behind the popped
    one. -/
def PopsPooled (s : State N K V T) (l : Label N K V T) : Prop :=
  ∀ n e, l.deed = .pop n → l.act = .setEmptyHead e → e = .null ∨
    ∃ x, e = .node x ∧
      Visits (fun y => s.mem.lruNext (.node y)) .node (s.mem.lruNext (.node n)) x

/-- The popped node still has the link that was read before the pop. -/
def linkUnchanged (s : State N K V T) (l : Label N K V T) : Bool :=
  match l.deed, l.act with
  | .pop n, .setEmptyHead .null => s.mem.lruNext (.node n) = .null
  | .pop n, .setEmptyHead (.node x) => s.mem.lruNext (.node n) = .node x
  | .pop _, .setEmptyHead _ => false
  | _, _ => true

/-- Such a pop stays on the pool chain. -/
theorem popsPooled_of_linkUnchanged (s : State N K V T) (l : Label N K V T)
    (h : linkUnchanged s l = true) : PopsPooled s l := by
  intro n e hdeed hact
  unfold linkUnchanged at h
  rw [hdeed, hact] at h
  cases e with
  | null => exact Or.inl rfl
  | node x =>
      have hx : s.mem.lruNext (.node n) = .node x := of_decide_eq_true h
      exact Or.inr ⟨x, rfl, by rw [hx]; exact .here x⟩
  | _ => cases h

variable [DecidableEq K] {move : Move K V} {act : Act N K V} {pc' : PC N K V}

/-- A pop that meets the condition takes a free node. -/
theorem PoolInv.popped_free (hp : PoolInv s.mem g pool)
    (hnext : next cfg s (s.pc t) move = some (act, pc'))
    (hn : Label.deed ⟨t, s.pc t, move, act⟩ = .pop n) : g.status n = .rest .free := by
  by_cases hact : ∃ e, act = .setEmptyHead e
  · obtain ⟨e, rfl⟩ := hact
    rcases next_site hnext with ⟨consume, k, v, x, hpc, hhead⟩ | ⟨back, x, l, f, hpc, -⟩
    · rw [hpc] at hn
      cases hn
      exact hp.free n ((hp.onPool_iff n).1 (by rw [State.OnPool, hhead]; exact .here n))
    · rw [hpc] at hn
      cases hn
  · have hfree : (Label.deed ⟨t, s.pc t, move, act⟩).free n True ↔ True :=
      Label.deed_free (fun e he => hact ⟨e, he⟩) True
    rw [hn] at hfree
    exact absurd rfl (hfree.2 trivial).2

/-- **The pool stays a list of free nodes.** -/
theorem PoolInv.step (hp : PoolInv s.mem g pool) (h : Inv cfg s g)
    (hnext : next cfg s (s.pc t) move = some (act, pc'))
    (he : Effect (Label.deed ⟨t, s.pc t, move, act⟩) g g')
    (hok : PopsPooled s ⟨t, s.pc t, move, act⟩) :
    ∃ pool', PoolInv (act.onMem s.mem) g' pool' := by
  by_cases hact : ∃ e, act = .setEmptyHead e
  · obtain ⟨e, rfl⟩ := hact
    rcases next_site hnext with ⟨consume, k, v, n, hpc, hhead⟩ |
      ⟨back, n, link, freed, hpc, rfl⟩
    · -- a pop: the rest of the pool from the installed node on
      have hdeed : Label.deed ⟨t, s.pc t, move, .setEmptyHead e⟩ = .pop n := by rw [hpc]; rfl
      rw [hdeed] at he
      have hchain := hp.chain
      rw [hhead] at hchain
      cases pool with
      | nil => cases hchain
      | cons y rest =>
          have hdup := Chain.nodup Ptr.node_injective (by simp) hchain
          obtain rfl := Ptr.node_injective hchain.1
          have hfree : ∀ x ∈ rest, g'.status x = .rest .free := by
            intro x hx
            refine (he.free x).2 ⟨hp.free x (List.mem_cons_of_mem _ hx), ?_⟩
            rintro rfl
            exact (List.nodup_cons.1 hdup).1 hx
          rcases hok n e hdeed rfl with rfl | ⟨x, rfl, hx⟩
          · exact ⟨[], rfl, by simp⟩
          · have hxr := (Chain.visits_iff Ptr.node_injective (by simp) hchain.2).1 hx
            obtain ⟨l₁, l₂, rfl⟩ := List.append_of_mem hxr
            obtain ⟨q, -, hq⟩ := chain_append.1 hchain.2
            exact ⟨x :: l₂, ⟨rfl, hq.2⟩, fun z hz => hfree z (by simp only [List.mem_append]; tauto)⟩
    · -- a disposal: the node leads to the old head
      have hdeed : Label.deed ⟨t, s.pc t, move, .setEmptyHead (.node n)⟩ = .dispose n := by
        rw [hpc]
        rfl
      rw [hdeed] at he
      obtain ⟨-, -, -, hlink⟩ := h.purge_inv hpc
      refine ⟨n :: pool, ⟨rfl, ?_⟩, fun x hx => (he.free x).2 ?_⟩
      · show Chain _ _ (s.mem.lruNext (.node n)) pool _
        rw [show s.mem.lruNext (.node n) = s.mem.emptyHead from hlink]
        exact hp.chain
      · rcases List.mem_cons.1 hx with rfl | hx
        · exact Or.inl rfl
        · exact Or.inr (hp.free x hx)
  · -- any other step leaves the head, and writes no link of a free node
    have hact' : ∀ e, act ≠ .setEmptyHead e := fun e he => hact ⟨e, he⟩
    refine ⟨pool, ?_, fun x hx =>
      (he.free x).2 ((Label.deed_free hact' _).2 (hp.free x hx))⟩
    have hhead : (act.onMem s.mem).emptyHead = s.mem.emptyHead := by
      cases act with
      | setEmptyHead e => exact absurd rfl (hact' e)
      | _ => rfl
    rw [hhead]
    refine hp.chain.congr fun x hx => ?_
    cases act with
    | setNext p q =>
        refine Function.update_of_ne ?_ _ _
        rintro rfl
        exact h.setNext_not_free hnext (hp.free x hx)
    | _ => rfl

variable [DecidableEq T] [Inhabited K] [Inhabited V] {trace : List (Label N K V T)}

/-- The invariants of a run whose pops stay on the pool chain. -/
theorem Run.pooled (h : Run cfg PopsPooled s trace) :
    ∃ g pool, Inv cfg s g ∧ PoolInv s.mem g pool ∧ Run cfg PopsUnused s trace := by
  induction h with
  | start => exact ⟨_, _, .initial cfg, .initial, .start⟩
  | step _ hstep hok ih =>
      obtain ⟨g, pool, hinv, hpool, hrun⟩ := ih
      obtain ⟨pc', hnext, rfl⟩ := step_eq hstep
      have hfree := fun n => hpool.popped_free (n := n) hnext
      obtain ⟨g', hinv', he⟩ := hinv.step hnext hfree
      obtain ⟨pool', hpool'⟩ := hpool.step hinv hnext he hok
      exact ⟨g', pool', hinv', hpool',
        hrun.step hstep fun n hn => (hinv.unused_iff n).2 (hfree n hn)⟩

/-! ## Ownership -/

/-- A popped node that is not yet in its bucket belongs to its thread alone, and no node is in the
    pool and in the LRU list. -/
structure Ownership (s : State N K V T) : Prop where
  pool : ∀ t n, (s.pc t).holds = some (n, .building) → ¬ s.OnPool n
  lru : ∀ t n, (s.pc t).holds = some (n, .building) → ¬ s.OnLru n
  bucket : ∀ t n b, (s.pc t).holds = some (n, .building) → ¬ s.OnBucket b n
  alone : ∀ t t' n x, (s.pc t).holds = some (n, .building) → (s.pc t').holds = some (n, x) → t' = t
  disjoint : ∀ n, s.OnPool n → ¬ s.OnLru n

/-- **Ownership** holds in every state of a run whose pops stay on the pool chain. -/
theorem Run.ownership (h : Run cfg PopsPooled s trace) : Ownership s := by
  obtain ⟨g, pool, hinv, hpool, -⟩ := h.pooled
  have hfree : ∀ n, s.OnPool n → g.status n = .rest .free := fun n hn =>
    hpool.free n ((hpool.onPool_iff n).1 hn)
  refine ⟨fun t n ht hn => ?_, fun t n ht hn => ?_, fun t n b ht hn => ?_, fun t t' n x ht ht' => ?_,
    fun n hn hl => ?_⟩
  · have hs := hinv.held ht
    rw [hfree n hn] at hs
    cases hs
  · have hlru := (hinv.lru.mem n).1 ((hinv.onLru_iff n).1 hn)
    rw [hinv.held ht] at hlru
    exact hlru
  · have hb := hinv.inBucket ((hinv.onBucket_iff b n).1 hn)
    rw [hinv.held ht] at hb
    exact hb
  · have hs := hinv.held ht
    rw [hinv.held ht'] at hs
    exact (Own.held.inj hs).1
  · exact hinv.listed_not_free ((hinv.onLru_iff n).1 hl) (hfree n hn)

/-- An insertion by one thread while another has read the pool head. -/
theorem Run.ownership_insert : ∃ (s : State 2 ℕ ℕ ℕ) (trace : List (Label 2 ℕ ℕ ℕ)),
    Run twoNodes PopsPooled s trace ∧ Ownership s ∧ s.OnLru 0 := by
  obtain ⟨s, trace, hrun, hgood⟩ := Run.of_play twoNodes PopsPooled linkUnchanged
    popsPooled_of_linkUnchanged
    ((1, .call (.insert 10 100)) :: goes 1 2 ++ (2, .call (.insert 20 200)) :: goes 2 19)
    (fun s _ => s.mem.lruNext .lruHead = .node 0) (by decide +kernel)
  refine ⟨s, trace, hrun, hrun.ownership, ?_⟩
  rw [State.OnLru, of_decide_eq_true hgood]
  exact .here 0

/-- Thread 1 reads node 0 and its link to node 1. Thread 2 inserts twice, so both nodes are in the
    LRU list, and its third insertion evicts node 0 and puts it back in the pool. The compare-exchange
    of thread 1 succeeds and makes node 1, which is in the LRU list, the head of the pool; thread 3
    takes it from there. -/
theorem Run.not_ownership_aba : ∃ (s : State 2 ℕ ℕ ℕ) (trace : List (Label 2 ℕ ℕ ℕ)),
    Run twoNodes (fun _ _ => True) s trace ∧ (s.pc 3).holds = some (1, .building) ∧ s.OnLru 1 ∧
      ¬ Ownership s := by
  obtain ⟨s, trace, hrun, hgood⟩ := Run.of_play twoNodes (fun _ _ => True) (fun _ _ => true)
    (fun _ _ _ => trivial)
    ((1, .call (.insert 10 100)) :: goes 1 3 ++
      (2, .call (.insert 20 200)) :: goes 2 19 ++ (2, .call (.insert 30 300)) :: goes 2 19 ++
      (2, .call (.insert 40 400)) :: goes 2 26 ++ goes 1 1 ++
      (3, .call (.insert 50 500)) :: goes 3 4)
    (fun s _ => (s.pc 3).holds = some (1, .building) ∧ s.mem.lruNext .lruHead = .node 1)
    (by decide +kernel)
  obtain ⟨hholds, hhead⟩ := of_decide_eq_true hgood
  have hlru : s.OnLru 1 := by
    rw [State.OnLru, hhead]
    exact .here 1
  exact ⟨s, trace, hrun, hholds, hlru, fun h => h.lru 3 1 hholds hlru⟩

end DeferredLru.Threads
