import DeferredLru.Concurrent.Integrity
import DeferredLru.Lib.Tally

set_option autoImplicit false

/-! # The element count of `ConcurrentLRU`

The count is a plain integer: an update loads it, and stores it in a later access, under no lock but
that of the thread's own node. As long as no thread loads it between the two accesses of another one
(`CountsApart`), it is the length of the LRU list and the number of threads that work on a counted
node outside the list. Otherwise updates are lost. -/

namespace DeferredLru.ConcurrentLru

open Intrusive

variable {N : ℕ} {K V T : Type} {cfg : Config N K} {s s' : State N K V T} {a : Lists N}
  {trace : List (Label N K V T)} {act : Act N K V} {t : T}

/-! ## Where a node is counted outside the list -/

/-- The node, until it is in the list. -/
def InsertBeforePC.owes (n : Fin N) : InsertBeforePC N → Option (Fin N)
  | .unlockPrev _ => none
  | .unlockNode => none
  | _ => some n

/-- The node, once it is out of the list. -/
def RemovePC.owes (n : Fin N) : RemovePC N → Option (Fin N)
  | .unlockPrev _ _ => some n
  | .unlockNext _ => some n
  | .clear => some n
  | _ => none

/-- The node that the thread has outside the list while the count includes it. -/
def PC.owes : PC N K V → Option (Fin N)
  | .find _ _ (.remove n _ p) => p.owes n
  | .find _ _ (.insertLast n _ p) => p.owes n
  | .insert _ _ (.lruEvictHead p) => p.evicted
  | .insert _ _ (.unsetFlag n) => some n
  | .insert _ _ (.await n) => some n
  | .insert _ _ (.htRemove n _) => some n
  | .insert _ _ (.onDelete n) => some n
  | .insert _ _ (.loadDown n) => some n
  | .insert _ _ (.storeDown n _) => some n
  | .insert _ _ (.setFlag n) => some n
  | .insert _ _ (.insertLast n p) => p.owes n
  | _ => none

/-- The number of nodes the thread owes to the list. -/
def PC.debt (p : PC N K V) : ℕ := p.owes.toList.length

/-- The count that the thread has loaded, and will replace by the next one or the one before. -/
def PC.loaded : PC N K V → Option ℕ
  | .insert _ _ (.storeDown _ c) => some c
  | .insert _ _ (.storeUp _ c) => some c
  | _ => none

/-- The next access loads the count, to replace it. -/
def PC.loads : PC N K V → Bool
  | .insert _ _ (.loadDown _) => true
  | .insert _ _ (.loadUp _) => true
  | _ => false

/-- The next access stores the count raised by one. -/
def PC.countsUp : PC N K V → Bool
  | .insert _ _ (.storeUp _ _) => true
  | _ => false

/-- The next access stores the count lowered by one. -/
def PC.countsDown : PC N K V → Bool
  | .insert _ _ (.storeDown _ _) => true
  | _ => false

/-- No thread loads the count between the two accesses of another one. -/
def CountsApart (s : State N K V T) (l : Label N K V T) : Prop :=
  l.pc.loads = true → ∀ u, (s.pc u).loaded = none

/-! ## One step -/

/-- The node owed after a step. -/
def insertBeforeOwes (n : Fin N) : Option (InsertBeforePC N) → Option (Fin N)
  | some pc => pc.owes n
  | none => none

/-- The node owed after a step; one that was removed is owed to the caller's insertion. -/
def removeOwes (n : Fin N) : RemovePC N ⊕ Bool → Option (Fin N)
  | .inl pc => pc.owes n
  | .inr true => some n
  | .inr false => none

theorem EvictPC.lru_length {pc : EvictPC N} {r : EvictPC N ⊕ Option (Fin N)} {m : Mem N K V}
    (hs : pc.Standing cfg m a trace .lru) (hnext : nextEvict m .lruHead .lruTail pc = some (act, r)) :
    (pc.onLists a).lru.length + (evictEvicted r).toList.length =
      a.lru.length + pc.evicted.toList.length := by
  cases pc with
  | load =>
      simp only [nextEvict] at hnext
      split at hnext
      · cases hnext
        rfl
      · split at hnext <;> cases hnext
        rfl
  | splice n next =>
      cases hnext
      have hlength := List.length_erase_add_one (show n ∈ a.lru from hs.2.1)
      exact hlength
  | _ =>
      cases hnext
      rfl

theorem InsertBeforePC.lru_length {n : Fin N} {pc : InsertBeforePC N}
    {r : Option (InsertBeforePC N)} {m : Mem N K V}
    (hnext : nextInsertBefore m .lruTail n pc = (act, r)) :
    (pc.onLists n a).lru.length + (insertBeforeOwes n r).toList.length =
      a.lru.length + (pc.owes n).toList.length := by
  cases pc with
  | test p =>
      simp only [nextInsertBefore] at hnext
      split at hnext <;> cases hnext <;> rfl
  | splice p =>
      cases hnext
      exact List.length_append
  | _ =>
      cases hnext
      rfl

theorem RemovePC.lru_length {n : Fin N} {pc : RemovePC N} {r : RemovePC N ⊕ Bool}
    (hs : pc.Standing cfg s.mem a trace n) (hnext : nextRemove s n pc = (act, r)) :
    (pc.onLists n a).lru.length + (removeOwes n r).toList.length =
      a.lru.length + (pc.owes n).toList.length := by
  cases pc with
  | tryLock p =>
      simp only [nextRemove] at hnext
      split at hnext <;> cases hnext <;> rfl
  | test p =>
      simp only [nextRemove] at hnext
      split at hnext <;> cases hnext <;> rfl
  | testSame p =>
      simp only [nextRemove] at hnext
      split at hnext <;> cases hnext <;> rfl
  | testChanged =>
      simp only [nextRemove] at hnext
      split at hnext <;> cases hnext <;> rfl
  | splice p next =>
      cases hnext
      exact List.length_erase_add_one hs.1
  | _ =>
      cases hnext
      rfl

theorem afterFind_steady (producer : Option V) (k : K) (r : Option V) :
    (afterFind (N := N) producer k r).debt = 0 ∧ (afterFind (N := N) producer k r).loaded = none := by
  unfold afterFind
  split <;> exact ⟨rfl, rfl⟩

/-- **What a step does to the length of the list**: the thread's debt makes up for it, but for the
    updates of the count. -/
theorem Inv.lru_length [DecidableEq K] {pc p : PC N K V} {move : Move K V} (h : Inv cfg s a trace)
    (hpc : s.pc t = pc) (hmoved : Transition cfg s pc move act p) :
    (pc.onLists a).lru.length + p.debt + (if pc.countsDown then 1 else 0) =
      a.lru.length + pc.debt + if pc.countsUp then 1 else 0 := by
  have hs := h.standing t
  rw [hpc] at hs
  cases hmoved with
  | call c => cases c <;> rfl
  | @find producer k _ _ _ hfind =>
      cases hfind with
      | missing hr =>
          show a.lru.length + (afterFind producer k none).debt + _ = _
          rw [(afterFind_steady producer k none).1]
          rfl
      | remove hr => exact RemovePC.lru_length hs.1 hr
      | removed hr => exact RemovePC.lru_length hs.1 hr
      | gone hr => exact RemovePC.lru_length hs.1 hr
      | insertLast hr => exact InsertBeforePC.lru_length hr
      | inserted hr => exact InsertBeforePC.lru_length hr
      | unlock n r =>
          show a.lru.length + (afterFind producer k r).debt + _ = _
          rw [(afterFind_steady producer k r).1]
          rfl
      | _ => rfl
  | insert hinsert =>
      cases hinsert with
      | getNodeFromPool hr => exact congrArg List.length (EvictPC.onLists_pool h.shape hs)
      | pooled hr => exact congrArg List.length (EvictPC.onLists_pool h.shape hs)
      | poolEmpty hr => exact congrArg List.length (EvictPC.onLists_pool h.shape hs)
      | lruEvictHead hr => exact EvictPC.lru_length hs hr
      | evicted hr => exact EvictPC.lru_length hs hr
      | lruEmpty hr => exact EvictPC.lru_length hs hr
      | @htRemove n q => exact congrArg (·.length + 1) (HtRemovePC.onLists_lru n a q)
      | @unlinked n q => exact congrArg (·.length + 1) (HtRemovePC.onLists_lru n a q)
      | @linked n q => exact congrArg (·.length + 1) (HtRemovePC.onLists_lru n a q)
      | insertLast hr => exact InsertBeforePC.lru_length hr
      | inserted hr => exact InsertBeforePC.lru_length hr
      | @htInsert n q => exact congrArg List.length (q.onLists_lru n a)
      | @hashed n q => exact congrArg List.length (q.onLists_lru n a)
      | _ => rfl

/-! ## The count -/

/-- What the thread makes of the count. -/
def PC.stores (count : ℕ) : PC N K V → ℕ
  | .insert _ _ (.storeDown _ c) => (c + (2 ^ 64 - 1)) % 2 ^ 64
  | .insert _ _ (.storeUp _ c) => (c + 1) % 2 ^ 64
  | _ => count

theorem PC.loaded_cases (pc : PC N K V) :
    (pc.loaded = none ∧ (∀ count, pc.stores count = count) ∧ pc.countsUp = false ∧
        pc.countsDown = false) ∨
      ∃ c, pc.loaded = some c ∧ pc.loads = false ∧
        ((∀ count, pc.stores count = (c + 1) % 2 ^ 64) ∧ pc.countsUp = true ∧
            pc.countsDown = false ∨
          (∀ count, pc.stores count = (c + (2 ^ 64 - 1)) % 2 ^ 64) ∧ pc.countsUp = false ∧
            pc.countsDown = true) := by
  cases pc with
  | insert k v q =>
      cases q with
      | storeUp n c => exact Or.inr ⟨c, rfl, rfl, Or.inl ⟨fun _ => rfl, rfl, rfl⟩⟩
      | storeDown n c => exact Or.inr ⟨c, rfl, rfl, Or.inr ⟨fun _ => rfl, rfl, rfl⟩⟩
      | _ => exact Or.inl ⟨rfl, fun _ => rfl, rfl, rfl⟩
  | _ => exact Or.inl ⟨rfl, fun _ => rfl, rfl, rfl⟩

section CountOf

variable {n : Fin N} {m : Mem N K V}

theorem evict_count {prev last : Ptr N} {pc : EvictPC N} {r : EvictPC N ⊕ Option (Fin N)}
    (hnext : nextEvict m prev last pc = some (act, r)) :
    (act.onMem m).currentElementCount = m.currentElementCount := by
  cases pc with
  | load =>
      simp only [nextEvict] at hnext
      split at hnext
      · cases hnext
        rfl
      · split at hnext <;> cases hnext
        rfl
  | _ =>
      cases hnext
      rfl

theorem insertBefore_count {node : Ptr N} {pc : InsertBeforePC N} {r : Option (InsertBeforePC N)}
    (hnext : nextInsertBefore m node n pc = (act, r)) :
    (act.onMem m).currentElementCount = m.currentElementCount := by
  cases pc <;> cases hnext <;> rfl

theorem remove_count {pc : RemovePC N} {r : RemovePC N ⊕ Bool}
    (hnext : nextRemove s n pc = (act, r)) :
    (act.onMem s.mem).currentElementCount = s.mem.currentElementCount := by
  cases pc with
  | tryLock p =>
      simp only [nextRemove] at hnext
      split at hnext <;> cases hnext <;> rfl
  | _ =>
      cases hnext
      rfl

theorem htInsert_count {pc : HtInsertPC} {r : Option HtInsertPC}
    (hnext : nextHtInsert cfg m n pc = (act, r)) :
    (act.onMem m).currentElementCount = m.currentElementCount := by
  cases pc <;> cases hnext <;> rfl

theorem htFind_count [DecidableEq K] {k : K} {pc : HtFindPC N} {r : HtFindPC N ⊕ Option (Fin N)}
    (hnext : nextHtFind cfg m k pc = (act, r)) :
    (act.onMem m).currentElementCount = m.currentElementCount := by
  cases pc <;> cases hnext <;> rfl

theorem htRemove_count {pc : HtRemovePC N} {r : HtRemovePC N ⊕ Bool}
    (hnext : nextHtRemove cfg s n pc = (act, r)) :
    (act.onMem s.mem).currentElementCount = s.mem.currentElementCount := by
  cases pc with
  | tryLock b p =>
      simp only [nextHtRemove] at hnext
      split at hnext <;> cases hnext <;> rfl
  | setNext b p => cases p <;> cases hnext <;> rfl
  | _ =>
      cases hnext
      rfl

end CountOf

/-- **What a step does to the count**, and what it loads of it. -/
theorem Transition.count [DecidableEq K] {pc p : PC N K V} {move : Move K V}
    (h : Transition cfg s pc move act p) :
    p.loaded = (if pc.loads then some s.mem.currentElementCount else none) ∧
      (act.onMem s.mem).currentElementCount = pc.stores s.mem.currentElementCount := by
  cases h with
  | call c => cases c <;> exact ⟨rfl, rfl⟩
  | @find producer k _ _ _ hfind =>
      cases hfind with
      | search hr => exact ⟨rfl, htFind_count hr⟩
      | found hr => exact ⟨rfl, htFind_count hr⟩
      | missing hr => exact ⟨(afterFind_steady producer k none).2, htFind_count hr⟩
      | remove hr => exact ⟨rfl, remove_count hr⟩
      | removed hr => exact ⟨rfl, remove_count hr⟩
      | gone hr => exact ⟨rfl, remove_count hr⟩
      | insertLast hr => exact ⟨rfl, insertBefore_count hr⟩
      | inserted hr => exact ⟨rfl, insertBefore_count hr⟩
      | unlock n r => exact ⟨(afterFind_steady producer k r).2, rfl⟩
      | _ => exact ⟨rfl, rfl⟩
  | insert hinsert =>
      cases hinsert with
      | getNodeFromPool hr => exact ⟨rfl, evict_count hr⟩
      | pooled hr => exact ⟨rfl, evict_count hr⟩
      | poolEmpty hr => exact ⟨rfl, evict_count hr⟩
      | lruEvictHead hr => exact ⟨rfl, evict_count hr⟩
      | evicted hr => exact ⟨rfl, evict_count hr⟩
      | lruEmpty hr => exact ⟨rfl, evict_count hr⟩
      | htRemove hr => exact ⟨rfl, htRemove_count hr⟩
      | unlinked hr => exact ⟨rfl, htRemove_count hr⟩
      | linked hr => exact ⟨rfl, htRemove_count hr⟩
      | insertLast hr => exact ⟨rfl, insertBefore_count hr⟩
      | inserted hr => exact ⟨rfl, insertBefore_count hr⟩
      | htInsert hr => exact ⟨rfl, htInsert_count hr⟩
      | hashed hr => exact ⟨rfl, htInsert_count hr⟩
      | _ => exact ⟨rfl, rfl⟩

/-- A node that is owed to the list is not in it, and locked. -/
theorem Standing.owes {m : Mem N K V} {pc : PC N K V} {n : Fin N} (hs : Standing cfg m a trace pc)
    (hn : pc.owes = some n) : n ∉ a.lru ∧ .node n ∈ pc.holds := by
  have hnode : Ptr.node n ∈ [Ptr.node n] := List.mem_singleton_self _
  cases pc with
  | idle => cases hn
  | find producer k q =>
      cases q with
      | remove x r q =>
          cases q <;> simp [PC.owes, RemovePC.owes] at hn
          all_goals
            subst hn
            exact ⟨hs.1.1.1, by simp [PC.holds, FindPC.holds, RemovePC.holds]⟩
      | insertLast x r q =>
          have hoff := hs.1
          cases q <;> simp [PC.owes, InsertBeforePC.owes] at hn
          all_goals subst hn
          case load => exact ⟨hoff.1, hnode⟩
          all_goals exact ⟨hoff.1.1, by simp [PC.holds, FindPC.holds, InsertBeforePC.holds]⟩
      | _ => cases hn
  | insert k v q =>
      cases q with
      | lruEvictHead q =>
          cases q <;> simp [PC.owes, EvictPC.evicted] at hn
          all_goals
            subst hn
            exact ⟨hs.1.1, by simp [PC.holds, InsertPC.holds, EvictPC.holds]⟩
      | htRemove x q =>
          obtain rfl : x = n := by simpa [PC.owes] using hn
          refine ⟨hs.1.1, ?_⟩
          cases q with
          | setNext b prev => cases prev <;> simp [PC.holds, InsertPC.holds, HtRemovePC.holds]
          | _ => simp [PC.holds, InsertPC.holds, HtRemovePC.holds]
      | insertLast x q =>
          have hoff := hs.1
          cases q <;> simp [PC.owes, InsertBeforePC.owes] at hn
          all_goals subst hn
          case load => exact ⟨hoff.1, hnode⟩
          all_goals exact ⟨hoff.1.1, by simp [PC.holds, InsertPC.holds, InsertBeforePC.holds]⟩
      | getNodeFromPool q => cases hn
      | key x => cases hn
      | value x => cases hn
      | loadUp x => cases hn
      | storeUp x c => cases hn
      | htInsert x q => cases hn
      | unlock x => cases hn
      | _ =>
          obtain rfl := Option.some.inj hn
          exact ⟨hs.1.1, hnode⟩

section Counted

variable [Fintype T]

/-- **The bound**: the threads owe different nodes, and none of the list. -/
theorem Inv.length_add_tally_le (h : Inv cfg s a trace) :
    a.lru.length + tally PC.debt s.pc ≤ N := by
  have htally : tally PC.debt s.pc = (Finset.univ.filter fun t => (s.pc t).owes.isSome).card := by
    rw [Finset.card_filter]
    refine Finset.sum_congr rfl fun t _ => ?_
    unfold PC.debt
    cases (s.pc t).owes <;> rfl
  have hle : (Finset.univ.filter fun t => (s.pc t).owes.isSome).card ≤
      ((Finset.univ \ a.lru.toFinset).map Function.Embedding.some).card := by
    -- each debtor holds the lock of the node it owes, so two of them owe two nodes
    refine Finset.card_le_card_of_injOn (fun t => (s.pc t).owes) (fun t ht => ?_)
      (fun t ht u hu heq => ?_)
    · obtain ⟨n, hn⟩ := Option.isSome_iff_exists.1 (Finset.mem_filter.1 ht).2
      have howes := (h.standing t).owes hn
      simp [hn, howes.1]
    · obtain ⟨n, hn⟩ := Option.isSome_iff_exists.1 (Finset.mem_filter.1 ht).2
      exact h.nodes.unique ((h.standing t).owes hn).2 ((h.standing u).owes (heq.symm.trans hn)).2
  have hlru : a.lru.toFinset.card = a.lru.length :=
    List.toFinset_card_of_nodup (h.shape.list_nodup .lru)
  rw [Finset.card_map, Finset.card_sdiff_of_subset (Finset.subset_univ _), Finset.card_univ,
    Fintype.card_fin, hlru] at hle
  have hlen : a.lru.length ≤ N := by
    rw [← hlru]
    exact (Finset.card_le_univ _).trans_eq (Fintype.card_fin N)
  omega

/-- The count is the length of the list and what is owed to it, and no two threads are updating it. -/
structure Counted (s : State N K V T) (a : Lists N) : Prop where
  count : s.mem.currentElementCount = a.lru.length + tally PC.debt s.pc
  loaded : ∀ t c, (s.pc t).loaded = some c → c = s.mem.currentElementCount
  apart : ∀ t u, (s.pc t).loaded ≠ none → (s.pc u).loaded ≠ none → t = u

variable [DecidableEq K] [DecidableEq T]

theorem Counted.step {move : Move K V} (hc : Counted s a) (h : Inv cfg s a trace)
    (hstep : step cfg s t move = some (act, s'))
    (hok : CountsApart s (⟨t, s.pc t, move, act⟩ : Label N K V T)) :
    Counted s' ((s.pc t).onLists a) := by
  obtain ⟨p, hmoved, -, rfl⟩ := step_transition hstep
  obtain ⟨hload, hstore⟩ := hmoved.count
  have hlength := h.lru_length rfl hmoved
  have hbound := h.length_add_tally_le
  have hdebt := le_tally PC.debt s.pc t
  have htally := tally_update PC.debt s.pc t p
  have hcount := hc.count
  have hN := cfg.capacity_lt
  refine ⟨?_, fun u c hu => ?_, fun u w hu hw => ?_⟩
  · show (act.onMem s.mem).currentElementCount =
      ((s.pc t).onLists a).lru.length + tally PC.debt (Function.update s.pc t p)
    rw [hstore]
    rcases (s.pc t).loaded_cases with ⟨-, hsame, hup, hdown⟩ | ⟨c, hc', -, hupdate⟩
    · -- the count is not stored, and the list changes only by what is owed to it
      rw [hsame]
      rw [hup, hdown] at hlength
      simp only [Bool.false_eq_true, if_false] at hlength
      omega
    · -- the stored value comes from a load, and nothing was stored since
      have hcc := hc.loaded t c hc'
      rcases hupdate with ⟨hnew, hup, hdown⟩ | ⟨hnew, hup, hdown⟩ <;> rw [hnew] <;>
        rw [hup, hdown] at hlength <;> simp only [Bool.false_eq_true, if_false, if_true] at hlength
      · rw [Nat.mod_eq_of_lt (by omega)]
        omega
      · omega
  · show c = (act.onMem s.mem).currentElementCount
    have hu' : (Function.update s.pc t p u).loaded = some c := hu
    rw [hstore]
    rcases (s.pc t).loaded_cases with ⟨-, hsame, -, -⟩ | ⟨c', hc', hloads, -⟩
    · rw [hsame]
      by_cases hut : u = t
      · rw [hut, Function.update_self, hload] at hu'
        split at hu' <;> cases hu'
        rfl
      · rw [Function.update_of_ne hut] at hu'
        exact hc.loaded u c hu'
    · -- the thread replaces the count, and no other one has loaded it
      by_cases hut : u = t
      · rw [hut, Function.update_self, hload, hloads] at hu'
        cases hu'
      · rw [Function.update_of_ne hut] at hu'
        exact absurd (hc.apart u t (by simp [hu']) (by simp [hc'])) hut
  · have hnot : ∀ w, p.loaded ≠ none → (Function.update s.pc t p w).loaded ≠ none → w = t := by
      intro w hp hw
      by_contra hwt
      rw [Function.update_of_ne hwt] at hw
      -- a thread with a loaded count has just loaded it, which `CountsApart` forbids beside another
      have hloads : (s.pc t).loads = true := by
        by_contra hfalse
        rw [hload, if_neg hfalse] at hp
        exact hp rfl
      exact hw (hok hloads w)
    have hu' : (Function.update s.pc t p u).loaded ≠ none := hu
    have hw' : (Function.update s.pc t p w).loaded ≠ none := hw
    by_cases hut : u = t
    · rw [hut, Function.update_self] at hu'
      exact hut.trans (hnot w hu' hw').symm
    · by_cases hwt : w = t
      · rw [hwt, Function.update_self] at hw'
        exact absurd (hnot u hw' hu') hut
      · rw [Function.update_of_ne hut] at hu'
        rw [Function.update_of_ne hwt] at hw'
        exact hc.apart u w hu' hw'

variable [Inhabited K] [Inhabited V]

theorem Run.counted (hrun : Run cfg CountsApart s trace) : ∃ a, Inv cfg s a trace ∧ Counted s a := by
  induction hrun with
  | start =>
      refine ⟨_, Inv.initial cfg, ?_, nofun, nofun⟩
      have htally : tally PC.debt (initial N K V T).pc = 0 := tally_eq_zero fun _ => rfl
      rw [htally]
      rfl
  | step _ hstep hok ih =>
      obtain ⟨a, h, hc⟩ := ih
      exact ⟨_, h.step hstep, hc.step h hstep hok⟩

/-- **The count is right at rest**, and never above the capacity, if no thread loads it between the two
    accesses of another one. -/
theorem Run.count_eq (hrun : Run cfg CountsApart s trace) : s.mem.currentElementCount ≤ N ∧
    ((∀ t, s.pc t = .idle) → ∃ lru : List (Fin N),
      Strung s.mem.lruNext s.mem.lruPrev .node .lruHead .lruTail lru ∧
        s.mem.currentElementCount = lru.length) := by
  obtain ⟨a, h, hc⟩ := hrun.counted
  refine ⟨hc.count.trans_le h.length_add_tally_le, fun hidle => ⟨a.lru, h.shape.strung .lru, ?_⟩⟩
  rw [hc.count, tally_eq_zero (fun t => by rw [hidle t]; rfl), Nat.add_zero]

end Counted

/-- The check of `CountsApart`, for two threads. -/
def countsApart (s : State 2 ℕ ℕ (Fin 2)) (l : Label 2 ℕ ℕ (Fin 2)) : Bool :=
  !l.pc.loads || ((s.pc 0).loaded.isNone && (s.pc 1).loaded.isNone)

theorem countsApart_of_check (s : State 2 ℕ ℕ (Fin 2)) (l : Label 2 ℕ ℕ (Fin 2))
    (h : countsApart s l = true) : CountsApart s l := by
  intro hl u
  rw [countsApart, hl] at h
  simp only [Bool.not_true, Bool.false_or, Bool.and_eq_true, Option.isNone_iff_eq_none] at h
  match u with
  | 0 => exact h.1
  | 1 => exact h.2

/-- The thread runs no call. -/
def PC.isIdle : PC N K V → Bool
  | .idle => true
  | _ => false

theorem PC.eq_idle {p : PC N K V} (h : p.isIdle = true) : p = .idle := by
  cases p <;> first | rfl | cases h

/-- One thread inserts after the other. -/
theorem Run.count_eq_twoNodes : ∃ (s : State 2 ℕ ℕ (Fin 2)) (trace : List (Label 2 ℕ ℕ (Fin 2))),
    Run twoNodes CountsApart s trace ∧ s.mem.currentElementCount = 2 ∧
      s.mem.currentElementCount ≤ 2 ∧
      ((∀ t, s.pc t = .idle) → ∃ lru : List (Fin 2),
        Strung s.mem.lruNext s.mem.lruPrev .node .lruHead .lruTail lru ∧
          s.mem.currentElementCount = lru.length) := by
  obtain ⟨s, trace, hrun, hgood⟩ := Run.of_play twoNodes CountsApart countsApart
    countsApart_of_check (calls 0 (.insert 10 100) 28 ++ calls 1 (.insert 20 200) 28)
    (fun s _ => s.mem.currentElementCount = 2) (by decide +kernel)
  exact ⟨s, trace, hrun, of_decide_eq_true hgood, hrun.count_eq⟩

/-- **An update is lost**: both threads load the count before either stores it. -/
theorem Run.not_count_eq : ∃ (s : State 2 ℕ ℕ (Fin 2)) (trace : List (Label 2 ℕ ℕ (Fin 2))),
    Run twoNodes (fun _ _ => True) s trace ∧ (∀ t, s.pc t = .idle) ∧
      Strung s.mem.lruNext s.mem.lruPrev .node .lruHead .lruTail ([0, 1] : List (Fin 2)) ∧
      s.mem.currentElementCount = 1 := by
  obtain ⟨s, trace, hrun, hgood⟩ := Run.of_play twoNodes (fun _ _ => True) (fun _ _ => true)
    (fun _ _ _ => trivial)
    (calls (T := Fin 2) 0 (.insert 10 100) 12 ++ calls 1 (.insert 20 200) 12 ++ goes 0 16 ++
      goes 1 16)
    (fun s _ => decide <| (∀ t, (s.pc t).isIdle = true) ∧
      Strung s.mem.lruNext s.mem.lruPrev .node .lruHead .lruTail ([0, 1] : List (Fin 2)) ∧
      s.mem.currentElementCount = 1) (by decide +kernel)
  obtain ⟨hidle, hgood⟩ := of_decide_eq_true hgood
  exact ⟨s, trace, hrun, fun t => PC.eq_idle (hidle t), hgood⟩

end DeferredLru.ConcurrentLru
