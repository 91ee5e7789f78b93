import DeferredLru.Threads.Lists
import Mathlib.Data.Set.Card

set_option autoImplicit false

/-! # The Recent list and its counter

`markNodeRecent` pushes and then increments, `popRecentListSlice` takes the list and then stores zero.
A push that is late in counting is counted after the store, so the counter may run ahead of the list;
a push that falls between the exchange and the store and is counted there is forgotten, and the
counter stays behind for good (`Run.not_recentCount_covers`). If no store forgets a push, the list is
never longer than the counter and the threads that have still to count (`Run.recentCount_covers`). -/

namespace DeferredLru.Threads

open Intrusive

variable {N : ℕ} {K V T : Type} {cfg : Config N K} {s : State N K V T} {g g' : Ghost N T} {t : T}

/-- The thread has pushed a node and not yet counted it. -/
def PC.counting : PC N K V → Bool
  | .find _ _ (.mark _ _ .count) => true
  | _ => false

/-! ## Steps -/

theorem afterFind_counting (producer : Option V) (k : K) (r : Option V) :
    (afterFind producer k r : PC N K V).counting = false := by
  cases producer <;> cases r <;> rfl

theorem Back.pc_counting (back : Back K V) : (back.pc : PC N K V).counting = false := by
  cases back with
  | find producer k r => exact afterFind_counting producer k r
  | _ => rfl

theorem allocateAt_counting (consume : Bool) (k : K) (v : V) (p : Ptr N) :
    (allocateAt consume k v p).counting = false := by
  cases p <;> rfl

theorem searchAt_counting (producer : Option V) (k : K) (n : Option (Fin N)) :
    (PC.find producer k (searchAt n) : PC N K V).counting = false := by
  cases n <;> rfl

section Steps

variable {fails : Bool} {act : Act N K V} {pc pc' : PC N K V}

theorem nextConsolidate_counting {back : Back K V} {p : ConsolidatePC N}
    (h : nextConsolidate cfg s fails back p = some (act, pc')) : pc'.counting = false := by
  cases p with
  | purge p =>
      obtain ⟨⟨a, q⟩, hq, heq⟩ := Option.map_eq_some_iff.1 h
      cases heq
      cases q <;> rfl
  | pull p =>
      obtain ⟨⟨a, q⟩, hq, heq⟩ := Option.map_eq_some_iff.1 h
      cases heq
      cases q <;> rfl
  | tryLock =>
      simp only [nextConsolidate] at h
      split_ifs at h <;> cases h
      · rfl
      · exact Back.pc_counting back
  | unlock =>
      cases h
      exact Back.pc_counting back
  | _ =>
      cases h
      rfl

theorem nextInsert_counting {consume : Bool} {k : K} {v : V} {p : InsertPC N}
    (h : nextInsert cfg s fails consume k v p = some (act, pc')) : pc'.counting = false := by
  cases p with
  | allocate p =>
      cases p with
      | load =>
          cases h
          exact allocateAt_counting ..
      | loadNext node =>
          simp only [nextInsert] at h
          split_ifs at h
          cases h
          rfl
      | cas node link =>
          simp only [nextInsert] at h
          split_ifs at h
          · cases node <;> cases h
            rfl
          · cases h
            exact allocateAt_counting ..
  | bucket n p =>
      obtain ⟨⟨a, q⟩, hq, heq⟩ := Option.map_eq_some_iff.1 h
      cases heq
      cases q <;> rfl
  | add n p =>
      obtain ⟨⟨a, q⟩, hq, heq⟩ := Option.map_eq_some_iff.1 h
      cases heq
      cases q <;> rfl
  | reset n =>
      cases h
      cases consume <;> rfl
  | _ =>
      cases h
      rfl

/-- A node is marked by the compare-exchange of `markNodeRecent`. -/
theorem Label.deed_mark {l : Label N K V T} {n : Fin N} (h : l.deed = .mark n) :
    ∃ producer k r q p, l.pc = .find producer k (.mark n r (.cas q)) ∧ l.act = .setRecentHead p := by
  unfold Label.deed at h
  split at h <;> cases h
  exact ⟨_, _, _, _, _, rfl, rfl⟩

/-- How a step changes who has still to count. -/
inductive CountStep (pc pc' : PC N K V) (act : Act N K V) (d : Deed N) : Prop
  | up : pc.counting = true → pc'.counting = false → act = .recentUp → d = .nothing →
      CountStep pc pc' act d
  | push (n : Fin N) : pc.counting = false → pc'.counting = true → act ≠ .recentUp →
      act ≠ .recentReset → d = .mark n → CountStep pc pc' act d
  | other : pc.counting = false → pc'.counting = false → act ≠ .recentUp → (∀ n, d ≠ .mark n) →
      CountStep pc pc' act d

variable [DecidableEq K] {move : Move K V}

theorem next_counting (h : next cfg s pc move = some (act, pc')) :
    CountStep pc pc' act (Label.deed ⟨t, pc, move, act⟩) := by
  have hsite := next_site h
  -- away from `find` nothing is pushed or counted
  have hother : pc.counting = false → pc'.counting = false →
      (∀ producer k n r, pc ≠ .find producer k (.mark n r .count)) →
      (∀ producer k n r q, pc ≠ .find producer k (.mark n r (.cas q))) →
      CountStep pc pc' act (Label.deed ⟨t, pc, move, act⟩) := by
    intro hpc hpc' hcount hcas
    refine .other hpc hpc' ?_ ?_
    · rintro rfl
      obtain ⟨producer, k, n, r, heq⟩ := hsite
      exact hcount producer k n r heq
    · intro n hd
      obtain ⟨producer, k, r, q, p, heq, -⟩ := Label.deed_mark hd
      exact hcas producer k n r q heq
  cases next_transition h with
  | call hidle c =>
      rcases hidle with rfl | ⟨k, v, rfl⟩ <;>
        exact hother rfl (by cases c <;> rfl) (by simp) (by simp)
  | insert h => exact hother rfl (nextInsert_counting h) (by simp) (by simp)
  | consolidate h => exact hother rfl (nextConsolidate_counting h) (by simp) (by simp)
  | @find producer k p fails _ _ h =>
      cases p with
      | lock =>
          simp only [nextFind] at h
          split_ifs at h
          cases h
          exact hother rfl rfl (by simp) (by simp)
      | load =>
          cases h
          exact hother rfl (searchAt_counting ..) (by simp) (by simp)
      | key n =>
          cases h
          exact hother rfl (by split_ifs <;> rfl) (by simp) (by simp)
      | next n =>
          cases h
          exact hother rfl (searchAt_counting ..) (by simp) (by simp)
      | value n =>
          cases h
          exact hother rfl rfl (by simp) (by simp)
      | mark n r p =>
          obtain ⟨⟨a, q⟩, hq, heq⟩ := Option.map_eq_some_iff.1 h
          cases heq
          cases p with
          | test =>
              cases hq
              exact hother rfl (by split_ifs <;> rfl) (by simp) (by simp)
          | load =>
              cases hq
              exact hother rfl rfl (by simp) (by simp)
          | store head again =>
              cases hq
              exact hother rfl rfl (by simp) (by simp)
          | cas head =>
              simp only [nextMark] at hq
              split_ifs at hq
              · cases hq
                exact .push n rfl rfl (by simp) (by simp) rfl
              · cases hq
                exact .other rfl rfl (by simp) (by simp [Label.deed])
          | count =>
              cases hq
              exact .up rfl rfl rfl rfl
      | unlock r =>
          cases h
          exact hother rfl rfl (by simp) (by simp)
      | threshold r =>
          cases h
          refine hother rfl ?_ (by simp) (by simp)
          split_ifs
          · rfl
          · exact afterFind_counting ..

end Steps

/-! ## The list and the counter -/

/-- The Recent list is no longer than the counter and the threads that have still to count. -/
def CountInv (s : State N K V T) (g : Ghost N T) : Prop :=
  ∃ pending : Finset T, (∀ t, t ∈ pending ↔ (s.pc t).counting = true) ∧
    g.recent.length ≤ s.mem.recentCount + pending.card

/-- Pops stay on the pool chain, and when the counter is reset every node on the Recent list has
    still to be counted. -/
def ResetsCounted (s : State N K V T) (l : Label N K V T) : Prop :=
  PopsPooled s l ∧ (l.act = .recentReset → ∀ r : List (Fin N),
    Chain s.mem.recentNext .node s.mem.recentHead r .dummy →
      r.length ≤ {t | (s.pc t).counting = true}.ncard)

theorem recentCount_step {act : Act N K V} (hup : act ≠ .recentUp) (hreset : act ≠ .recentReset)
    (m : Mem N K V) :
    (act.onMem m).recentCount = m.recentCount := by
  cases act with
  | recentUp => exact absurd rfl hup
  | recentReset => exact absurd rfl hreset
  | _ => rfl

theorem PC.atRest.not_counting {pc : PC N K V} (h : pc.atRest = true) : pc.counting = false := by
  cases pc <;> first | rfl | cases h

variable [DecidableEq K] [DecidableEq T] {move : Move K V} {act : Act N K V} {pc' : PC N K V}

theorem Inv.countInv_step (h : Inv cfg s g) (hc : CountInv s g)
    (hnext : next cfg s (s.pc t) move = some (act, pc'))
    (he : Effect (Label.deed ⟨t, s.pc t, move, act⟩) g g')
    (hok : ResetsCounted s ⟨t, s.pc t, move, act⟩) : CountInv (s.apply t act pc') g' := by
  obtain ⟨pending, hpending, hlen⟩ := hc
  have hother : ∀ t', t' ≠ t → (s.apply t act pc').pc t' = s.pc t' := fun t' ht =>
    Function.update_of_ne ht _ _
  have hself : (s.apply t act pc').pc t = pc' := Function.update_self ..
  have hrecent := he.recent
  cases next_counting (t := t) hnext with
  | up hold hnew hact hdeed =>
      -- the thread counts its push: the counter gains what `pending` loses
      have ht : t ∈ pending := (hpending t).2 hold
      refine ⟨pending.erase t, fun t' => ?_, ?_⟩
      · by_cases htt : t' = t
        · rw [htt, hself, hnew]
          simp
        · rw [Finset.mem_erase, hother t' htt, ← hpending t']
          simp [htt]
      · rw [hdeed] at hrecent
        rw [hrecent, Finset.card_erase_of_mem ht]
        have hpos := Finset.card_pos.2 ⟨t, ht⟩
        show g.recent.length ≤ (act.onMem s.mem).recentCount + _
        rw [hact]
        show g.recent.length ≤ s.mem.recentCount + 1 + (pending.card - 1)
        omega
  | push n hold hnew hup hreset hdeed =>
      -- one more node on the list, and one more thread that has still to count it
      have ht : t ∉ pending := fun hm => by
        rw [(hpending t).1 hm] at hold
        cases hold
      refine ⟨pending.cons t ht, fun t' => ?_, ?_⟩
      · by_cases htt : t' = t
        · rw [htt, hself, hnew]
          simp
        · rw [Finset.mem_cons, hother t' htt, ← hpending t']
          simp [htt]
      · rw [hdeed] at hrecent
        rw [hrecent, Finset.card_cons]
        show (n :: g.recent).length ≤ (act.onMem s.mem).recentCount + _
        rw [recentCount_step hup hreset, List.length_cons]
        omega
  | other hold hnew hup hmark =>
      have hsame : ∀ t', t' ∈ pending ↔ ((s.apply t act pc').pc t').counting = true := by
        intro t'
        by_cases htt : t' = t
        · rw [htt, hself, hnew, hpending t, hold]
        · rw [hother t' htt, hpending t']
      refine ⟨pending, hsame, ?_⟩
      have hle : g'.recent.length ≤ g.recent.length := by
        rw [hrecent]
        cases hd : Label.deed ⟨t, s.pc t, move, act⟩ with
        | mark n => exact absurd hd (hmark n)
        | slice => simp [Deed.recent]
        | _ => exact le_rfl
      refine hle.trans ?_
      show g.recent.length ≤ (act.onMem s.mem).recentCount + pending.card
      by_cases hreset : act = .recentReset
      · -- the counter is zero now, and the pending threads alone cover the list
        have hcount := hok.2 hreset g.recent h.recent.chain
        rw [show {t | (s.pc t).counting = true} = (pending : Set T) from
          Set.ext fun t' => (hpending t').symm, Set.ncard_coe_finset] at hcount
        omega
      · rw [recentCount_step hup hreset]
        exact hlen

/-! ## Runs -/

variable [Inhabited K] [Inhabited V] {trace : List (Label N K V T)}

theorem Run.countInv (h : Run cfg ResetsCounted s trace) :
    ∃ g pool, Inv cfg s g ∧ PoolInv s.mem g pool ∧ CountInv s g := by
  induction h with
  | start =>
      exact ⟨_, _, .initial cfg, .initial, ∅, fun t => by simp [Threads.initial, PC.counting],
        Nat.zero_le _⟩
  | step _ hstep hok ih =>
      obtain ⟨g, pool, hinv, hpool, hcount⟩ := ih
      obtain ⟨pc', hnext, rfl⟩ := step_eq hstep
      obtain ⟨g', hinv', he⟩ := hinv.step hnext fun n => hpool.popped_free hnext
      obtain ⟨pool', hpool'⟩ := hpool.step hinv hnext he hok.1
      exact ⟨g', pool', hinv', hpool', hinv.countInv_step hcount hnext he hok⟩

/-- With no call running, a Recent list of `pull_threshold_` nodes hits the threshold. -/
def Covered (cfg : Config N K) (s : State N K V T) : Prop :=
  ∀ r : List (Fin N), Chain s.mem.recentNext .node s.mem.recentHead r .dummy →
    cfg.pullThreshold ≤ r.length → recentThresholdHit cfg s.mem = true

/-- **The counter covers the Recent list** in every state with no call running, in a run whose pops
    stay on the pool chain and whose resets forget no push. -/
theorem Run.recentCount_covers (h : Run cfg ResetsCounted s trace)
    (hrest : ∀ t, (s.pc t).atRest = true) : Covered cfg s := by
  obtain ⟨g, pool, hinv, -, pending, hpending, hlen⟩ := h.countInv
  intro r hr hle
  have hnone : pending = ∅ := by
    refine Finset.eq_empty_of_forall_notMem fun t ht => ?_
    have := (hpending t).1 ht
    rw [PC.atRest.not_counting (hrest t)] at this
    cases this
  rw [hnone, Finset.card_empty, Nat.add_zero] at hlen
  have hsame : r = g.recent :=
    Chain.unique Ptr.node_injective (by simp) (by simp) hr hinv.recent.chain
  rw [hsame] at hle
  exact decide_eq_true (hle.trans hlen)

/-- No reset happens while a node is on the Recent list, as a test. -/
def resetsEmpty (s : State 2 ℕ ℕ (Fin 2)) (l : Label 2 ℕ ℕ (Fin 2)) : Bool :=
  linkUnchanged s l && match l.act with
    | .recentReset => s.mem.recentHead = .dummy
    | _ => true

theorem resetsCounted_of_resetsEmpty (s : State 2 ℕ ℕ (Fin 2)) (l : Label 2 ℕ ℕ (Fin 2))
    (h : resetsEmpty s l = true) : ResetsCounted s l := by
  obtain ⟨hpop, hempty⟩ := Bool.and_eq_true_iff.1 h
  refine ⟨popsPooled_of_linkUnchanged s l hpop, fun hact r hr => ?_⟩
  rw [hact] at hempty
  rw [of_decide_eq_true hempty] at hr
  cases r with
  | nil => exact Nat.zero_le _
  | cons x r => cases hr.1

/-- A pull runs while thread 1 stands before its push, which comes after the reset. -/
theorem Run.recentCount_covers_push : ∃ s : State 2 ℕ ℕ (Fin 2),
    s.mem.recentHead = .node 1 ∧ Covered twoNodes s := by
  obtain ⟨s, trace, hrun, hgood⟩ := Run.of_play twoNodes ResetsCounted resetsEmpty
    resetsCounted_of_resetsEmpty
    ((0, .call (.insert 10 100)) :: goes 0 19 ++ (0, .call (.insert 20 200)) :: goes 0 19 ++
      (0, .call (.find 10)) :: goes 0 18 ++ (1, .call (.find 20)) :: goes 1 5 ++ goes 0 1 ++
      goes 1 8 ++ goes 0 18)
    (fun (s : State 2 ℕ ℕ (Fin 2)) _ =>
      s.mem.recentHead = .node 1 ∧ ∀ t, (s.pc t).atRest = true) (by decide +kernel)
  obtain ⟨hhead, hrest⟩ := of_decide_eq_true hgood
  exact ⟨s, hhead, hrun.recentCount_covers hrest⟩

/-- Thread 1 hits the threshold in a find and stands before its request while thread 0 pulls; the pull
    that it then starts takes an empty slice. Thread 0 finds both nodes, marks and counts them, and
    then thread 1 resets the counter. Every node is marked now, so the counter stays at zero. -/
theorem Run.not_recentCount_covers : ∃ (s : State 2 ℕ ℕ (Fin 2)) (trace : List (Label 2 ℕ ℕ (Fin 2))),
    Run twoNodes (fun _ _ => True) s trace ∧ (∀ t, (s.pc t).atRest = true) ∧
      (∀ n, s.mem.markedRecent n = true) ∧ s.mem.recentCount = 0 ∧ ¬ Covered twoNodes s := by
  obtain ⟨s, trace, hrun, hgood⟩ := Run.of_play twoNodes (fun _ _ => True) (fun _ _ => true)
    (fun _ _ _ => trivial)
    ((0, .call (.insert 10 100)) :: goes 0 19 ++ (0, .call (.insert 20 200)) :: goes 0 19 ++
      (0, .call (.find 10)) :: goes 0 18 ++ (1, .call (.find 10)) :: goes 1 9 ++ goes 0 19 ++
      goes 1 5 ++ (0, .call (.find 10)) :: goes 0 15 ++ (0, .call (.find 20)) :: goes 0 13 ++
      goes 1 4)
    (fun (s : State 2 ℕ ℕ (Fin 2)) _ => (∀ t, (s.pc t).atRest = true) ∧ s.mem.recentCount = 0 ∧
      s.mem.recentHead = .node 1 ∧ s.mem.recentNext 1 = .node 0 ∧ s.mem.recentNext 0 = .dummy)
    (by decide +kernel)
  obtain ⟨hrest, hcount, hhead, hnext, hlast⟩ := of_decide_eq_true hgood
  refine ⟨s, trace, hrun, hrest, fun n => ?_, hcount, fun hcovered => ?_⟩
  · match n with
    | 0 => simp [Mem.markedRecent, hlast]
    | 1 => simp [Mem.markedRecent, hnext]
  · have hhit := hcovered [1, 0] ⟨hhead, hnext, hlast⟩ (by decide)
    rw [recentThresholdHit, hcount] at hhit
    exact absurd hhit (by decide)

end DeferredLru.Threads
