import DeferredLru.Concurrent.Integrity
import DeferredLru.Lib.Acyclic

set_option autoImplicit false

/-! # Who waits for whom in `ConcurrentLRU`

Two kinds of threads hold a node that is in neither list while they want another one. A thread in
`listInsertBefore` wants the node that it has read as the last one and has not locked yet, which may
have left the list since. A thread in `evictLeastRecentlyUsed` wants the node before its own in the
bucket. These are the edges of `Waits`; only an eviction can close a cycle of them
(`Inv.acyclic`). -/

namespace DeferredLru.ConcurrentLru

open Intrusive Waiting

variable {N : ℕ} {K V T : Type} {cfg : Config N K} {s s' : State N K V T} {m : Mem N K V}
  {a : Lists N} {trace : List (Label N K V T)} {act : Act N K V} {t : T} {n x y : Fin N}
  {l : List (Fin N)}

/-! ## Order in a bucket -/

/-- In the bucket of `n`, the node `y` comes before `n`. -/
def Before (cfg : Config N K) (m : Mem N K V) (y n : Fin N) : Prop :=
  ∃ l₁ l₂, Chain m.htNext some (m.ht (cfg.whichBucket (m.key n))) (l₁ ++ n :: l₂) none ∧ y ∈ l₁

theorem pair_sublist : [y, n].Sublist l ↔ ∃ l₁ l₂, l = l₁ ++ n :: l₂ ∧ y ∈ l₁ := by
  constructor
  · intro h
    obtain ⟨r₁, r₂, rfl, hy, hn⟩ := List.append_sublist_iff.1 (show ([y] ++ [n]).Sublist l from h)
    obtain ⟨u, v, rfl⟩ := List.append_of_mem (List.singleton_sublist.1 hn)
    refine ⟨r₁ ++ u, v, by rw [List.append_assoc], ?_⟩
    exact List.mem_append_left _ (List.singleton_sublist.1 hy)
  · rintro ⟨l₁, l₂, rfl, hy⟩
    exact (List.singleton_sublist.2 hy).append (List.singleton_sublist.2 List.mem_cons_self)

theorem Shape.before_iff (h : Shape cfg m a) :
    Before cfg m y n ↔ ∃ b, [y, n].Sublist (a.bucket b) := by
  have huniq : ∀ b l, Chain m.htNext some (m.ht b) l none → a.bucket b = l := fun b l hl =>
    Chain.unique (fun _ _ => Option.some.inj) (by simp) (by simp) (h.chains b) hl
  constructor
  · rintro ⟨l₁, l₂, hl, hy⟩
    exact ⟨_, pair_sublist.2 ⟨l₁, l₂, huniq _ _ hl, hy⟩⟩
  · rintro ⟨b, hsub⟩
    obtain ⟨l₁, l₂, hl, hy⟩ := pair_sublist.1 hsub
    have hb : cfg.whichBucket (m.key n) = b := h.hashed b n (by rw [hl]; simp)
    refine ⟨l₁, l₂, ?_, hy⟩
    rw [hb, ← hl]
    exact h.chains b

theorem Shape.not_before (h : Shape cfg m a) : ¬ Before cfg m n n := by
  intro hn
  obtain ⟨b, hsub⟩ := h.before_iff.1 hn
  exact absurd (hsub.nodup (h.bucket_nodup b)) (by simp)

/-! ## Waiting -/

/-- The node that a thread is inserting, and the one that it has read as the last of the list. -/
def PC.stale : PC N K V → Option (Fin N × Fin N)
  | .find _ _ (.insertLast n _ (.lockPrev (.node y))) => some (n, y)
  | .insert _ _ (.insertLast n (.lockPrev (.node y))) => some (n, y)
  | _ => none

/-- The node is still in its bucket. -/
def HtRemovePC.linked : HtRemovePC N → Bool
  | .unlockPrev _ _ => false
  | .clearNext _ => false
  | .clearFlag _ => false
  | .unlock _ removed => !removed
  | _ => true

/-- The node that a thread has taken from the LRU list and not yet from its bucket. -/
def PC.evicted : PC N K V → Option (Fin N)
  | .insert _ _ (.lruEvictHead p) => p.evicted
  | .insert _ _ (.unsetFlag n) => some n
  | .insert _ _ (.await n) => some n
  | .insert _ _ (.htRemove n p) => if p.linked then some n else none
  | _ => none

/-- Whoever holds `x` waits for whoever holds `y`. -/
def Waits (cfg : Config N K) (s : State N K V T) (x y : Fin N) : Prop :=
  ∃ t, (s.pc t).stale = some (x, y) ∨ (s.pc t).evicted = some x ∧ Before cfg s.mem y x

/-- An eviction takes out no node for which the holder of a node before it in its bucket waits,
    directly or through others. -/
def EvictsFreely (cfg : Config N K) (s : State N K V T) (l : Label N K V T) : Prop :=
  ∀ k v n next, l.pc = .insert k v (.lruEvictHead (.splice n next)) → ∀ y, Before cfg s.mem y n →
    ¬ Relation.TransGen (Waits cfg s) y n

theorem Standing.stale_off {pc : PC N K V} (hs : Standing cfg m a trace pc)
    (h : pc.stale = some (x, y)) : a.Off x := by
  unfold PC.stale at h
  split at h
  · cases h
    exact hs.1.1
  · cases h
    exact hs.1.1
  · cases h

theorem Standing.evicted_off {pc : PC N K V} (hs : Standing cfg m a trace pc)
    (h : pc.evicted = some x) : a.Off x := by
  unfold PC.evicted at h
  split at h
  · rename_i p
    cases p <;> cases h <;> exact hs.1
  · cases h
    exact hs.1
  · cases h
    exact hs.1
  · split at h
    · cases h
      exact hs.1
    · cases h
  · cases h

/-- Nobody waits with a node that is in the LRU list. -/
theorem Inv.not_waits (h : Inv cfg s a trace) (hx : x ∈ a.lru) : ¬ Waits cfg s x y := by
  rintro ⟨t, hstale | ⟨hev, -⟩⟩
  · exact ((h.standing t).stale_off hstale).1 hx
  · exact ((h.standing t).evicted_off hev).1 hx

/-! ## One step -/

/-- The node to insert and the one read as the last, after a step. -/
def insertBeforeStale (n : Fin N) : Option (InsertBeforePC N) → Option (Fin N × Fin N)
  | some (.lockPrev (.node y)) => some (n, y)
  | _ => none

theorem InsertBeforePC.stale_step {pc : InsertBeforePC N} {r : Option (InsertBeforePC N)}
    (hnext : nextInsertBefore m .lruTail n pc = (act, r)) (h : insertBeforeStale n r = some (x, y)) :
    pc = .load ∧ m.lruPrev .lruTail = .node y := by
  cases pc with
  | load =>
      cases hnext
      unfold insertBeforeStale at h
      split at h
      case h_1 z hz =>
        cases h
        simpa using hz
      case h_2 => cases h
  | test q =>
      cases hnext
      unfold insertBeforeStale at h
      split at h
      case h_1 z hz =>
        split at hz <;> simp at hz
      case h_2 => cases h
  | _ =>
      cases hnext
      cases h

theorem EvictPC.evicted_step {pc : EvictPC N} {r : EvictPC N ⊕ Option (Fin N)} {prev last : Ptr N}
    (hnext : nextEvict m prev last pc = some (act, r)) (h : evictEvicted r = some x) :
    pc.evicted = some x ∨ ∃ next, pc = .splice x next := by
  cases pc with
  | load =>
      simp only [nextEvict] at hnext
      split at hnext
      · cases hnext
        cases h
      · split at hnext <;> cases hnext
        cases h
  | splice z next =>
      cases hnext
      cases h
      exact Or.inr ⟨next, rfl⟩
  | _ =>
      cases hnext
      exact Or.inl h

/-- The node is still in its bucket after a step. -/
def htRemoveLinked : HtRemovePC N ⊕ Bool → Bool
  | .inl pc => pc.linked
  | .inr removed => !removed

theorem HtRemovePC.linked_step {pc : HtRemovePC N} {r : HtRemovePC N ⊕ Bool}
    (hnext : nextHtRemove cfg s n pc = (act, r)) (h : htRemoveLinked r = true) :
    pc.linked = true := by
  cases pc with
  | setNext b prev => rfl
  | unlockPrev b q =>
      cases hnext
      cases h
  | clearNext b =>
      cases hnext
      cases h
  | clearFlag b =>
      cases hnext
      cases h
  | unlock b removed =>
      cases hnext
      exact h
  | _ => rfl

theorem afterFind_idle (producer : Option V) (k : K) (r : Option V) :
    (afterFind (N := N) producer k r).stale = none ∧
      (afterFind (N := N) producer k r).evicted = none := by
  unfold afterFind
  split <;> exact ⟨rfl, rfl⟩

theorem stale_find (producer : Option V) (k : K) (n : Fin N) (r : V) (q : InsertBeforePC N) :
    (PC.find producer k (.insertLast n r q)).stale = insertBeforeStale n (some q) := by
  cases q with
  | lockPrev p => cases p <;> rfl
  | _ => rfl

theorem stale_insert (k : K) (v : V) (n : Fin N) (q : InsertBeforePC N) :
    (PC.insert k v (.insertLast n q)).stale = insertBeforeStale n (some q) := by
  cases q with
  | lockPrev p => cases p <;> rfl
  | _ => rfl

variable [DecidableEq K] {pc p : PC N K V} {move : Move K V}

/-- **A wait begins** when a thread reads the last node of the list, or takes the first one out. -/
theorem Transition.waits (h : Transition cfg s pc move act p) :
    (∀ x y, p.stale = some (x, y) → s.mem.lruPrev .lruTail = .node y ∧ pc.onLists a = a) ∧
      ∀ x, p.evicted = some x →
        pc.evicted = some x ∨ ∃ k v next, pc = .insert k v (.lruEvictHead (.splice x next)) := by
  cases h with
  | call c => cases c <;> exact ⟨nofun, nofun⟩
  | @find producer k _ _ _ hfind =>
      cases hfind with
      | missing hr =>
          obtain ⟨hstale, hev⟩ := afterFind_idle (N := N) producer k none
          rw [hstale, hev]
          exact ⟨nofun, nofun⟩
      | insertLast hr =>
          refine ⟨fun x y h => ?_, nofun⟩
          rw [stale_find] at h
          obtain ⟨rfl, hlast⟩ := InsertBeforePC.stale_step hr h
          exact ⟨hlast, rfl⟩
      | unlock n r =>
          obtain ⟨hstale, hev⟩ := afterFind_idle (N := N) producer k r
          rw [hstale, hev]
          exact ⟨nofun, nofun⟩
      | _ => exact ⟨nofun, nofun⟩
  | @insert k v _ _ _ hinsert =>
      cases hinsert with
      | @lruEvictHead q q' _ hr =>
          refine ⟨nofun, fun x h => (EvictPC.evicted_step hr h).imp id ?_⟩
          rintro ⟨next, rfl⟩
          exact ⟨k, v, next, rfl⟩
      | @evicted q n _ hr =>
          refine ⟨nofun, fun x h => (EvictPC.evicted_step hr h).imp id ?_⟩
          rintro ⟨next, rfl⟩
          exact ⟨k, v, next, rfl⟩
      | unsetFlag n => exact ⟨nofun, fun x h => Or.inl h⟩
      | published n => exact ⟨nofun, fun x h => Or.inl h⟩
      | await n => exact ⟨nofun, fun x h => Or.inl h⟩
      | @htRemove n q q' _ hr =>
          refine ⟨nofun, fun x h => Or.inl ?_⟩
          simp only [PC.evicted] at h
          split at h
          case isTrue hq =>
            cases h
            exact if_pos (HtRemovePC.linked_step hr hq)
          case isFalse => cases h
      | linked hr =>
          refine ⟨nofun, fun x h => Or.inl ?_⟩
          cases h
          exact if_pos (HtRemovePC.linked_step hr rfl)
      | insertLast hr =>
          refine ⟨fun x y h => ?_, nofun⟩
          rw [stale_insert] at h
          obtain ⟨rfl, hlast⟩ := InsertBeforePC.stale_step hr h
          exact ⟨hlast, rfl⟩
      | _ => exact ⟨nofun, nofun⟩

omit [DecidableEq K] in
/-- A node that gets in front of another one in its bucket is in the LRU list. -/
theorem Standing.sublist_onLists {b : ℕ} (hs : Standing cfg m a trace pc)
    (h : [y, x].Sublist ((pc.onLists a).bucket b)) :
    [y, x].Sublist (a.bucket b) ∨ y ∈ (pc.onLists a).lru := by
  cases pc with
  | idle => exact Or.inl h
  | find producer k q =>
      cases q with
      | remove n r q => cases q <;> exact Or.inl h
      | insertLast n r q => cases q <;> exact Or.inl h
      | _ => exact Or.inl h
  | insert k v q =>
      cases q with
      | getNodeFromPool q => cases q <;> exact Or.inl h
      | lruEvictHead q => cases q <;> exact Or.inl h
      | insertLast n q => cases q <;> exact Or.inl h
      | htRemove n q =>
          cases q with
          | setNext c prev =>
              have hsub : [y, x].Sublist (Function.update a.bucket c ((a.bucket c).erase n) b) := h
              by_cases hb : b = c
              · rw [hb, Function.update_self] at hsub
                rw [hb]
                exact Or.inl (hsub.trans List.erase_sublist)
              · rw [Function.update_of_ne hb] at hsub
                exact Or.inl hsub
          | _ => exact Or.inl h
      | htInsert n q =>
          cases q with
          | setHead c =>
              have hsub : [y, x].Sublist (Function.update a.bucket c (n :: a.bucket c) b) := h
              by_cases hb : b = c
              · rw [hb, Function.update_self] at hsub
                rw [hb]
                cases hsub with
                | cons _ hsub => exact Or.inl hsub
                | cons_cons _ _ => exact Or.inr hs.1
              · rw [Function.update_of_ne hb] at hsub
                exact Or.inl hsub
          | _ => exact Or.inl h
      | _ => exact Or.inl h

variable [DecidableEq T]

/-- **Only an eviction can close a cycle.** -/
theorem Inv.acyclic (h : Inv cfg s a trace) (hacyc : Acyclic (Waits cfg s))
    (hstep : ConcurrentLru.step cfg s t move = some (act, s'))
    (hfree : EvictsFreely cfg s ⟨t, s.pc t, move, act⟩) : Acyclic (Waits cfg s') := by
  have h' := h.step hstep
  obtain ⟨p, hmoved, -, rfl⟩ := step_transition hstep
  have hlast := (h.shape.strung .lru).next_prev_tail.1
  obtain ⟨hstale, hevicted⟩ := hmoved.waits (a := a)
  -- the order in the buckets is the old one, but for nodes of the LRU list
  have hbefore : ∀ y x, Before cfg (s.apply t act p).mem y x →
      Before cfg s.mem y x ∨ y ∈ ((s.pc t).onLists a).lru := by
    intro y x hyx
    obtain ⟨b, hsub⟩ := h'.shape.before_iff.1 hyx
    exact ((h.standing t).sublist_onLists hsub).imp (fun hsub => h.shape.before_iff.2 ⟨b, hsub⟩) id
  have hedge : ∀ x y, Waits cfg (s.apply t act p) x y → (Waits cfg s x y ∨
      (∃ k v next, s.pc t = .insert k v (.lruEvictHead (.splice x next))) ∧
        Before cfg s.mem y x) ∨ y ∈ ((s.pc t).onLists a).lru := by
    rintro x y ⟨u, hu⟩
    by_cases hut : u = t
    · have hpc : (s.apply t act p).pc u = p := by rw [hut]; exact Function.update_self ..
      rw [hpc] at hu
      rcases hu with hu | ⟨hu, hyx⟩
      · obtain ⟨hy, hlists⟩ := hstale x y hu
        rw [hlists]
        rcases hlast with hhead | ⟨z, hz, hprev⟩
        · exact absurd (hy.symm.trans hhead) nofun
        · obtain rfl := Ptr.node.inj (hy.symm.trans hprev)
          exact Or.inr hz
      · refine (hbefore y x hyx).imp (fun hyx => ?_) id
        exact (hevicted x hu).imp (fun hu => ⟨t, Or.inr ⟨hu, hyx⟩⟩) (fun hu => ⟨hu, hyx⟩)
    · have hpc : (s.apply t act p).pc u = s.pc u := Function.update_of_ne hut _ _
      rw [hpc] at hu
      rcases hu with hu | ⟨hu, hyx⟩
      · exact Or.inl (Or.inl ⟨u, Or.inl hu⟩)
      · exact (hbefore y x hyx).imp (fun hyx => Or.inl ⟨u, Or.inr ⟨hu, hyx⟩⟩) id
  refine Acyclic.sinks (r := fun x y => Waits cfg s x y ∨
    (∃ k v next, s.pc t = .insert k v (.lruEvictHead (.splice x next))) ∧ Before cfg s.mem y x)
    ?_ (fun x y hxy => (hedge x y hxy).imp id fun hy z => h'.not_waits hy)
  by_cases hsplice : ∃ n k v next, s.pc t = .insert k v (.lruEvictHead (.splice n next))
  · obtain ⟨n, k, v, next, hpc⟩ := hsplice
    refine hacyc.source (n := n) (p := fun y => Before cfg s.mem y n) (fun x y hxy => ?_)
      (fun y hy hpath => ?_)
    · rcases hxy with hxy | ⟨⟨k', v', next', hpc'⟩, hyx⟩
      · exact Or.inl hxy
      · obtain ⟨-, -, rfl, -⟩ : k = k' ∧ v = v' ∧ n = x ∧ next = next' := by
          simpa using hpc.symm.trans hpc'
        exact Or.inr ⟨rfl, hyx⟩
    · rcases Relation.reflTransGen_iff_eq_or_transGen.1 hpath with rfl | hpath
      · exact h.shape.not_before hy
      · exact hfree k v n next hpc y hy hpath
  · refine hacyc.sinks (fun x y hxy => Or.inl ?_)
    exact hxy.resolve_right (fun hx => hsplice ⟨x, hx.1⟩)

end DeferredLru.ConcurrentLru
