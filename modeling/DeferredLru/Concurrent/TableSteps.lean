import DeferredLru.Concurrent.ListSteps

set_option autoImplicit false

/-! # The steps on the table

`htInsert`, `htFind` and `htRemove`, one access each. Whoever walks along a bucket has its lock, so
the chain stays as it is; a node is unlinked from the one before it under the locks of both. -/

namespace DeferredLru.ConcurrentLru

open Intrusive

variable {N : ℕ} {K V T : Type} {cfg : Config N K} {s : State N K V T} {m m' : Mem N K V}
  {a a' : Lists N} {trace : List (Label N K V T)} {act : Act N K V} {n : Fin N} {p : Fin N} {b : ℕ}

/-! ## Ghost lists -/

/-- The buckets after the next access of `htInsert`. -/
def HtInsertPC.onLists (n : Fin N) (a : Lists N) : HtInsertPC → Lists N
  | .setHead b => a.setBucket b (n :: a.bucket b)
  | _ => a

/-- The buckets after the next access of `htRemove`. -/
def HtRemovePC.onLists (n : Fin N) (a : Lists N) : HtRemovePC N → Lists N
  | .setNext b _ => a.setBucket b ((a.bucket b).erase n)
  | _ => a

theorem HtInsertPC.onLists_lru (n : Fin N) (a : Lists N) (pc : HtInsertPC) :
    (pc.onLists n a).lru = a.lru := by
  cases pc <;> rfl

theorem HtRemovePC.onLists_lru (n : Fin N) (a : Lists N) (pc : HtRemovePC N) :
    (pc.onLists n a).lru = a.lru := by
  cases pc <;> rfl

theorem HtRemovePC.onLists_off (n : Fin N) (a : Lists N) (pc : HtRemovePC N) :
    (pc.onLists n a).Off n ↔ a.Off n := by
  cases pc <;> rfl

/-! ## `htInsert` -/

/-- The bucket locked after the step. -/
def htInsertBucket : Option HtInsertPC → List ℕ
  | some pc => pc.bucket
  | none => []

/-- What holds after the step: the node can be found when the call returns. -/
def HtInsertPost (cfg : Config N K) (m : Mem N K V) (a : Lists N) (n : Fin N) :
    Option HtInsertPC → Prop
  | some pc => pc.Standing cfg m a n
  | none => Hashed cfg m a n

theorem Inv.htInsert (h : Inv cfg s a trace) {pc : HtInsertPC} {r : Option HtInsertPC}
    (hn : n ∈ a.lru) (hs : pc.Standing cfg s.mem a n) (hnext : nextHtInsert cfg s.mem n pc = (act, r)) :
    Effect cfg s.mem a (pc.onLists n a) trace act [.node n] [.node n] pc.bucket (htInsertBucket r) ∧
      (Filled s.mem trace n → Filled (act.onMem s.mem) trace n) ∧
      HtInsertPost cfg (act.onMem s.mem) (pc.onLists n a) n r := by
  have hshape := h.shape
  have hnode : Ptr.node n ∈ [Ptr.node n] := List.mem_singleton_self _
  cases pc with
  | hash =>
      cases hnext
      exact ⟨Effect.read hshape .rfl, id, hs, rfl⟩
  | lock b =>
      cases hnext
      exact ⟨Effect.lockBucket hshape .rfl, id, hs⟩
  | setNext b =>
      cases hnext
      exact ⟨Effect.htSetNext hshape hs.1 hnode _, id, hs.1, hs.2, Function.update_self ..⟩
  | setHead b =>
      cases hnext
      obtain ⟨-, hb, hlink⟩ := hs
      have hpool := hshape.not_mem_pool hn
      refine ⟨Effect.setHead hshape hpool hb.symm hlink hnode (by simp [HtInsertPC.bucket]), id, ?_⟩
      show n ∈ (a.setBucket b (n :: a.bucket b)).bucket (cfg.whichBucket (s.mem.key n))
      rw [← hb, Lists.mem_setBucket]
      exact List.mem_cons_self
  | setFlag b =>
      cases hnext
      exact ⟨Effect.htSetFlag hshape hnode true, id, Function.update_self .., hs⟩
  | unlock b =>
      cases hnext
      exact ⟨Effect.unlockBucket hshape .rfl, id, hs⟩

/-! ## `htFind` -/

/-- The bucket locked after the step. -/
def htFindBucket (b : ℕ) : HtFindPC N ⊕ Option (Fin N) → List ℕ
  | .inl pc => pc.bucket b
  | .inr _ => []

/-- What holds after the step: the search is still in the bucket. -/
def HtFindPost (a : Lists N) (b : ℕ) : HtFindPC N ⊕ Option (Fin N) → Prop
  | .inl pc => pc.Standing a b
  | .inr _ => True

/-- The loop of `htFind` stays in the bucket. -/
theorem htFindAt_standing {current : Option (Fin N)}
    (hc : current = none ∨ ∃ x ∈ a.bucket b, current = some x) :
    (htFindAt current).Standing a b ∧ (htFindAt current).bucket b = [b] := by
  rcases hc with rfl | ⟨x, hx, rfl⟩
  · exact ⟨trivial, rfl⟩
  · exact ⟨hx, rfl⟩

theorem Inv.htFind [DecidableEq K] (h : Inv cfg s a trace) {k : K} {pc : HtFindPC N}
    {r : HtFindPC N ⊕ Option (Fin N)} (hs : pc.Standing a (cfg.whichBucket k))
    (hnext : nextHtFind cfg s.mem k pc = (act, r)) :
    Effect cfg s.mem a a trace act [] [] (pc.bucket (cfg.whichBucket k))
        (htFindBucket (cfg.whichBucket k) r) ∧
      HtFindPost a (cfg.whichBucket k) r := by
  have hshape := h.shape
  have hchain := hshape.chains (cfg.whichBucket k)
  cases pc with
  | lock =>
      cases hnext
      exact ⟨Effect.lockBucket hshape .rfl, trivial⟩
  | load =>
      cases hnext
      obtain ⟨hstand, hbucket⟩ := htFindAt_standing hchain.start_mem
      refine ⟨?_, hstand⟩
      rw [htFindBucket, hbucket]
      exact Effect.read hshape .rfl
  | compare x =>
      simp only [nextHtFind] at hnext
      split at hnext <;> cases hnext
      · exact ⟨Effect.read hshape .rfl, trivial⟩
      · exact ⟨Effect.read hshape .rfl, hs⟩
  | next x =>
      cases hnext
      obtain ⟨hstand, hbucket⟩ := htFindAt_standing (hchain.next_mem hs)
      refine ⟨?_, hstand⟩
      rw [htFindBucket, hbucket]
      exact Effect.read hshape .rfl
  | unlock r =>
      cases hnext
      exact ⟨Effect.unlockBucket hshape .rfl, trivial⟩

/-! ## `htRemove` -/

theorem Shape.ht_eq (h : Shape cfg m a) (b : ℕ) : m.ht b = (a.bucket b).head? := by
  have hchain := h.chains b
  cases hl : a.bucket b with
  | nil =>
      rw [hl] at hchain
      exact hchain
  | cons x l =>
      rw [hl] at hchain
      exact hchain.1

theorem Shape.htNext_eq (h : Shape cfg m a) {l₁ l₂ : List (Fin N)} (hl : a.bucket b = l₁ ++ p :: l₂) :
    m.htNext p = l₂.head? := by
  have hchain := h.chains b
  rw [hl] at hchain
  have hrest := hchain.split.2
  cases l₂ with
  | nil => exact hrest
  | cons x l => exact hrest.1

namespace Passed

variable {prev current : Option (Fin N)}

/-- The loop finds the node in the end. -/
theorem current_ne_none (h : Passed a b n prev none) : False := by
  obtain ⟨l₁, l₂, -, -, hhead, hn⟩ := h
  rw [List.head?_eq_none_iff.1 hhead] at hn
  exact absurd hn (by simp)

theorem step (hshape : Shape cfg m a) (h : Passed a b n prev (some p)) (hne : p ≠ n) :
    Passed a b n (some p) (m.htNext p) := by
  obtain ⟨l₁, l₂, hl, -, hhead, hn⟩ := h
  cases l₂ with
  | nil => exact absurd hn (by simp)
  | cons x l =>
      obtain rfl : x = p := by simpa using hhead
      refine ⟨l₁ ++ [x], l, by simpa using hl, by simp, (hshape.htNext_eq hl).symm, ?_⟩
      exact (List.mem_cons.1 hn).resolve_left (Ne.symm hne)

theorem first (hshape : Shape cfg m a) (h : Passed a b n none (some n)) : m.ht b = some n := by
  obtain ⟨l₁, l₂, hl, hlast, hhead, -⟩ := h
  rw [hshape.ht_eq, hl, List.getLast?_eq_none_iff.1 hlast]
  exact hhead

theorem after (hshape : Shape cfg m a) (h : Passed a b n (some p) (some n)) :
    p ∈ a.bucket b ∧ m.htNext p = some n := by
  obtain ⟨l₁, l₂, hl, hlast, hhead, -⟩ := h
  obtain ⟨l, rfl⟩ := List.getLast?_eq_some_iff.1 hlast
  have hl' : a.bucket b = l ++ p :: l₂ := by simpa using hl
  refine ⟨by rw [hl']; simp, ?_⟩
  rw [hshape.htNext_eq hl', hhead]

theorem mem (h : Passed a b n prev current) : n ∈ a.bucket b := by
  obtain ⟨l₁, l₂, hl, -, -, hn⟩ := h
  rw [hl]
  exact List.mem_append_right _ hn

end Passed

/-- The locks held after the step. -/
def htRemoveHolds (n : Fin N) : HtRemovePC N ⊕ Bool → List (Ptr N)
  | .inl pc => pc.holds n
  | .inr _ => [.node n]

/-- The bucket locked after the step. -/
def htRemoveBucket : HtRemovePC N ⊕ Bool → List ℕ
  | .inl pc => pc.bucket
  | .inr _ => []

/-- What holds after the step: the node is in no bucket when the call has succeeded. -/
def HtRemovePost (cfg : Config N K) (m : Mem N K V) (a : Lists N) (trace : List (Label N K V T))
    (n : Fin N) : HtRemovePC N ⊕ Bool → Prop
  | .inl pc => pc.Standing cfg m a trace n
  | .inr true => a.Bare n
  | .inr false => Hashed cfg m a n

/-- Unlinking a node from its bucket does not disturb another one. -/
theorem AtRest.setBucket (hr : AtRest cfg m a trace p) (hkey : m'.key = m.key)
    (hvalue : m'.value = m.value) (hflag : m'.lruFlag = m.lruFlag) (hht : m'.htFlag = m.htFlag)
    (hne : p ≠ n) : AtRest cfg m' (a.setBucket b ((a.bucket b).erase n)) trace p := by
  refine hr.imp (fun ⟨hp, hl⟩ => ⟨hp, ?_, ⟨?_, ?_⟩, ?_⟩) id
  · rw [hflag]
    exact hl.flag
  · rw [hht]
    exact hl.hashed.1
  · rw [hkey]
    show p ∈ Function.update a.bucket b _ _
    by_cases hb : cfg.whichBucket (m.key p) = b
    · rw [hb, Function.update_self, List.mem_erase_of_ne hne, ← hb]
      exact hl.hashed.2
    · rw [Function.update_of_ne hb]
      exact hl.hashed.2
  · rw [hkey, hvalue]
    exact hl.stored

theorem Inv.htRemove (h : Inv cfg s a trace) (hact : act.enabled s = true) {pc : HtRemovePC N}
    {r : HtRemovePC N ⊕ Bool} (hs : pc.Standing cfg s.mem a trace n) (hdup : (pc.holds n).Nodup)
    (hnext : nextHtRemove cfg s n pc = (act, r)) :
    Effect cfg s.mem a (pc.onLists n a) trace act (pc.holds n) (htRemoveHolds n r) pc.bucket
        (htRemoveBucket r) ∧
      HtRemovePost cfg (act.onMem s.mem) (pc.onLists n a) trace n r := by
  have hshape := h.shape
  cases pc with
  | hash =>
      cases hnext
      exact ⟨Effect.read hshape .rfl, hs, rfl⟩
  | lock b =>
      cases hnext
      exact ⟨Effect.lockBucket hshape .rfl, hs⟩
  | load b =>
      cases hnext
      obtain ⟨hn, hb⟩ := hs
      refine ⟨Effect.read hshape .rfl, hn, hb, [], a.bucket b, rfl, rfl, (hshape.ht_eq b).symm, ?_⟩
      rw [hb]
      exact hn.2
  | walk b prev current =>
      obtain ⟨hn, hb, hpassed⟩ := hs
      cases current with
      -- the node is in this bucket, so the walk meets it before the end
      | none => exact hpassed.current_ne_none.elim
      | some c =>
          simp only [nextHtRemove, htRemoveAt] at hnext
          by_cases hc : c = n
          · subst hc
            rw [if_pos rfl] at hnext
            cases prev with
            | none =>
                cases hnext
                exact ⟨Effect.read hshape .rfl, hb, hpassed⟩
            | some p =>
                cases hnext
                exact ⟨Effect.read hshape .rfl, hn, hb, hpassed⟩
          · rw [if_neg hc] at hnext
            cases hnext
            exact ⟨Effect.read hshape .rfl, hn, hb, hpassed.step hshape hc⟩
  | tryLock b p =>
      obtain ⟨hn, hb, hpassed⟩ := hs
      simp only [nextHtRemove] at hnext
      split at hnext
      case isTrue =>
        cases hnext
        exact ⟨Effect.lock hshape .rfl, hb, hpassed, h.rest_of_enabled hact p rfl⟩
      -- the neighbour's lock is taken: the call returns `false` and the node stays hashed
      case isFalse =>
        cases hnext
        exact ⟨Effect.read hshape .rfl, hn⟩
  | setNext b prev =>
      cases prev with
      | none =>
          cases hnext
          obtain ⟨hb, hpassed⟩ := hs
          refine ⟨Effect.removeFirst hshape (hpassed.first hshape) ?_ ?_, hshape.bare_erase hb.symm⟩
          · simp [HtRemovePC.holds]
          · simp [HtRemovePC.bucket]
      | some p =>
          cases hnext
          obtain ⟨hb, hpassed, hp⟩ := hs
          obtain ⟨hmem, hlink⟩ := hpassed.after hshape
          -- this thread holds both locks, so they are of two nodes
          have hne : p ≠ n := by
            rintro rfl
            simp [HtRemovePC.holds] at hdup
          refine ⟨Effect.removeAfter hshape hmem hpassed.mem hlink ?_ ?_ ?_,
            hshape.bare_erase hb.symm, hp.setBucket rfl rfl rfl rfl hne⟩
          · simp [HtRemovePC.holds]
          · simp [HtRemovePC.holds]
          · simp [HtRemovePC.bucket]
  | unlockPrev b p =>
      cases hnext
      refine ⟨Effect.unlock hshape .rfl (fun x hx => ?_), hs.1⟩
      obtain rfl := Ptr.node.inj hx
      exact hs.2
  | clearNext b =>
      cases hnext
      exact ⟨Effect.htSetNext hshape hs (by simp [HtRemovePC.holds]) _, hs⟩
  | clearFlag b =>
      cases hnext
      exact ⟨Effect.htSetFlag hshape (by simp [HtRemovePC.holds]) _, hs⟩
  | unlock b r =>
      cases hnext
      refine ⟨Effect.unlockBucket hshape .rfl, ?_⟩
      cases r <;> exact hs

end DeferredLru.ConcurrentLru
