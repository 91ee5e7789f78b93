import DeferredLru.Concurrent.Integrity
import Mathlib.Data.Fintype.Card

set_option autoImplicit false

/-! # `ConcurrentLRU` with one thread

A lock that the thread does not hold is free, and a link that it has read is as it was. So no
`try_lock` fails, no test fails that asks whether another thread was faster, and the thread never
has to wait (`*_alone`). Each access brings the end of the call nearer: `left` bounds the number of
those still to make. -/

namespace DeferredLru.ConcurrentLru

open Intrusive

variable {N : ℕ} {K V : Type} {cfg : Config N K} {s : State N K V Unit} {m : Mem N K V}
  {a : Lists N} {trace : List (Label N K V Unit)} {act : Act N K V} {n : Fin N} {p : Ptr N} {b : ℕ}

theorem Inv.lock_free (h : Inv cfg s a trace) (hp : p ∉ (s.pc ()).holds) : s.nodeLock p = none := by
  cases hlock : s.nodeLock p with
  | none => rfl
  | some t => exact absurd ((h.nodes.lock_eq_some t p).1 hlock) hp

theorem Inv.bucket_free (h : Inv cfg s a trace) (hb : b ∉ (s.pc ()).bucket cfg) :
    s.bucketLock b = none := by
  cases hlock : s.bucketLock b with
  | none => rfl
  | some t => exact absurd ((h.buckets.lock_eq_some t b).1 hlock) hb

theorem enabled_lock (hp : p ≠ .null) (hfree : s.nodeLock p = none) :
    (Act.lock p : Act N K V).enabled s = true := by
  simp [Act.enabled, hp, hfree]

theorem enabled_lockBucket (hfree : s.bucketLock b = none) :
    (Act.lockBucket b : Act N K V).enabled s = true := by
  simp [Act.enabled, hfree]

/-- The place of a node in a list. -/
theorem idxOf_eq {l l₁ l₂ : List (Fin N)} (hdup : l.Nodup) (hl : l = l₁ ++ n :: l₂) :
    l.idxOf n = l₁.length ∧ l₁.length < N := by
  have hlen := hdup.length_le_card
  rw [Fintype.card_fin, hl, List.length_append, List.length_cons] at hlen
  have hn : n ∉ l₁ := fun hn => (List.nodup_append.1 (hl ▸ hdup)).2.2 n hn n List.mem_cons_self rfl
  refine ⟨?_, by omega⟩
  simp [hl, List.idxOf_append, hn]

/-! ## `listEvictNext` -/

/-- Where the thread can stand. -/
def EvictPC.Alone (a : Lists N) (i : ListId) : EvictPC N → Prop
  | .unlockEmpty => a.list i = []
  | _ => True

/-- A bound on the number of accesses still to make. -/
@[simp] def EvictPC.left : EvictPC N → ℕ
  | .lockPrev => 9
  | .load => 8
  | .unlockEmpty => 1
  | .lockNode _ => 7
  | .loadNext _ => 6
  | .lockNext _ _ => 5
  | .splice _ _ => 4
  | .unlockPrev _ _ => 3
  | .unlockNext _ _ => 2
  | .clear _ => 1

/-- Where a step can leave the thread: the call returns no node only if the list is empty. -/
def evictAlone (a : Lists N) (i : ListId) : EvictPC N ⊕ Option (Fin N) → Prop
  | .inl pc => pc.Alone a i
  | .inr none => a.list i = []
  | .inr (some _) => True

/-- The accesses still to make after a step. -/
@[simp] def evictLeft : EvictPC N ⊕ Option (Fin N) → ℕ
  | .inl pc => pc.left
  | .inr _ => 0

theorem ListId.head_ne_null (i : ListId) : (i.head : Ptr N) ≠ .null := by
  cases i <;> simp [ListId.head]

theorem ListId.tail_ne_null (i : ListId) : (i.tail : Ptr N) ≠ .null := by
  cases i <;> simp [ListId.tail]

theorem Inv.evict_alone (h : Inv cfg s a trace) {i : ListId} {pc : EvictPC N}
    (hs : pc.Standing cfg s.mem a trace i) (hal : pc.Alone a i)
    (hfree : ∀ p ∉ pc.holds i.head, s.nodeLock p = none) :
    ∃ act r, nextEvict s.mem i.head i.tail pc = some (act, r) ∧ act.enabled s = true ∧
      evictAlone (pc.onLists a) i r ∧ evictLeft r < pc.left := by
  have hstrung := h.shape.strung i
  have hnull : i.head ≠ (Ptr.null : Ptr N) ∧ i.tail ≠ (Ptr.null : Ptr N) :=
    ⟨i.head_ne_null, i.tail_ne_null⟩
  cases pc with
  | lockPrev =>
      exact ⟨_, _, rfl, enabled_lock hnull.1 (hfree _ (by simp [EvictPC.holds])), trivial, by simp⟩
  | load =>
      cases hl : a.list i with
      | nil =>
          rw [hl] at hstrung
          exact ⟨_, _, if_pos hstrung.next_head_nil, rfl, hl, by simp⟩
      | cons x l =>
          rw [hl] at hstrung
          refine ⟨.read, .inl (.lockNode x), ?_, rfl, trivial, by simp⟩
          rw [nextEvict, hstrung.next_head, if_neg (Ne.symm ((ends i).tail_ne x))]
  | unlockEmpty => exact ⟨_, _, rfl, rfl, hal, by simp⟩
  | lockNode x =>
      refine ⟨_, _, rfl, enabled_lock (by simp) (hfree _ ?_), trivial, by simp⟩
      simpa [EvictPC.holds] using Ne.symm ((ends i).head_ne x)
  | loadNext x => exact ⟨_, _, rfl, rfl, trivial, by simp⟩
  | lockNext x next =>
      obtain ⟨hfirst, hx, -, rfl⟩ := hs
      have hnodup : (a.list i).Nodup := h.shape.list_nodup i
      obtain ⟨-, hne, hne'⟩ := hstrung.neighbours_ne (ends i) hnodup hx
      have hprev : s.mem.lruPrev (.node x) = i.head := by
        rw [← hfirst]
        exact hstrung.prev_next (Or.inl rfl)
      rw [hprev] at hne'
      refine ⟨_, _, rfl, enabled_lock ?_ (hfree _ (by simp [EvictPC.holds, hne, hne'])), trivial,
        by simp⟩
      rcases hstrung.next_mem (Or.inr ⟨x, hx, rfl⟩) with htail | ⟨y, -, hy⟩
      · rw [htail]
        exact hnull.2
      · rw [hy]
        simp
  | splice x next => exact ⟨_, _, rfl, rfl, trivial, by simp⟩
  | unlockPrev x next => exact ⟨_, _, rfl, rfl, trivial, by simp⟩
  | unlockNext x next => exact ⟨_, _, rfl, rfl, trivial, by simp⟩
  | clear x => exact ⟨_, _, rfl, rfl, trivial, by simp⟩

/-! ## `listInsertBefore` -/

/-- Where the thread can stand: the node that it has read is still the last one. -/
def InsertBeforePC.Alone (m : Mem N K V) : InsertBeforePC N → Prop
  | .lockPrev p => m.lruPrev .lruTail = p
  | .test p => m.lruPrev .lruTail = p
  | .retry _ => False
  | _ => True

/-- A bound on the number of accesses still to make. -/
@[simp] def InsertBeforePC.left : InsertBeforePC N → ℕ
  | .load => 7
  | .lockPrev _ => 6
  | .test _ => 5
  | .retry _ => 0
  | .lockNode _ => 4
  | .splice _ => 3
  | .unlockPrev _ => 2
  | .unlockNode => 1

/-- The same after a step, which may be the last one. -/
def insertBeforeAlone (m : Mem N K V) : Option (InsertBeforePC N) → Prop
  | some pc => pc.Alone m
  | none => True

/-- The accesses still to make after a step. -/
@[simp] def insertBeforeLeft : Option (InsertBeforePC N) → ℕ
  | some pc => pc.left
  | none => 0

theorem Inv.insertBefore_alone (h : Inv cfg s a trace) {pc : InsertBeforePC N}
    (hs : pc.Standing cfg s.mem a trace n) (hal : pc.Alone s.mem)
    (hfree : ∀ p ∉ pc.holds .lruTail n, s.nodeLock p = none) :
    ∃ act r, nextInsertBefore s.mem .lruTail n pc = (act, r) ∧ act.enabled s = true ∧
      insertBeforeAlone (act.onMem s.mem) r ∧ insertBeforeLeft r < pc.left := by
  have htail := (h.shape.strung .lru).next_prev_tail
  cases pc with
  | load => exact ⟨_, _, rfl, rfl, rfl, by simp⟩
  | lockPrev p =>
      obtain rfl : _ = p := hal
      have hne : s.mem.lruPrev .lruTail ≠ .null ∧ s.mem.lruPrev .lruTail ≠ .node n := by
        rcases htail.1 with hhead | ⟨x, hx, hprev⟩
        · rw [show s.mem.lruPrev .lruTail = _ from hhead]
          exact ⟨ListId.lru.head_ne_null, by simp [ListId.head]⟩
        · rw [show s.mem.lruPrev .lruTail = _ from hprev]
          refine ⟨by simp, fun heq => ?_⟩
          obtain rfl := Ptr.node.inj heq
          exact hs.1.1 hx
      exact ⟨_, _, rfl, enabled_lock hne.1 (hfree _ (by simp [InsertBeforePC.holds, hne.2])), rfl,
        by simp⟩
  | test p =>
      obtain rfl : _ = p := hal
      refine ⟨.read, some (.lockNode (s.mem.lruPrev .lruTail)), ?_, rfl, trivial, by simp⟩
      have hlast : s.mem.lruNext (s.mem.lruPrev .lruTail) = .lruTail := htail.2
      rw [nextInsertBefore, if_pos hlast]
  | retry p => exact hal.elim
  | lockNode p =>
      obtain ⟨-, hfront, -⟩ := hs
      have hp : Ptr.lruTail ≠ p := by
        rcases hfront with rfl | ⟨x, rfl⟩ <;> simp
      exact ⟨_, _, rfl, enabled_lock (by simp) (hfree _ (by simp [InsertBeforePC.holds, hp])), trivial,
        by simp⟩
  | splice p => exact ⟨_, _, rfl, rfl, trivial, by simp⟩
  | unlockPrev p => exact ⟨_, _, rfl, rfl, trivial, by simp⟩
  | unlockNode => exact ⟨_, _, rfl, rfl, trivial, by simp⟩

/-! ## `lruRemoveNode` -/

/-- Where the thread can stand: its `try_lock` has not failed. -/
def RemovePC.Alone : RemovePC N → Prop
  | .load => True
  | .tryLock _ => True
  | .loadNext _ => True
  | .lockNext _ _ => True
  | .splice _ _ => True
  | .unlockPrev _ _ => True
  | .unlockNext _ => True
  | .clear => True
  | _ => False

/-- A bound on the number of accesses still to make. -/
@[simp] def RemovePC.left : RemovePC N → ℕ
  | .load => 8
  | .tryLock _ => 7
  | .loadNext _ => 6
  | .lockNext _ _ => 5
  | .splice _ _ => 4
  | .unlockPrev _ _ => 3
  | .unlockNext _ => 2
  | .clear => 1
  | _ => 0

/-- Where a step can leave the thread: the call returns that it has removed the node. -/
def removeAlone : RemovePC N ⊕ Bool → Prop
  | .inl pc => pc.Alone
  | .inr removed => removed = true

/-- The accesses still to make after a step. -/
@[simp] def removeLeft : RemovePC N ⊕ Bool → ℕ
  | .inl pc => pc.left
  | .inr _ => 0

theorem Inv.remove_alone (h : Inv cfg s a trace) {pc : RemovePC N}
    (hs : pc.Standing cfg s.mem a trace n) (hal : pc.Alone)
    (hfree : ∀ p ∉ pc.holds n, s.nodeLock p = none) :
    ∃ act r, nextRemove s n pc = (act, r) ∧ act.enabled s = true ∧ removeAlone r ∧
      removeLeft r < pc.left := by
  have hstrung := h.shape.strung .lru
  have hdup : a.lru.Nodup := h.shape.list_nodup .lru
  cases pc with
  | load => exact ⟨_, _, rfl, rfl, trivial, by simp⟩
  | tryLock p =>
      obtain ⟨hn, -, rfl⟩ := hs
      obtain ⟨hne, -⟩ := hstrung.neighbours_ne (ends .lru) hdup hn
      -- nobody else holds the lock of the neighbour, so the `tryLock` succeeds
      have hlock := hfree (s.mem.lruPrev (.node n)) (by simp [RemovePC.holds, hne])
      refine ⟨.lock (s.mem.lruPrev (.node n)), .inl (.loadNext (s.mem.lruPrev (.node n))), ?_,
        enabled_lock ?_ hlock, trivial, by simp⟩
      · rw [nextRemove, if_pos (by simp [hlock])]
      · rcases (hstrung.next_prev hn).1 with hhead | ⟨x, -, hx⟩
        · rw [hhead]
          exact ListId.lru.head_ne_null
        · rw [hx]
          simp
  | loadNext p => exact ⟨_, _, rfl, rfl, trivial, by simp⟩
  | lockNext p next =>
      obtain ⟨hn, -, rfl, -, rfl⟩ := hs
      obtain ⟨-, hne, hne'⟩ := hstrung.neighbours_ne (ends .lru) hdup hn
      refine ⟨_, _, rfl, enabled_lock ?_ (hfree _ (by simp [RemovePC.holds, hne, hne'])), trivial,
        by simp⟩
      rcases hstrung.next_mem (Or.inr ⟨n, hn, rfl⟩) with htail | ⟨y, -, hy⟩
      · rw [show s.mem.lruNext (.node n) = _ from htail]
        exact ListId.lru.tail_ne_null
      · rw [show s.mem.lruNext (.node n) = _ from hy]
        simp
  | splice p next => exact ⟨_, _, rfl, rfl, trivial, by simp⟩
  | unlockPrev p next => exact ⟨_, _, rfl, rfl, trivial, by simp⟩
  | unlockNext next => exact ⟨_, _, rfl, rfl, trivial, by simp⟩
  | clear => exact ⟨_, _, rfl, rfl, rfl, by simp⟩
  | _ => exact hal.elim

/-! ## `htInsert` -/

/-- The number of accesses still to make. -/
@[simp] def HtInsertPC.left : HtInsertPC → ℕ
  | .hash => 6
  | .lock _ => 5
  | .setNext _ => 4
  | .setHead _ => 3
  | .setFlag _ => 2
  | .unlock _ => 1

/-- The accesses still to make after a step. -/
@[simp] def htInsertLeft : Option HtInsertPC → ℕ
  | some pc => pc.left
  | none => 0

theorem htInsert_alone (cfg : Config N K) (n : Fin N) (pc : HtInsertPC)
    (hfree : ∀ b ∉ pc.bucket, s.bucketLock b = none) :
    ∃ act r, nextHtInsert cfg s.mem n pc = (act, r) ∧ act.enabled s = true ∧
      htInsertLeft r < pc.left := by
  cases pc with
  | lock b => exact ⟨_, _, rfl, enabled_lockBucket (hfree b (by simp [HtInsertPC.bucket])), by simp⟩
  | _ => exact ⟨_, _, rfl, rfl, by simp⟩

/-! ## `htFind` -/

section Find

variable [DecidableEq K] {l : List (Fin N)} {key : Fin N → K} {k : K}

/-- The search has passed the first nodes of the bucket `l`, none of which has the key. -/
def HtFindPC.Alone (key : Fin N → K) (k : K) (l : List (Fin N)) : HtFindPC N → Prop
  | .compare n => ∃ l₁ l₂, l = l₁ ++ n :: l₂ ∧ ∀ i ∈ l₁, key i ≠ k
  | .next n => ∃ l₁ l₂, l = l₁ ++ n :: l₂ ∧ (∀ i ∈ l₁, key i ≠ k) ∧ key n ≠ k
  | .unlock r => r = l.find? (fun i => key i = k)
  | _ => True

/-- A bound on the number of accesses still to make in the bucket `l`. -/
@[simp] def HtFindPC.left (l : List (Fin N)) : HtFindPC N → ℕ
  | .lock => 2 * N + 3
  | .load => 2 * N + 2
  | .compare n => 2 * (N - l.idxOf n) + 1
  | .next n => 2 * (N - l.idxOf n)
  | .unlock _ => 1

/-- Where a step can leave the thread: the call returns the first node with the key. -/
def htFindAlone (key : Fin N → K) (k : K) (l : List (Fin N)) : HtFindPC N ⊕ Option (Fin N) → Prop
  | .inl pc => pc.Alone key k l
  | .inr r => r = l.find? (fun i => key i = k)

/-- The accesses still to make after a step. -/
@[simp] def htFindLeft (l : List (Fin N)) : HtFindPC N ⊕ Option (Fin N) → ℕ
  | .inl pc => pc.left l
  | .inr _ => 0

theorem htFindAt_alone {l₁ l₂ : List (Fin N)} (hdup : (l₁ ++ l₂).Nodup)
    (hpassed : ∀ i ∈ l₁, key i ≠ k) :
    (htFindAt l₂.head?).Alone key k (l₁ ++ l₂) ∧
      (htFindAt l₂.head?).left (l₁ ++ l₂) ≤ 2 * (N - l₁.length) + 1 := by
  cases l₂ with
  | nil =>
      refine ⟨?_, Nat.le_add_left 1 _⟩
      show none = _
      rw [List.append_nil, eq_comm, List.find?_eq_none]
      simpa using hpassed
  | cons x l₂ =>
      refine ⟨⟨l₁, l₂, rfl, hpassed⟩, ?_⟩
      rw [List.head?_cons, htFindAt, HtFindPC.left, (idxOf_eq hdup rfl).1]

theorem Inv.htFind_alone (h : Inv cfg s a trace) {pc : HtFindPC N}
    (hal : pc.Alone s.mem.key k (a.bucket (cfg.whichBucket k)))
    (hfree : ∀ b ∉ pc.bucket (cfg.whichBucket k), s.bucketLock b = none) :
    ∃ act r, nextHtFind cfg s.mem k pc = (act, r) ∧ act.enabled s = true ∧ act.onMem s.mem = s.mem ∧
      htFindAlone s.mem.key k (a.bucket (cfg.whichBucket k)) r ∧
      htFindLeft (a.bucket (cfg.whichBucket k)) r < pc.left (a.bucket (cfg.whichBucket k)) := by
  have hdup := h.shape.bucket_nodup (cfg.whichBucket k)
  have hlen := hdup.length_le_card
  rw [Fintype.card_fin] at hlen
  cases pc with
  | lock =>
      refine ⟨_, _, rfl, enabled_lockBucket (hfree _ (by simp [HtFindPC.bucket])), rfl, trivial, ?_⟩
      simp
  | load =>
      -- no node is passed yet
      obtain ⟨hstart, hleft⟩ := @htFindAt_alone N K _ s.mem.key k [] (a.bucket (cfg.whichBucket k))
        hdup (by simp)
      rw [← h.shape.ht_eq] at hstart hleft
      exact ⟨_, _, rfl, rfl, rfl, hstart, Nat.lt_succ_of_le hleft⟩
  | compare x =>
      obtain ⟨l₁, l₂, hl, hpassed⟩ := hal
      obtain ⟨hidx, hlt⟩ := idxOf_eq hdup hl
      by_cases hx : s.mem.key x = k
      · refine ⟨.read, .inl (.unlock (some x)), by rw [nextHtFind, if_pos hx], rfl, rfl, ?_, ?_⟩
        · show some x = _
          rw [hl, List.find?_append, List.find?_eq_none.2 (by simpa using hpassed)]
          simp [hx]
        · rw [htFindLeft, HtFindPC.left, HtFindPC.left, hidx]
          omega
      · refine ⟨.read, .inl (.next x), by rw [nextHtFind, if_neg hx], rfl, rfl,
          ⟨l₁, l₂, hl, hpassed, hx⟩, by simp⟩
  | next x =>
      obtain ⟨l₁, l₂, hl, hpassed, hx⟩ := hal
      have hl' : a.bucket (cfg.whichBucket k) = (l₁ ++ [x]) ++ l₂ := by simpa using hl
      obtain ⟨hnext, hleft⟩ := @htFindAt_alone N K _ s.mem.key k (l₁ ++ [x]) l₂ (hl' ▸ hdup)
        (by simpa [or_imp, forall_and] using ⟨hpassed, hx⟩)
      rw [← h.shape.htNext_eq hl, ← hl'] at hnext hleft
      refine ⟨_, _, rfl, rfl, rfl, hnext, lt_of_le_of_lt hleft ?_⟩
      obtain ⟨hidx, hlt⟩ := idxOf_eq hdup hl
      rw [HtFindPC.left, hidx, List.length_append, List.length_singleton]
      omega
  | unlock r => exact ⟨_, _, rfl, rfl, rfl, hal, by simp⟩

end Find

/-! ## `htRemove` -/

/-- Where the thread can stand: the node is found in the bucket. -/
def HtRemovePC.Alone : HtRemovePC N → Prop
  | .unlock _ removed => removed = true
  | _ => True

/-- A bound on the number of accesses still to make. -/
@[simp] def HtRemovePC.left (a : Lists N) : HtRemovePC N → ℕ
  | .hash => N + 9
  | .lock _ => N + 8
  | .load _ => N + 7
  | .walk b _ (some current) => N - (a.bucket b).idxOf current + 6
  | .walk _ _ none => 0
  | .tryLock _ _ => 6
  | .setNext _ _ => 5
  | .unlockPrev _ _ => 4
  | .clearNext _ => 3
  | .clearFlag _ => 2
  | .unlock _ _ => 1

/-- Where a step can leave the thread: the call returns that it has removed the node. -/
def htRemoveAlone : HtRemovePC N ⊕ Bool → Prop
  | .inl pc => pc.Alone
  | .inr removed => removed = true

/-- The accesses still to make after a step. -/
@[simp] def htRemoveLeft (a : Lists N) : HtRemovePC N ⊕ Bool → ℕ
  | .inl pc => pc.left a
  | .inr _ => 0

/-- The node before another one. -/
theorem Passed.ne {p : Fin N} {current : Option (Fin N)} (hdup : (a.bucket b).Nodup)
    (h : Passed a b n (some p) current) : p ≠ n := by
  obtain ⟨l₁, l₂, hl, hlast, -, hn⟩ := h
  exact (List.nodup_append.1 (hl ▸ hdup)).2.2 p (List.mem_of_getLast? hlast) n hn

theorem Inv.htRemove_alone (h : Inv cfg s a trace) {pc : HtRemovePC N}
    (hs : pc.Standing cfg s.mem a trace n) (hal : pc.Alone)
    (hfree : ∀ p ∉ pc.holds n, s.nodeLock p = none)
    (hfree' : ∀ b ∉ pc.bucket, s.bucketLock b = none) :
    ∃ act r, nextHtRemove cfg s n pc = (act, r) ∧ act.enabled s = true ∧ htRemoveAlone r ∧
      htRemoveLeft (pc.onLists n a) r < pc.left a := by
  cases pc with
  | hash => exact ⟨_, _, rfl, rfl, trivial, by simp⟩
  | lock b =>
      exact ⟨_, _, rfl, enabled_lockBucket (hfree' b (by simp [HtRemovePC.bucket])), trivial, by simp⟩
  | load b =>
      refine ⟨_, _, rfl, rfl, trivial, ?_⟩
      cases hhead : s.mem.ht b with
      | none => simp
      | some x =>
          simp only [htRemoveLeft, HtRemovePC.left, HtRemovePC.onLists]
          omega
  | walk b prev current =>
      obtain ⟨-, -, hpassed⟩ := hs
      have hdup := h.shape.bucket_nodup b
      cases current with
      | none => exact hpassed.current_ne_none.elim
      | some c =>
          obtain ⟨l₁, l₂, hl, -, hhead, -⟩ := hpassed
          obtain ⟨l₂, rfl⟩ := List.head?_eq_some_iff.1 hhead
          obtain ⟨hidx, hlt⟩ := idxOf_eq hdup hl
          by_cases hc : c = n
          · have hleft : 5 < HtRemovePC.left a (.walk b prev (some c)) ∧
                6 < HtRemovePC.left a (.walk b prev (some c)) := by
              rw [HtRemovePC.left]
              omega
            cases prev with
            | none =>
                refine ⟨.read, .inl (.setNext b none), ?_, rfl, trivial, hleft.1⟩
                simp only [nextHtRemove, htRemoveAt, if_pos hc]
            | some p =>
                refine ⟨.read, .inl (.tryLock b p), ?_, rfl, trivial, hleft.2⟩
                simp only [nextHtRemove, htRemoveAt, if_pos hc]
          · refine ⟨.read, .inl (.walk b (some c) (s.mem.htNext c)), ?_, rfl, trivial, ?_⟩
            · simp only [nextHtRemove, htRemoveAt, if_neg hc]
            · rw [h.shape.htNext_eq hl]
              show HtRemovePC.left a _ < _
              cases l₂ with
              | nil => simp
              | cons d l₂ =>
                  have hl' : a.bucket b = (l₁ ++ [c]) ++ d :: l₂ := by simpa using hl
                  -- the next node is one further in the bucket
                  obtain ⟨hidx', hlt'⟩ := idxOf_eq hdup hl'
                  rw [List.head?_cons, HtRemovePC.left, HtRemovePC.left, hidx, hidx',
                    List.length_append, List.length_singleton]
                  omega
  | tryLock b p =>
      have hne := hs.2.2.ne (h.shape.bucket_nodup b)
      have hlock := hfree (.node p) (by simpa [HtRemovePC.holds] using hne)
      refine ⟨.lock (.node p), .inl (.setNext b (some p)), ?_, enabled_lock (by simp) hlock, trivial,
        by simp⟩
      rw [nextHtRemove, if_pos (by simp [hlock])]
  | setNext b prev => cases prev <;> exact ⟨_, _, rfl, rfl, trivial, by simp⟩
  | unlockPrev b p => exact ⟨_, _, rfl, rfl, trivial, by simp⟩
  | clearNext b => exact ⟨_, _, rfl, rfl, trivial, by simp⟩
  | clearFlag b => exact ⟨_, _, rfl, rfl, rfl, by simp⟩
  | unlock b r => exact ⟨_, _, rfl, rfl, hal, by simp⟩

end DeferredLru.ConcurrentLru
