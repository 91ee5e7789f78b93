import DeferredLru.Threads.Machine

set_option autoImplicit false

/-! # Who holds which lock

Which locks a thread holds is a matter of where it stands: `PC.inside` says that it is between the
`try_lock` and the unlock of `lru_lock_`, `PC.lockedBucket` which bucket it has locked. `Locks` says
that the locks agree, in every reachable state; so two threads are never inside together, and never
have buckets of one lock locked together. -/

namespace DeferredLru.Threads

variable {N : ℕ} {K V T : Type}

/-! ## Views of the program counter -/

/-- The thread has `lru_lock_`. -/
def PC.inside : PC N K V → Bool
  | .consolidate _ .raisePull => false
  | .consolidate _ .raisePurge => false
  | .consolidate _ .tryLock => false
  | .consolidate _ _ => true
  | _ => false

/-- The bucket that `addNodeToBucket` has locked. -/
def LinkPC.lockedBucket : LinkPC N → Option ℕ
  | .load b => some b
  | .storeNext b _ => some b
  | .storeHead b => some b
  | .unlock b => some b
  | _ => none

/-- The bucket that `removeNodeFromBucket` has locked. -/
def RemovePC.lockedBucket : RemovePC N → Option ℕ
  | .recheck b => some b
  | .load b => some b
  | .headNext b => some b
  | .storeHead b _ => some b
  | .walk b _ => some b
  | .nodeNext b _ => some b
  | .storeParent b _ _ => some b
  | .clear b => some b
  | .unlock b _ => some b
  | _ => none

/-- The `find` has its bucket locked. -/
def FindPC.locked : FindPC N V → Bool
  | .lock => false
  | .threshold _ => false
  | _ => true

/-- The bucket that the thread has locked. -/
def PC.lockedBucket (cfg : Config N K) : PC N K V → Option ℕ
  | .find _ k p => if p.locked then some (cfg.keyToBucketNr k) else none
  | .insert _ _ _ (.bucket _ p) => p.lockedBucket
  | .consolidate _ (.purge (.bucket _ _ _ p)) => p.lockedBucket
  | _ => none

@[simp] theorem afterFind_inside (producer : Option V) (k : K) (r : Option V) :
    (afterFind producer k r : PC N K V).inside = false := by
  cases producer <;> cases r <;> rfl

@[simp] theorem Back.pc_inside (back : Back K V) : (back.pc : PC N K V).inside = false := by
  cases back with
  | find producer k r => exact afterFind_inside producer k r
  | _ => rfl

@[simp] theorem afterFind_lockedBucket (cfg : Config N K) (producer : Option V) (k : K)
    (r : Option V) : (afterFind producer k r : PC N K V).lockedBucket cfg = none := by
  cases producer <;> cases r <;> rfl

@[simp] theorem Back.pc_lockedBucket (cfg : Config N K) (back : Back K V) :
    (back.pc : PC N K V).lockedBucket cfg = none := by
  cases back with
  | find producer k r => exact afterFind_lockedBucket cfg producer k r
  | _ => rfl

@[simp] theorem allocateAt_inside (consume : Bool) (k : K) (v : V) (p : Ptr N) :
    (allocateAt consume k v p).inside = false := by
  cases p <;> rfl

@[simp] theorem allocateAt_lockedBucket (cfg : Config N K) (consume : Bool) (k : K) (v : V)
    (p : Ptr N) : (allocateAt consume k v p).lockedBucket cfg = none := by
  cases p <;> rfl

@[simp] theorem walkTo_lockedBucket (b : ℕ) (p : Option (Fin N)) :
    (walkTo b p).lockedBucket = some b := by
  cases p <;> rfl

@[simp] theorem searchAt_locked (n : Option (Fin N)) : (searchAt n : FindPC N V).locked = true := by
  cases n <;> rfl


/-! ## How an access changes them -/

/-- How the access changes whether its thread is inside. -/
def Act.insideStep (lruLock : Option T) (old new : Bool) : Act N K V → Prop
  | .lockLru => lruLock = none ∧ old = false ∧ new = true
  | .unlockLru => old = true ∧ new = false
  | _ => new = old

/-- How the access changes which bucket its thread has locked. -/
def Act.bucketStep (bucketLock : ℕ → Option T) (old new : Option ℕ) : Act N K V → Prop
  | .lockBucket b => bucketLock (lockIndex b) = none ∧ old = none ∧ new = some b
  | .unlockBucket b => old = some b ∧ new = none
  | _ => new = old

/-- The access neither locks nor unlocks. -/
def Act.lockFree : Act N K V → Prop
  | .lockLru => False
  | .unlockLru => False
  | .lockBucket _ => False
  | .unlockBucket _ => False
  | _ => True

theorem Act.lockFree.insideStep {act : Act N K V} (h : act.lockFree) (l : Option T) (old : Bool) :
    act.insideStep l old old := by
  cases act <;> first | exact h.elim | rfl

theorem Act.lockFree.bucketStep {act : Act N K V} (h : act.lockFree) (l : ℕ → Option T)
    (old : Option ℕ) : act.bucketStep l old old := by
  cases act <;> first | exact h.elim | rfl

section Functions

variable {cfg : Config N K} {s : State N K V T} {m : Mem N K V} {fails : Bool} {act : Act N K V}
  {n : Fin N}

theorem nextAdd_lockFree {first last : Ptr N} {p : AddPC N} {p' : Option (AddPC N)}
    (h : nextAdd m fails first last p = some (act, p')) : act.lockFree := by
  cases p <;> simp only [nextAdd] at h <;> (try split_ifs at h) <;> cases h <;> trivial

theorem nextUnlink_lockFree {p : UnlinkPC N} {p' : Option (UnlinkPC N)}
    (h : nextUnlink m n p = some (act, p')) : act.lockFree := by
  cases p <;> simp only [nextUnlink] at h <;> (try split_ifs at h) <;> cases h <;> trivial

theorem nextMark_lockFree {p : MarkPC N} {p' : Option (MarkPC N)}
    (h : nextMark m fails n p = some (act, p')) : act.lockFree := by
  cases p <;> simp only [nextMark] at h <;> (try split_ifs at h) <;> cases h <;> trivial

theorem nextDispose_lockFree {p : DisposePC N} {p' : Option (DisposePC N)}
    (h : nextDispose m fails n p = some (act, p')) : act.lockFree := by
  cases p <;> simp only [nextDispose] at h <;> (try split_ifs at h) <;> cases h <;> trivial

theorem nextLink_locks {p : LinkPC N} {p' : Option (LinkPC N)}
    (h : nextLink cfg s n p = some (act, p')) (old : Bool) :
    act.insideStep s.lruLock old old ∧
      act.bucketStep s.bucketLock p.lockedBucket (p'.bind LinkPC.lockedBucket) := by
  cases p with
  | lock b =>
      simp only [nextLink] at h
      split_ifs at h with hfree
      cases h
      exact ⟨rfl, Option.isNone_iff_eq_none.1 hfree, rfl, rfl⟩
  | unlock b =>
      cases h
      exact ⟨rfl, rfl, rfl⟩
  | _ =>
      cases h
      exact ⟨rfl, rfl⟩

theorem nextRemove_locks {p : RemovePC N} {p' : RemovePC N ⊕ Bool}
    (h : nextRemove cfg s n p = some (act, p')) (old : Bool) :
    act.insideStep s.lruLock old old ∧
      act.bucketStep s.bucketLock p.lockedBucket (p'.elim RemovePC.lockedBucket fun _ => none) := by
  cases p with
  | lock b =>
      simp only [nextRemove] at h
      split_ifs at h with hfree
      cases h
      exact ⟨rfl, Option.isNone_iff_eq_none.1 hfree, rfl, rfl⟩
  | unlock b removed =>
      cases h
      exact ⟨rfl, rfl, rfl⟩
  | recheck b =>
      cases h
      refine ⟨rfl, ?_⟩
      show RemovePC.lockedBucket _ = some b
      split_ifs <;> rfl
  | load b =>
      cases h
      refine ⟨rfl, ?_⟩
      show RemovePC.lockedBucket _ = some b
      split_ifs
      · rfl
      · exact walkTo_lockedBucket ..
  | walk b parent =>
      cases h
      refine ⟨rfl, ?_⟩
      show RemovePC.lockedBucket _ = some b
      split_ifs
      · rfl
      · exact walkTo_lockedBucket ..
  | _ =>
      cases h
      exact ⟨rfl, rfl⟩

theorem nextPull_lockFree {p : PullPC N} {p' : Option (PullPC N)}
    (h : nextPull m fails p = some (act, p')) : act.lockFree := by
  cases p with
  | prev current prev =>
      cases current <;> cases h
      trivial
  | unlink n prev p =>
      obtain ⟨⟨a, q⟩, hq, heq⟩ := Option.map_eq_some_iff.1 h
      cases heq
      exact nextUnlink_lockFree hq
  | add first last p =>
      obtain ⟨⟨a, q⟩, hq, heq⟩ := Option.map_eq_some_iff.1 h
      cases heq
      exact nextAdd_lockFree hq
  | appendNext n prev =>
      simp only [nextPull] at h
      split_ifs at h
      cases h
      trivial
  | _ =>
      cases h
      trivial

/-- The bucket that `purgeOld` has locked. -/
def PurgePC.lockedBucket : PurgePC N → Option ℕ
  | .bucket _ _ _ p => p.lockedBucket
  | _ => none

theorem purgeAt_lockedBucket (cfg : Config N K) (node : Ptr N) (freed : ℕ) :
    (purgeAt cfg node freed).bind PurgePC.lockedBucket = none := by
  unfold purgeAt
  split_ifs <;> rfl

theorem nextPurge_locks {p : PurgePC N} {p' : Option (PurgePC N)}
    (h : nextPurge cfg s fails p = some (act, p')) (old : Bool) :
    act.insideStep s.lruLock old old ∧
      act.bucketStep s.bucketLock p.lockedBucket (p'.bind PurgePC.lockedBucket) := by
  have hfree : ∀ {act : Act N K V}, act.lockFree → p'.bind PurgePC.lockedBucket = none →
      act.insideStep s.lruLock old old ∧
        act.bucketStep s.bucketLock none (p'.bind PurgePC.lockedBucket) := by
    intro act hact hp'
    rw [hp']
    exact ⟨hact.insideStep _ _, hact.bucketStep _ _⟩
  cases p with
  | tail =>
      cases h
      exact hfree trivial (purgeAt_lockedBucket ..)
  | prev node freed =>
      cases node with
      | node n =>
          cases h
          refine hfree trivial ?_
          split_ifs <;> rfl
      | _ => cases h
  | test n next freed =>
      cases h
      refine hfree trivial ?_
      split_ifs
      · exact purgeAt_lockedBucket ..
      · rfl
  | bucket n next freed p =>
      obtain ⟨⟨a, q⟩, hq, heq⟩ := Option.map_eq_some_iff.1 h
      cases heq
      obtain ⟨hin, hb⟩ := nextRemove_locks hq old
      refine ⟨hin, ?_⟩
      cases q with
      | inl q => exact hb
      | inr removed =>
          cases removed with
          | true => exact hb
          | false =>
              dsimp only
              rw [purgeAt_lockedBucket]
              exact hb
  | unlink n next freed p =>
      obtain ⟨⟨a, q⟩, hq, heq⟩ := Option.map_eq_some_iff.1 h
      cases heq
      exact hfree (nextUnlink_lockFree hq) (by cases q <;> rfl)
  | dispose n next freed p =>
      obtain ⟨⟨a, q⟩, hq, heq⟩ := Option.map_eq_some_iff.1 h
      cases heq
      refine hfree (nextDispose_lockFree hq) ?_
      cases q with
      | some q => rfl
      | none => exact purgeAt_lockedBucket ..
  | _ =>
      cases h
      exact hfree trivial rfl

end Functions

/-! ## Steps -/

section Steps

variable {cfg : Config N K} {s : State N K V T} {fails : Bool} {act : Act N K V} {pc pc' : PC N K V}

/-- How a step changes the locks that its thread holds. -/
def LockStep (cfg : Config N K) (s : State N K V T) (pc : PC N K V) (act : Act N K V)
    (pc' : PC N K V) : Prop :=
  act.insideStep s.lruLock pc.inside pc'.inside ∧
    act.bucketStep s.bucketLock (pc.lockedBucket cfg) (pc'.lockedBucket cfg)

theorem nextConsolidate_locks {back : Back K V} {p : ConsolidatePC N}
    (h : nextConsolidate cfg s fails back p = some (act, pc')) :
    LockStep cfg s (.consolidate back p) act pc' := by
  cases p with
  | tryLock =>
      simp only [nextConsolidate] at h
      split_ifs at h with hfree
      · cases h
        exact ⟨⟨Option.isNone_iff_eq_none.1 hfree, rfl, rfl⟩, rfl⟩
      · cases h
        exact ⟨Back.pc_inside back, Back.pc_lockedBucket cfg back⟩
  | testPurge =>
      cases h
      split_ifs <;> exact ⟨rfl, rfl⟩
  | testPull =>
      cases h
      split_ifs <;> exact ⟨rfl, rfl⟩
  | purge p =>
      obtain ⟨⟨a, q⟩, hq, heq⟩ := Option.map_eq_some_iff.1 h
      cases heq
      have hp : (PC.consolidate back (.purge p) : PC N K V).lockedBucket cfg = p.lockedBucket := by
        cases p <;> rfl
      obtain ⟨hin, hb⟩ := nextPurge_locks hq true
      refine ⟨?_, ?_⟩
      · cases q <;> exact hin
      · rw [hp]
        cases q with
        | none => exact hb
        | some q => cases q <;> exact hb
  | pull p =>
      obtain ⟨⟨a, q⟩, hq, heq⟩ := Option.map_eq_some_iff.1 h
      cases heq
      have hfree := nextPull_lockFree hq
      cases q <;> exact ⟨hfree.insideStep _ _, hfree.bucketStep _ _⟩
  | unlock =>
      cases h
      exact ⟨⟨rfl, Back.pc_inside back⟩, Back.pc_lockedBucket cfg back⟩
  | _ =>
      cases h
      exact ⟨rfl, rfl⟩

theorem nextInsert_locks {consume : Bool} {k : K} {v : V} {p : InsertPC N}
    (h : nextInsert cfg s fails consume k v p = some (act, pc')) :
    LockStep cfg s (.insert consume k v p) act pc' := by
  cases p with
  | allocate p =>
      cases p with
      | load =>
          cases h
          exact ⟨allocateAt_inside .., allocateAt_lockedBucket ..⟩
      | loadNext node =>
          simp only [nextInsert] at h
          split_ifs at h
          cases h
          exact ⟨rfl, rfl⟩
      | cas node next =>
          simp only [nextInsert] at h
          split_ifs at h
          · cases node <;> cases h
            exact ⟨rfl, rfl⟩
          · cases h
            exact ⟨allocateAt_inside .., allocateAt_lockedBucket ..⟩
  | bucket n p =>
      obtain ⟨⟨a, q⟩, hq, heq⟩ := Option.map_eq_some_iff.1 h
      cases heq
      cases q <;> exact nextLink_locks hq false
  | add n p =>
      obtain ⟨⟨a, q⟩, hq, heq⟩ := Option.map_eq_some_iff.1 h
      cases heq
      have hfree := nextAdd_lockFree hq
      cases q <;> exact ⟨hfree.insideStep _ _, hfree.bucketStep _ _⟩
  | reset n =>
      cases h
      cases consume <;> exact ⟨rfl, rfl⟩
  | _ =>
      cases h
      exact ⟨rfl, rfl⟩

variable [DecidableEq K]

theorem nextFind_locks {producer : Option V} {k : K} {p : FindPC N V}
    (h : nextFind cfg s fails producer k p = some (act, pc')) :
    LockStep cfg s (.find producer k p) act pc' := by
  cases p with
  | lock =>
      simp only [nextFind] at h
      split_ifs at h with hfree
      cases h
      exact ⟨rfl, Option.isNone_iff_eq_none.1 hfree, rfl, rfl⟩
  | load =>
      cases h
      exact ⟨rfl, if_pos (searchAt_locked _)⟩
  | key n =>
      cases h
      split_ifs <;> exact ⟨rfl, rfl⟩
  | next n =>
      cases h
      exact ⟨rfl, if_pos (searchAt_locked _)⟩
  | mark n r p =>
      obtain ⟨⟨a, q⟩, hq, heq⟩ := Option.map_eq_some_iff.1 h
      cases heq
      have hfree := nextMark_lockFree hq
      cases q <;> exact ⟨hfree.insideStep _ _, hfree.bucketStep _ _⟩
  | unlock r =>
      cases h
      exact ⟨rfl, rfl, rfl⟩
  | threshold r =>
      cases h
      split_ifs
      · exact ⟨rfl, rfl⟩
      · exact ⟨afterFind_inside .., afterFind_lockedBucket ..⟩
  | value n =>
      cases h
      exact ⟨rfl, rfl⟩

end Steps

/-! ## The locks agree -/

/-- The locks are held by the threads that stand where they hold them. -/
structure Locks (cfg : Config N K) (s : State N K V T) : Prop where
  lru : ∀ t, (s.pc t).inside = true ↔ s.lruLock = some t
  bucket : ∀ t i, (∃ b, (s.pc t).lockedBucket cfg = some b ∧ lockIndex b = i) ↔
    s.bucketLock i = some t

namespace Locks

variable {cfg : Config N K} {s : State N K V T} {t t' : T}

theorem inside_unique (h : Locks cfg s) (ht : (s.pc t).inside = true)
    (ht' : (s.pc t').inside = true) : t = t' := by
  have hl := (h.lru t).1 ht
  rw [(h.lru t').1 ht'] at hl
  exact (Option.some.inj hl).symm

theorem bucket_ne (h : Locks cfg s) {b b' : ℕ} (hne : t' ≠ t)
    (ht : (s.pc t).lockedBucket cfg = some b) (ht' : (s.pc t').lockedBucket cfg = some b') :
    b' ≠ b := by
  rintro rfl
  have hl := (h.bucket t _).1 ⟨b', ht, rfl⟩
  rw [(h.bucket t' _).1 ⟨b', ht', rfl⟩] at hl
  exact hne (Option.some.inj hl)

theorem initial [Inhabited K] [Inhabited V] (cfg : Config N K) :
    Locks cfg (initial N K V T) where
  lru _ := by simp [Threads.initial, PC.inside]
  bucket _ _ := by simp [Threads.initial, PC.lockedBucket]

variable [DecidableEq T] {act : Act N K V} {pc' : PC N K V}

theorem lru_step (h : Locks cfg s) (hs : act.insideStep s.lruLock (s.pc t).inside pc'.inside)
    (t' : T) : (Function.update s.pc t pc' t').inside = true ↔
      act.onLruLock t s.lruLock = some t' := by
  have ht := h.lru t
  by_cases heq : t' = t
  · subst heq
    rw [Function.update_self]
    cases act with
    | lockLru => simp [Act.onLruLock, hs.2.2]
    | unlockLru => simp [Act.onLruLock, hs.2]
    | _ =>
        rw [show pc'.inside = (s.pc t').inside from hs]
        exact ht
  · rw [Function.update_of_ne heq, h.lru t']
    cases act with
    | lockLru => simp [Act.onLruLock, hs.1, Ne.symm heq]
    | unlockLru => simp [Act.onLruLock, ht.1 hs.1, Ne.symm heq]
    | _ => rfl

theorem bucket_step (h : Locks cfg s)
    (hs : act.bucketStep s.bucketLock ((s.pc t).lockedBucket cfg) (pc'.lockedBucket cfg))
    (t' : T) (i : ℕ) :
    (∃ b, (Function.update s.pc t pc' t').lockedBucket cfg = some b ∧ lockIndex b = i) ↔
      act.onBucketLock t s.bucketLock i = some t' := by
  have ht := h.bucket t i
  by_cases heq : t' = t
  · subst heq
    rw [Function.update_self]
    cases act with
    | lockBucket b =>
        obtain ⟨hfree, hold, hnew⟩ := hs
        simp only [hold, reduceCtorEq, false_and, exists_false, false_iff] at ht
        simp only [hnew, Option.some.injEq, exists_eq_left', Act.onBucketLock]
        by_cases hi : i = lockIndex b
        · simp [hi]
        · simp [Function.update_of_ne hi, ht, Ne.symm hi]
    | unlockBucket b =>
        obtain ⟨hold, hnew⟩ := hs
        simp only [hold, Option.some.injEq, exists_eq_left'] at ht
        simp only [hnew, reduceCtorEq, false_and, exists_false, false_iff, Act.onBucketLock]
        by_cases hi : i = lockIndex b
        · simp [hi]
        · rw [Function.update_of_ne hi, ← ht]
          exact Ne.symm hi
    | _ =>
        rw [show pc'.lockedBucket cfg = (s.pc t').lockedBucket cfg from hs]
        exact ht
  · rw [Function.update_of_ne heq, h.bucket t']
    cases act with
    | lockBucket b =>
        simp only [Act.onBucketLock]
        by_cases hi : i = lockIndex b
        · subst hi
          simp [hs.1, Ne.symm heq]
        · rw [Function.update_of_ne hi]
    | unlockBucket b =>
        simp only [Act.onBucketLock]
        by_cases hi : i = lockIndex b
        · subst hi
          rw [ht.1 ⟨b, hs.1, rfl⟩]
          simp [Ne.symm heq]
        · rw [Function.update_of_ne hi]
    | _ => rfl

/-- A step keeps the locks in agreement. -/
theorem apply (h : Locks cfg s) (hs : LockStep cfg s (s.pc t) act pc') :
    Locks cfg (s.apply t act pc') :=
  ⟨h.lru_step hs.1, h.bucket_step hs.2⟩

end Locks

end DeferredLru.Threads
