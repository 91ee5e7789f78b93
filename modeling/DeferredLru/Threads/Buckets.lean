import DeferredLru.Threads.Memoization

set_option autoImplicit false

/-! # What a step does to the bucket lists

`Effect` says which nodes are in a bucket after a step, but not in which order. The order follows from
the chains in the memory: three stores change them (`next_bucketSite`), and a chain is determined by
its links. `Inv.bucket_step` says that a step puts a node in front of its bucket, erases one, or
leaves all lists as they are; `Inv.locked_bucket_step` that a locked bucket is left alone by the other
threads, down to the keys and values of its nodes. -/

namespace DeferredLru.Threads

open Intrusive

variable {N : ℕ} {K V T : Type} {cfg : Config N K} {s : State N K V T} {g g' : Ghost N T} {t : T}
  {n : Fin N} {act : Act N K V} {pc' : PC N K V} {fails : Bool}

/-! ## The stores to the chains -/

/-- The access leaves the bucket chains alone. -/
def Act.keepsBuckets : Act N K V → Prop
  | .setBucket _ _ => False
  | .setBucketNext _ _ => False
  | _ => True

/-- Where a store to a bucket chain is made. -/
def Act.bucketSite (pc : PC N K V) : Act N K V → Prop
  | .setBucket b q =>
      (∃ consume k v n, pc = .insert consume k v (.bucket n (.storeHead b)) ∧ q = some n) ∨
      ∃ back n next freed, pc = .consolidate back (.purge (.bucket n next freed (.storeHead b q)))
  | .setBucketNext x q =>
      (∃ consume k v b, pc = .insert consume k v (.bucket x (.storeNext b q))) ∨
      (∃ back n next freed b,
        pc = .consolidate back (.purge (.bucket n next freed (.storeParent b x q)))) ∨
      ∃ back next freed b, pc = .consolidate back (.purge (.bucket x next freed (.clear b))) ∧ q = none
  | _ => True

theorem Act.keepsBuckets.site (h : act.keepsBuckets) (pc : PC N K V) : act.bucketSite pc := by
  cases act <;> first | exact h.elim | trivial

theorem Act.keepsBuckets.onMem (h : act.keepsBuckets) (m : Mem N K V) :
    (act.onMem m).bucketNext = m.bucketNext ∧ (act.onMem m).buckets = m.buckets := by
  cases act <;> first | exact h.elim | exact ⟨rfl, rfl⟩

theorem nextAdd_keepsBuckets {m : Mem N K V} {first last : Ptr N} {p : AddPC N}
    {p' : Option (AddPC N)} (h : nextAdd m fails first last p = some (act, p')) :
    act.keepsBuckets := by
  cases p <;> simp only [nextAdd] at h <;> (try split_ifs at h) <;> cases h <;> trivial

theorem nextUnlink_keepsBuckets {m : Mem N K V} {p : UnlinkPC N} {p' : Option (UnlinkPC N)}
    (h : nextUnlink m n p = some (act, p')) : act.keepsBuckets := by
  cases p <;> simp only [nextUnlink] at h <;> (try split_ifs at h) <;> cases h <;> trivial

theorem nextMark_keepsBuckets {m : Mem N K V} {p : MarkPC N} {p' : Option (MarkPC N)}
    (h : nextMark m fails n p = some (act, p')) : act.keepsBuckets := by
  cases p <;> simp only [nextMark] at h <;> (try split_ifs at h) <;> cases h <;> trivial

theorem nextDispose_keepsBuckets {m : Mem N K V} {p : DisposePC N} {p' : Option (DisposePC N)}
    (h : nextDispose m fails n p = some (act, p')) : act.keepsBuckets := by
  cases p <;> simp only [nextDispose] at h <;> (try split_ifs at h) <;> cases h <;> trivial

theorem nextPull_keepsBuckets {m : Mem N K V} {p : PullPC N} {p' : Option (PullPC N)}
    (h : nextPull m fails p = some (act, p')) : act.keepsBuckets := by
  cases p with
  | prev current last =>
      cases current <;> cases h
      trivial
  | unlink n last p =>
      obtain ⟨⟨a, q⟩, hq, heq⟩ := Option.map_eq_some_iff.1 h
      cases heq
      exact nextUnlink_keepsBuckets hq
  | appendNext n last =>
      simp only [nextPull] at h
      split_ifs at h
      cases h
      trivial
  | add first last p =>
      obtain ⟨⟨a, q⟩, hq, heq⟩ := Option.map_eq_some_iff.1 h
      cases heq
      exact nextAdd_keepsBuckets hq
  | _ =>
      cases h
      trivial

theorem nextPurge_bucketSite {back : Back K V} {p : PurgePC N} {p' : Option (PurgePC N)}
    (h : nextPurge cfg s fails p = some (act, p')) :
    act.bucketSite (.consolidate back (.purge p)) := by
  cases p with
  | prev node freed =>
      cases node <;> cases h
      trivial
  | bucket n next freed p =>
      obtain ⟨⟨a, q⟩, hq, heq⟩ := Option.map_eq_some_iff.1 h
      cases heq
      cases p with
      | lock b =>
          simp only [nextRemove] at hq
          split_ifs at hq
          cases hq
          trivial
      | storeHead b q =>
          cases hq
          exact Or.inr ⟨back, n, next, freed, rfl⟩
      | storeParent b x q =>
          cases hq
          exact Or.inr (Or.inl ⟨back, n, next, freed, b, rfl⟩)
      | clear b =>
          cases hq
          exact Or.inr (Or.inr ⟨back, next, freed, b, rfl, rfl⟩)
      | _ =>
          cases hq
          trivial
  | unlink n next freed p =>
      obtain ⟨⟨a, q⟩, hq, heq⟩ := Option.map_eq_some_iff.1 h
      cases heq
      exact (nextUnlink_keepsBuckets hq).site _
  | dispose n next freed p =>
      obtain ⟨⟨a, q⟩, hq, heq⟩ := Option.map_eq_some_iff.1 h
      cases heq
      exact (nextDispose_keepsBuckets hq).site _
  | _ =>
      cases h
      trivial

theorem nextConsolidate_bucketSite {back : Back K V} {p : ConsolidatePC N}
    (h : nextConsolidate cfg s fails back p = some (act, pc')) :
    act.bucketSite (.consolidate back p) := by
  cases p with
  | purge p =>
      obtain ⟨⟨a, q⟩, hq, heq⟩ := Option.map_eq_some_iff.1 h
      cases heq
      exact nextPurge_bucketSite hq
  | pull p =>
      obtain ⟨⟨a, q⟩, hq, heq⟩ := Option.map_eq_some_iff.1 h
      cases heq
      exact (nextPull_keepsBuckets hq).site _
  | tryLock =>
      simp only [nextConsolidate] at h
      split_ifs at h <;> cases h <;> trivial
  | _ =>
      cases h
      trivial

theorem nextInsert_bucketSite {consume : Bool} {k : K} {v : V} {p : InsertPC N}
    (h : nextInsert cfg s fails consume k v p = some (act, pc')) :
    act.bucketSite (.insert consume k v p) := by
  cases p with
  | allocate p =>
      cases p with
      | load =>
          cases h
          trivial
      | loadNext node =>
          simp only [nextInsert] at h
          split_ifs at h
          cases h
          trivial
      | cas node link =>
          simp only [nextInsert] at h
          split_ifs at h
          · cases node <;> cases h
            trivial
          · cases h
            trivial
  | bucket n p =>
      obtain ⟨⟨a, q⟩, hq, heq⟩ := Option.map_eq_some_iff.1 h
      cases heq
      cases p with
      | lock b =>
          simp only [nextLink] at hq
          split_ifs at hq
          cases hq
          trivial
      | storeNext b head =>
          cases hq
          exact Or.inl ⟨consume, k, v, b, rfl⟩
      | storeHead b =>
          cases hq
          exact Or.inl ⟨consume, k, v, n, rfl, rfl⟩
      | _ =>
          cases hq
          trivial
  | add n p =>
      obtain ⟨⟨a, q⟩, hq, heq⟩ := Option.map_eq_some_iff.1 h
      cases heq
      exact (nextAdd_keepsBuckets hq).site _
  | _ =>
      cases h
      trivial

section Steps

variable [DecidableEq K] {move : Move K V}

/-- `find` writes to no bucket chain. -/
theorem nextFind_keepsBuckets {producer : Option V} {k : K} {p : FindPC N V}
    (h : nextFind cfg s fails producer k p = some (act, pc')) : act.keepsBuckets := by
  cases p with
  | lock =>
      simp only [nextFind] at h
      split_ifs at h
      cases h
      trivial
  | mark n r p =>
      obtain ⟨⟨a, q⟩, hq, heq⟩ := Option.map_eq_some_iff.1 h
      cases heq
      exact nextMark_keepsBuckets hq
  | _ =>
      cases h
      trivial

/-- **The stores to the bucket chains** are those of `addNodeToBucket` and `removeNodeFromBucket`. -/
theorem next_bucketSite {pc : PC N K V} (h : next cfg s pc move = some (act, pc')) :
    act.bucketSite pc := by
  cases next_transition h with
  | call hpc c => trivial
  | find h => exact (nextFind_keepsBuckets h).site _
  | insert h => exact nextInsert_bucketSite h
  | consolidate h => exact nextConsolidate_bucketSite h

end Steps

/-! ## The lists -/

/-- The bucket lists after the deed. -/
def Deed.buckets (cfg : Config N K) (key : Fin N → K) (bucket : ℕ → List (Fin N)) :
    Deed N → ℕ → List (Fin N)
  | .bucket n => Function.update bucket (cfg.keyToBucketNr (key n))
      (n :: bucket (cfg.keyToBucketNr (key n)))
  | .unbucket n => Function.update bucket (cfg.keyToBucketNr (key n))
      ((bucket (cfg.keyToBucketNr (key n))).erase n)
  | _ => bucket

/-- The links determine the lists. -/
theorem BucketsInv.unique {bucketNext : Fin N → Option (Fin N)} {buckets : ℕ → Option (Fin N)}
    {key : Fin N → K} {status : Fin N → Status T} {bucket bucket' : ℕ → List (Fin N)}
    (h' : BucketsInv cfg bucketNext buckets key status bucket')
    (hchain : ∀ b, Chain bucketNext some (buckets b) (bucket b) none) : bucket' = bucket :=
  funext fun b => Chain.unique (Option.some_injective _) (by simp) (by simp) (h'.chain b) (hchain b)

/-- A node leaves its bucket by one of the two stores of `removeNodeFromBucket`. -/
theorem Label.deed_unbucket {l : Label N K V T} (h : l.deed = .unbucket n) :
    ∃ back next freed b q, l.pc = .consolidate back (.purge (.bucket n next freed (.storeHead b q))) ∨
      ∃ x, l.pc = .consolidate back (.purge (.bucket n next freed (.storeParent b x q))) := by
  unfold Label.deed at h
  split at h <;> cases h
  · exact ⟨_, _, _, _, _, Or.inl rfl⟩
  · exact ⟨_, _, _, _, _, Or.inr ⟨_, rfl⟩⟩

/-- The threads in the purge rely on the node that they evict. -/
theorem Inv.removing (h : Inv cfg s g) {back : Back K V} {next : Ptr N} {freed : ℕ} {p : RemovePC N}
    (hpc : s.pc t = .consolidate back (.purge (.bucket n next freed p))) : p.inv cfg s.mem g n := by
  obtain ⟨-, -, hinv⟩ := h.purge_inv hpc
  exact hinv.2.2.2

section Steps

variable [DecidableEq K] {move : Move K V}

/-- Without a store to a bucket chain there is no deed on one. -/
theorem next_keepsBuckets_deed {pc : PC N K V} (hact : act.keepsBuckets)
    (hnext : next cfg s pc move = some (act, pc')) (t : T) (key : Fin N → K)
    (bucket : ℕ → List (Fin N)) : (Label.deed ⟨t, pc, move, act⟩).buckets cfg key bucket =
      bucket := by
  generalize hd : Label.deed ⟨t, pc, move, act⟩ = d
  cases d with
  | bucket n =>
      obtain ⟨consume, k, v, b, hpc⟩ := Label.deed_bucket hd
      rw [show pc = _ from hpc] at hnext
      cases move <;> cases hnext
      exact hact.elim
  | unbucket n =>
      obtain ⟨back, next, freed, b, q, hpc | ⟨x, hpc⟩⟩ := Label.deed_unbucket hd
      · rw [show pc = _ from hpc] at hnext
        cases move <;> cases hnext
        exact hact.elim
      · rw [show pc = _ from hpc] at hnext
        cases move <;> cases hnext
        exact hact.elim
  | _ => rfl

/-- A store to a bucket chain is a deed, or writes the link of a node that is in no bucket. -/
theorem Inv.bucket_chain (h : Inv cfg s g) (hnext : next cfg s (s.pc t) move = some (act, pc')) (b : ℕ) :
    Chain (act.onMem s.mem).bucketNext some ((act.onMem s.mem).buckets b)
      ((Label.deed ⟨t, s.pc t, move, act⟩).buckets cfg s.mem.key g.bucket b) none := by
  have hsite := next_bucketSite hnext
  by_cases hact : act.keepsBuckets
  · obtain ⟨hlinks, hheads⟩ := hact.onMem s.mem
    rw [next_keepsBuckets_deed hact hnext, hlinks, hheads]
    exact h.buckets.chain b
  cases act with
  | setBucket b' q =>
      rcases hsite with ⟨consume, k, v, n, hpc, rfl⟩ | ⟨back, n, next, freed, hpc⟩
      · have hinv := h.pcs t
        rw [hpc] at hinv ⊢
        obtain ⟨hkey, -, hb', hlink⟩ := hinv
        have hn : ¬ (g.status n).inBucket := by
          rw [h.held (t := t) (x := .building) (by rw [hpc]; rfl)]
          exact id
        rw [← hkey] at hb'
        subst hb'
        exact (h.buckets.link (σ := .held t .bucketed) hn trivial rfl hlink).chain b
      · have hinv := h.removing hpc
        rw [hpc]
        obtain ⟨rfl, hn, hhead, rfl⟩ := hinv
        exact (h.buckets.unlinkHead (σ := .held t .evicting) hn id hhead).chain b
  | setBucketNext x q =>
      rcases hsite with ⟨consume, k, v, b', hpc⟩ | ⟨back, n, next, freed, b', hpc⟩ |
        ⟨back, next, freed, b', hpc, rfl⟩
      · rw [hpc]
        refine (h.buckets.foreign ?_ q).chain b
        rw [h.held (t := t) (x := .building) (by rw [hpc]; rfl)]
        exact id
      · have hinv := h.removing hpc
        rw [hpc]
        obtain ⟨rfl, hn, hx, hlink, rfl⟩ := hinv
        exact (h.buckets.unlinkBehind (σ := .held t .evicting) hn id hx hlink).chain b
      · rw [hpc]
        refine (h.buckets.foreign ?_ none).chain b
        rw [h.held (t := t) (x := .evicting) (by rw [hpc]; rfl)]
        exact id
  | _ => exact absurd trivial hact

variable [DecidableEq T]

/-- **A step** puts a node in front of its bucket, erases one, or leaves the lists alone. -/
theorem Inv.bucket_step (h : Inv cfg s g) (hnext : next cfg s (s.pc t) move = some (act, pc'))
    (h' : Inv cfg (s.apply t act pc') g') :
    g'.bucket = (Label.deed ⟨t, s.pc t, move, act⟩).buckets cfg s.mem.key g.bucket :=
  h'.buckets.unique (h.bucket_chain hnext)

/-- **A locked bucket** is not changed by another thread. -/
theorem Inv.locked_bucket_step (h : Inv cfg s g) (hnext : next cfg s (s.pc t) move = some (act, pc'))
    (h' : Inv cfg (s.apply t act pc') g') {u : T} {b : ℕ} (hne : u ≠ t)
    (hlock : (s.pc u).lockedBucket cfg = some b) : g'.bucket b = g.bucket b := by
  rw [h.bucket_step hnext h']
  generalize hd : Label.deed ⟨t, s.pc t, move, act⟩ = d
  -- whoever edits a bucket has it locked
  cases d with
  | bucket n =>
      obtain ⟨consume, k, v, b', hpc⟩ := Label.deed_bucket hd
      have hinv := h.pcs t
      rw [show s.pc t = _ from hpc] at hinv
      have hown : (s.pc t).lockedBucket cfg = some (cfg.keyToBucketNr (s.mem.key n)) := by
        rw [show s.pc t = _ from hpc, hinv.1, ← hinv.2.2.1]
        rfl
      exact Function.update_of_ne (h.locks.bucket_ne hne hown hlock) _ _
  | unbucket n =>
      have hown : (s.pc t).lockedBucket cfg = some (cfg.keyToBucketNr (s.mem.key n)) := by
        obtain ⟨back, next, freed, b', q, hpc | ⟨x, hpc⟩⟩ := Label.deed_unbucket hd
        · have hpc' : s.pc t = _ := hpc
          rw [hpc', ← (h.removing hpc').1]
          rfl
        · have hpc' : s.pc t = _ := hpc
          rw [hpc', ← (h.removing hpc').1]
          rfl
      exact Function.update_of_ne (h.locks.bucket_ne hne hown hlock) _ _
  | _ => rfl

end Steps

end DeferredLru.Threads
