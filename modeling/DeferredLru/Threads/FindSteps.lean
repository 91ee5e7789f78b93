import DeferredLru.Threads.ListSteps

set_option autoImplicit false

/-! # The steps of `find`

`find` only reads, except that it marks the node it has found: it sees the node unmarked, stores a
link in it and pushes it on the Recent list. That no other thread marks, guards or evicts the node in
between rests on the bucket lock (`Inv.unmarked`). -/

namespace DeferredLru.Threads

open Intrusive

variable {N : ℕ} {K V T : Type} {cfg : Config N K} {s : State N K V T} {g : Ghost N T} {t : T}
  {n : Fin N}

/-! ## Consequences of the invariant -/

theorem Inv.bucket_eq (h : Inv cfg s g) {b : ℕ} (hn : n ∈ g.bucket b) :
    cfg.keyToBucketNr (s.mem.key n) = b := ((h.buckets.mem b n).1 hn).2

theorem Inv.inBucket (h : Inv cfg s g) {b : ℕ} (hn : n ∈ g.bucket b) : (g.status n).inBucket :=
  ((h.buckets.mem b n).1 hn).1

theorem Inv.compatible_role (h : Inv cfg s g) {ρ : Role T} (hc : Compatible ρ (g.status n))
    (x : Fin N) : Compatible (Function.update g.role n ρ x) (g.status x) := by
  by_cases hx : x = n
  · subst hx
    rw [Function.update_self]
    exact hc
  · rw [Function.update_of_ne hx]
    exact h.compatible x

theorem Inv.compatible_status (h : Inv cfg s g) {σ : Status T} (hc : Compatible (g.role n) σ)
    (x : Fin N) : Compatible (g.role x) (Function.update g.status n σ x) := by
  by_cases hx : x = n
  · subst hx
    rw [Function.update_self]
    exact hc
  · rw [Function.update_of_ne hx]
    exact h.compatible x

theorem Inv.compatible_both (h : Inv cfg s g) {ρ : Role T} {σ : Status T} (hc : Compatible ρ σ)
    (x : Fin N) : Compatible (Function.update g.role n ρ x) (Function.update g.status n σ x) := by
  by_cases hx : x = n
  · subst hx
    rw [Function.update_self, Function.update_self]
    exact hc
  · rw [Function.update_of_ne hx, Function.update_of_ne hx]
    exact h.compatible x

/-- A thread that means to mark a node, or has begun to, has the bucket of the node locked. -/
theorem Inv.intending_locked (h : Inv cfg s g) (hm : (s.pc t).marks = some (n, .intending)) :
    ∃ b, (s.pc t).lockedBucket cfg = some b ∧ n ∈ g.bucket b := by
  have hpc := h.pcs t
  generalize s.pc t = pc at hm hpc
  cases pc with
  | find producer k p =>
      cases p with
      | mark x r p =>
          cases p with
          | test => cases hm
          | count => cases hm
          | _ =>
              obtain ⟨rfl, -⟩ := Prod.mk.inj (Option.some.inj hm)
              exact ⟨_, rfl, hpc.1⟩
      | _ => cases hm
  | insert consume k v p => cases p <;> cases hm
  | consolidate back p =>
      cases p with
      | purge p =>
          cases p with
          | bucket x next freed p =>
              simp only [PC.marks, PurgePC.marks] at hm
              split_ifs at hm
              cases hm
          | _ => cases hm
      | _ => cases hm
  | _ => cases hm

/-- A thread that evicts a node has the bucket of the node locked until the node has left it. -/
theorem Inv.condemned_locked (h : Inv cfg s g) (hm : (s.pc t).marks = some (n, .condemned))
    (hn : (g.status n).inBucket) :
    (s.pc t).lockedBucket cfg = some (cfg.keyToBucketNr (s.mem.key n)) := by
  have hholds := h.status t n
  have hpc := h.pcs t
  -- only `removeNodeFromBucket` condemns, and it does so under the lock of the bucket
  generalize s.pc t = pc at hm hpc hholds
  -- a node that is out of its bucket is not in one
  have hnone : ∀ x, pc.holds = some (n, x) → x ≠ .evicting ∧ x ≠ .evicted := by
    intro x hx
    rw [(hholds x).1 hx] at hn
    constructor <;> rintro rfl <;> exact hn
  cases pc with
  | find producer k p =>
      cases p with
      | mark x r p =>
          cases p with
          | store q again => cases again <;> cases hm
          | _ => cases hm
      | _ => cases hm
  | insert consume k v p => cases p <;> cases hm
  | consolidate back p =>
      cases p with
      | purge p =>
          cases p with
          | bucket x next freed p =>
              cases p with
              | unlock b removed =>
                  cases removed with
                  | true =>
                      cases hm
                      exact absurd rfl (hnone _ rfl).1
                  | false => cases hm
              | clear b =>
                  cases hm
                  exact absurd rfl (hnone _ rfl).1
              | load b =>
                  cases hm
                  exact congrArg some hpc.2.2.2.2
              | headNext b =>
                  cases hm
                  exact congrArg some hpc.2.2.2.2.1
              | storeHead b q =>
                  cases hm
                  exact congrArg some hpc.2.2.2.2.1
              | walk b p =>
                  cases hm
                  exact congrArg some hpc.2.2.2.2.1
              | nodeNext b p =>
                  cases hm
                  exact congrArg some hpc.2.2.2.2.1
              | storeParent b p q =>
                  cases hm
                  exact congrArg some hpc.2.2.2.2.1
              | _ => cases hm
          | unlink x next freed p =>
              cases hm
              cases p with
              | storePrev => exact absurd rfl (hnone _ rfl).2
              | _ => exact absurd rfl (hnone _ rfl).1
          | onDelete x next freed =>
              cases hm
              exact absurd rfl (hnone _ rfl).2
          | count x next freed =>
              cases hm
              exact absurd rfl (hnone _ rfl).2
          | dispose x next freed p =>
              cases hm
              exact absurd rfl (hnone _ rfl).2
          | _ => cases hm
      | _ => cases hm
  | _ => cases hm

/-- **Under the bucket lock** a null `recent_next` means that nobody has plans with the node. -/
theorem Inv.unmarked (h : Inv cfg s g) {b : ℕ} (hlock : (s.pc t).lockedBucket cfg = some b)
    (hn : n ∈ g.bucket b) (hmarks : (s.pc t).marks = none)
    (hnull : s.mem.markedRecent n = false) : g.role n = .rest .unmarked := by
  have hrole : ¬ (g.role n).marked := by
    rw [← h.recent.marked n]
    simpa [Mem.markedRecent] using hnull
  have hself : ∀ t' x, g.role n = .held t' x → t' ≠ t := by
    rintro t' x hr rfl
    rw [h.role.view_eq hr] at hmarks
    cases hmarks
  cases hr : g.role n with
  | rest p =>
      rw [hr] at hrole
      cases p with
      | unmarked => rfl
      | recent => exact absurd trivial hrole
      | slice => exact absurd trivial hrole
  | held t' x =>
      exfalso
      have hv := h.role.view_eq hr
      have hne := hself t' x hr
      rw [hr] at hrole
      cases x with
      | intending =>
          obtain ⟨b', hb', hn'⟩ := h.intending_locked hv
          refine h.locks.bucket_ne hne hlock hb' ?_
          rw [← h.bucket_eq hn, ← h.bucket_eq hn']
      | pushing => exact hrole trivial
      | guarded => exact hrole trivial
      | condemned =>
          refine h.locks.bucket_ne hne hlock (h.condemned_locked hv (h.inBucket hn)) ?_
          exact h.bucket_eq hn

/-- A node that a thread is marking is held by nobody. -/
theorem Compatible.of_marking {x : Mark} {σ : Status T} (hx : x = .intending ∨ x = .pushing)
    (h : Compatible (.held t x) σ) : ∃ p, σ = .rest p ∧ p ≠ .free := by
  cases σ with
  | rest p => rcases hx with rfl | rfl <;> exact ⟨p, rfl, h⟩
  | held t' y => rcases hx with rfl | rfl <;> exact h.elim

/-- An unmarked node in a bucket is held by nobody. -/
theorem Inv.resting (h : Inv cfg s g) (hr : g.role n = .rest .unmarked)
    (hn : (g.status n).inBucket) : ∃ p, g.status n = .rest p ∧ p ≠ .free := by
  have hc := h.compatible n
  rw [hr] at hc
  cases hs : g.status n with
  | rest p =>
      refine ⟨p, rfl, ?_⟩
      rintro rfl
      rw [hs] at hn
      exact hn
  | held t' x =>
      rw [hs] at hc hn
      cases x with
      | building => exact hn.elim
      | _ => exact hc.elim

/-! ## Marking -/

variable {producer : Option V} {k : K} {r : V}

/-- The bucket list that a `find` stands on. -/
theorem Inv.mark_bucket (h : Inv cfg s g) {p : MarkPC N}
    (hpc : s.pc t = .find producer k (.mark n r p)) :
    (s.pc t).lockedBucket cfg = some (cfg.keyToBucketNr k) ∧ n ∈ g.bucket (cfg.keyToBucketNr k) ∧
      p.inv s.mem n := by
  have hinv := h.pcs t
  rw [hpc] at hinv ⊢
  exact ⟨rfl, hinv.1, hinv.2⟩

theorem afterFind_inv (cfg : Config N K) (m : Mem N K V) (g : Ghost N T) (producer : Option V)
    (k : K) (r : Option V) : (afterFind producer k r : PC N K V).inv cfg m g := by
  cases producer <;> cases r <;> trivial

theorem searchAt_inv (cfg : Config N K) (m : Mem N K V) (g : Ghost N T) (k : K) {x : Option (Fin N)}
    (hx : ∀ n, x = some n → n ∈ g.bucket (cfg.keyToBucketNr k)) :
    (searchAt x : FindPC N V).inv cfg m g k := by
  cases x with
  | none => trivial
  | some n => exact hx n rfl

variable [DecidableEq T]

/-- Seeing the node unmarked. -/
theorem Inv.intend (h : Inv cfg s g) (hpc : s.pc t = .find producer k (.mark n r .test))
    (hnull : s.mem.markedRecent n = false) :
    Preserves cfg s t .read (.find producer k (.mark n r .load)) .nothing g := by
  obtain ⟨hlock, hn, -⟩ := h.mark_bucket hpc
  have hr := h.unmarked hlock hn (by rw [hpc]; rfl) hnull
  obtain ⟨p, hp, hpf⟩ := h.resting hr (h.inBucket hn)
  refine ⟨{ g with role := Function.update g.role n (.held t .intending) }, ?_, .nothing rfl rfl⟩
  refine h.apply (by rw [hpc]; exact ⟨rfl, rfl⟩) (h.status.keep (by rw [hpc]; rfl))
    (h.role.take (by rw [hpc]; rfl) hr rfl) (h.compatible_role ?_) h.buckets ?_
    (h.lru.settled (by rw [hpc]; exact ⟨rfl, rfl, rfl, rfl⟩)) h.quiet ⟨hn, trivial⟩
    (fun t' _ => { Rely.refl cfg (s.pc t') s.mem g with
      inside := fun _ => { InsideRely.refl s.mem g with } })
  · rw [hp]
    exact hpf
  · refine h.recent.rerole ?_ ⟨by simp, by simp⟩ ?_
    · rw [hr]
      exact ⟨by simp, by simp⟩
    · rw [hr]
      exact Iff.rfl

/-- Storing a link in the node; the node is marked from here on. -/
theorem Inv.storeMark (h : Inv cfg s g) {p : Ptr N} {again : Bool}
    (hpc : s.pc t = .find producer k (.mark n r (.store p again))) :
    Preserves cfg s t (.setRecent n p) (.find producer k (.mark n r (.cas p))) .nothing g := by
  obtain ⟨-, hn, hp⟩ := h.mark_bucket hpc
  have hv : (s.pc t).marks = some (n, if again then .pushing else .intending) := by
    rw [hpc]
    rfl
  have hr := h.role.held hv
  refine ⟨{ g with role := Function.update g.role n (.held t .pushing) }, ?_, .nothing rfl rfl⟩
  refine h.apply (by rw [hpc]; exact ⟨rfl, rfl⟩) (h.status.keep (by rw [hpc]; rfl))
    (h.role.pass hv rfl) (h.compatible_role ?_) h.buckets ?_
    (h.lru.settled (by rw [hpc]; exact ⟨rfl, rfl, rfl, rfl⟩)) h.quiet
    ⟨hn, Function.update_self ..⟩ (fun t' hne => { Rely.refl cfg (s.pc t') s.mem g with
      marks := fun x y hm => ?_
      inside := fun _ => { InsideRely.refl s.mem g with recent := fun x hx => ?_ } })
  · have hc := h.compatible n
    rw [hr] at hc
    obtain ⟨q, hq, hqf⟩ := hc.of_marking (by cases again <;> simp)
    rw [hq]
    exact hqf
  · refine h.recent.store ?_ ⟨by simp, by simp⟩ (iff_of_true hp trivial)
    rw [hr]
    exact ⟨by simp, by simp⟩
  · have hxn : x ≠ n := by
      rintro rfl
      rw [h.role.held hm] at hr
      exact hne (Own.held.inj hr).1
    exact Function.update_of_ne hxn _ _
  · have hxn : x ≠ n := by
      rintro rfl
      rw [(h.recent.slice x).1 hx] at hr
      cases hr
    exact Function.update_of_ne hxn _ _

/-- The compare-exchange puts the node on the Recent list. -/
theorem Inv.push (h : Inv cfg s g) {p : Ptr N}
    (hpc : s.pc t = .find producer k (.mark n r (.cas p))) (hhead : s.mem.recentHead = p) :
    Preserves cfg s t (.setRecentHead (.node n)) (.find producer k (.mark n r .count)) (.mark n)
      g := by
  obtain ⟨-, hn, hp⟩ := h.mark_bucket hpc
  have hv : (s.pc t).marks = some (n, .pushing) := by
    rw [hpc]
    rfl
  have hr := h.role.held hv
  refine ⟨{ g with
    role := Function.update g.role n (.rest .recent)
    recent := n :: g.recent }, ?_, ⟨fun _ => Iff.rfl, fun _ => Iff.rfl, fun _ => Iff.rfl,
      fun _ => Iff.rfl, rfl⟩⟩
  refine h.apply (by rw [hpc]; exact ⟨rfl, rfl⟩) (h.status.keep (by rw [hpc]; rfl))
    (h.role.drop hv rfl) (h.compatible_role ?_) h.buckets ?_
    (h.lru.settled (by rw [hpc]; exact ⟨rfl, rfl, rfl, rfl⟩)) h.quiet
    ⟨hn, trivial⟩ (fun t' _ => { Rely.refl cfg (s.pc t') s.mem g with
      inside := fun _ => { InsideRely.refl s.mem g with } })
  · have hc := h.compatible n
    rw [hr] at hc
    obtain ⟨q, hq, hqf⟩ := hc.of_marking (by simp)
    rw [hq]
    exact hqf
  · refine h.recent.push ?_ ?_ (hp.trans hhead.symm)
    · rw [hr]
      exact ⟨by simp, by simp⟩
    · rw [hr]
      trivial

/-! ## All steps -/

theorem Inv.find_step [DecidableEq K] {fails : Bool} {p : FindPC N V} {act : Act N K V}
    {pc' : PC N K V} (h : Inv cfg s g) (hpc : s.pc t = .find producer k p)
    (hnext : nextFind cfg s fails producer k p = some (act, pc')) :
    Preserves cfg s t act pc' (Label.deed ⟨t, s.pc t, .go fails, act⟩) g := by
  have hlocks := nextFind_locks hnext
  have hinv := h.pcs t
  rw [hpc] at hinv ⊢
  cases p with
  | lock =>
      simp only [nextFind] at hnext
      split_ifs at hnext
      cases hnext
      exact h.still hpc hlocks (.refl _) rfl rfl ⟨rfl, rfl, rfl, rfl⟩ h.quiet trivial
  | load =>
      cases hnext
      refine h.still hpc hlocks (.refl _) ?_ ?_ ?_ h.quiet (searchAt_inv cfg _ g k fun n hn => ?_)
      · cases s.mem.buckets (cfg.keyToBucketNr k) <;> rfl
      · cases s.mem.buckets (cfg.keyToBucketNr k) <;> rfl
      · cases s.mem.buckets (cfg.keyToBucketNr k) <;> exact ⟨rfl, rfl, rfl, rfl⟩
      · rcases (h.buckets.chain (cfg.keyToBucketNr k)).start_mem with hb | ⟨y, hy, hb⟩
        · rw [hb] at hn
          cases hn
        · rw [hb] at hn
          cases hn
          exact hy
  | key n =>
      cases hnext
      by_cases hk : s.mem.key n = k
      · rw [if_pos hk] at hlocks ⊢
        exact h.still hpc hlocks (.refl _) rfl rfl ⟨rfl, rfl, rfl, rfl⟩ h.quiet ⟨hinv, hk⟩
      · rw [if_neg hk] at hlocks ⊢
        exact h.still hpc hlocks (.refl _) rfl rfl ⟨rfl, rfl, rfl, rfl⟩ h.quiet hinv
  | next n =>
      cases hnext
      refine h.still hpc hlocks (.refl _) ?_ ?_ ?_ h.quiet (searchAt_inv cfg _ g k fun x hx => ?_)
      · cases s.mem.bucketNext n <;> rfl
      · cases s.mem.bucketNext n <;> rfl
      · cases s.mem.bucketNext n <;> exact ⟨rfl, rfl, rfl, rfl⟩
      · rcases (h.buckets.chain (cfg.keyToBucketNr k)).next_mem hinv with hb | ⟨y, hy, hb⟩
        · rw [hb] at hx
          cases hx
        · rw [hb] at hx
          cases hx
          exact hy
  | value n =>
      cases hnext
      exact h.still hpc hlocks (.refl _) rfl rfl ⟨rfl, rfl, rfl, rfl⟩ h.quiet ⟨hinv.1, trivial⟩
  | mark n r p =>
      obtain ⟨⟨a, q⟩, hq, heq⟩ := Option.map_eq_some_iff.1 hnext
      cases heq
      cases p with
      | test =>
          cases hq
          -- a marked node is left alone, an unmarked one is guarded until the mark is stored
          cases hm : s.mem.markedRecent n with
          | true =>
              rw [hm] at hlocks
              exact h.still hpc hlocks (.refl _) rfl rfl ⟨rfl, rfl, rfl, rfl⟩ h.quiet trivial
          | false => exact h.intend hpc hm
      | load =>
          cases hq
          exact h.still hpc hlocks (.refl _) rfl rfl ⟨rfl, rfl, rfl, rfl⟩ h.quiet
            ⟨hinv.1, h.recent.head_ne_null⟩
      | store p again =>
          cases hq
          exact h.storeMark hpc
      | cas p =>
          simp only [nextMark] at hq
          split_ifs at hq with hcas
          · -- the head is the one just stored as the link, so the mark pushes the node
            cases hq
            exact h.push hpc hcas.1
          · cases hq
            exact h.still hpc hlocks (.refl _) rfl rfl ⟨rfl, rfl, rfl, rfl⟩ h.quiet
              ⟨hinv.1, h.recent.head_ne_null⟩
      | count =>
          cases hq
          exact h.still hpc hlocks ⟨rfl, rfl, rfl, rfl, rfl, rfl, rfl, rfl⟩ rfl rfl
            ⟨rfl, rfl, rfl, rfl⟩ h.quiet trivial
  | unlock r =>
      cases hnext
      exact h.still hpc hlocks (.refl _) rfl rfl ⟨rfl, rfl, rfl, rfl⟩ h.quiet trivial
  | threshold r =>
      cases hnext
      by_cases hthr : recentThresholdHit cfg s.mem = true
      · rw [if_pos hthr] at hlocks ⊢
        exact h.still hpc hlocks (.refl _) rfl rfl ⟨rfl, rfl, rfl, rfl⟩ h.quiet trivial
      · rw [if_neg hthr] at hlocks ⊢
        have hd := afterFind_detached (N := N) producer k r
        exact h.still hpc hlocks (.refl _) hd.holds hd.marks ⟨rfl, rfl, hd.repairing, hd.gap⟩ h.quiet
          (afterFind_inv cfg _ g producer k r)

end DeferredLru.Threads
