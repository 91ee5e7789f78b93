import DeferredLru.Threads.InsertSteps

set_option autoImplicit false

/-! # The steps of `purgeOld`

The purging thread alone takes nodes out of the LRU list, so the links it walks backwards stay exact;
the one link that an inserter may still have to repair leads to the head sentinel, where the walk
ends. A node it has seen unmarked under the bucket lock is its own (`Inv.condemn`): it takes the node
out of the bucket, then out of the LRU list, and puts it in the pool. -/

namespace DeferredLru.Threads

open Intrusive

variable {N : ℕ} {K V T : Type} {cfg : Config N K} {s : State N K V T} {g : Ghost N T} {t t' : T}
  {n : Fin N} {b : ℕ}

/-! ## The consolidating thread -/

/-- Nobody else is inside. -/
theorem Inv.alone (h : Inv cfg s g) (hin : (s.pc t).inside = true) (hne : t' ≠ t) :
    (s.pc t').inside ≠ true := fun hin' => hne (h.locks.inside_unique hin' hin)

/-- What the others rely on while they are not inside holds for them in any case. -/
theorem Inv.rely_inside (h : Inv cfg s g) (hin : (s.pc t).inside = true) (hne : t' ≠ t)
    {m : Mem N K V} {g' : Ghost N T} :
    (s.pc t').inside = true → InsideRely s.mem g m g' := fun hin' =>
  absurd hin' (h.alone hin hne)

/-- If it does not stand in the gap of an unlinking, there is none. -/
theorem Inv.no_gap (h : Inv cfg s g) (hin : (s.pc t).inside = true) (hgap : (s.pc t).gap = none)
    (t' : T) : (s.pc t').gap = none := by
  by_cases hne : t' = t
  · rw [hne, hgap]
  · cases hg : (s.pc t').gap with
    | none => rfl
    | some r => exact absurd (PC.gap_inside hg) (h.alone hin hne)

/-- The back link of a listed node or of the tail leads to the head sentinel or to a listed node. -/
theorem Inv.prev_listed (h : Inv cfg s g) (hin : (s.pc t).inside = true)
    (hgap : (s.pc t).gap = none) {p : Ptr N} (hp : p = .lruTail ∨ InList g p) :
    s.mem.lruPrev p = .lruHead ∨ InList g (s.mem.lruPrev p) := by
  have hpred : ∃ c, IsCell Ptr.node .lruHead g.lru c ∧ s.mem.lruNext c = p := by
    rcases hp with rfl | ⟨x, hx, rfl⟩
    · exact h.lru.linked.last
    · exact h.lru.linked.pred hx
  obtain ⟨c, hc, rfl⟩ := hpred
  rcases h.lru.back c hc with hb | ⟨t', hr⟩ | ⟨t', x, hg⟩
  · rw [hb]
    exact hc
  · exact Or.inl (h.lru.repairing t' _ _ hr).1
  · rw [h.no_gap hin hgap t'] at hg
    cases hg

/-- A node that is being evicted or moved is in the hands of the consolidating thread. -/
theorem PC.inside_of_holds {pc : PC N K V} {x : Stage} (hp : pc.holds = some (n, x))
    (hx : x = .evicting ∨ x = .limbo) : pc.inside = true := by
  cases pc with
  | insert consume k v p =>
      exfalso
      cases p with
      | bucket y p => cases p <;> cases hp <;> simp [LinkPC.stage] at hx
      | add y p => cases p <;> cases hp <;> simp [AddPC.stage] at hx
      | _ => cases hp <;> simp at hx
  | consolidate back p =>
      cases p with
      | purge p => rfl
      | pull p => rfl
      | _ => cases hp
  | _ => cases hp

/-- A listed node that the purge sees unmarked is held by nobody. -/
theorem Inv.unmarked_resident (h : Inv cfg s g) (hin : (s.pc t).inside = true)
    (hholds : (s.pc t).holds = none) (hn : n ∈ g.lru) (hnull : s.mem.markedRecent n = false) :
    g.status n = .rest .resident := by
  have hc := h.compatible n
  have hlru := (h.lru.mem n).1 hn
  have hrole : ¬ (g.role n).marked := by
    rw [← h.recent.marked n]
    simpa [Mem.markedRecent] using hnull
  cases hs : g.status n with
  | rest p =>
      rw [hs] at hlru
      cases p with
      | resident => rfl
      | _ => exact hlru.elim
  | held t' x =>
      exfalso
      rw [hs] at hlru hc
      cases x with
      | linked =>
          cases hr : g.role n with
          | rest p =>
              rw [hr] at hc
              cases p <;> exact hc.elim
          | held u y =>
              rw [hr] at hc hrole
              cases y with
              | guarded => exact hrole trivial
              | _ => exact hc.elim
      | evicting =>
          have hv := h.status.view_eq hs
          by_cases hne : t' = t
          · rw [hne, hholds] at hv
            cases hv
          · exact h.alone hin hne (PC.inside_of_holds hv (Or.inl rfl))
      | _ => exact hlru.elim

/-- So is a listed node that the purge has condemned, until it is out of its bucket. -/
theorem Inv.condemned_resident (h : Inv cfg s g) (hin : (s.pc t).inside = true)
    (hholds : (s.pc t).holds = none) (hm : (s.pc t).marks = some (n, .condemned))
    (hn : n ∈ g.lru) : g.status n = .rest .resident := by
  have hc := h.compatible n
  rw [h.role.held hm] at hc
  have hlru := (h.lru.mem n).1 hn
  cases hs : g.status n with
  | rest p =>
      rw [hs] at hlru
      cases p with
      | resident => rfl
      | _ => exact hlru.elim
  | held t' y =>
      exfalso
      rw [hs] at hc hlru
      cases y with
      | evicting =>
          have hv := h.status.view_eq hs
          by_cases hne : t' = t
          · rw [hne, hholds] at hv
            cases hv
          · exact h.alone hin hne (PC.inside_of_holds hv (Or.inl rfl))
      | evicted => exact hlru
      | _ => exact hc

/-- A resident node is not what a splice that awaits its repair has ended in, unless the thread
    itself repairs. -/
theorem Inv.resident_not_repairing (h : Inv cfg s g) (hin : (s.pc t).inside = true)
    (hrep : (s.pc t).repairing = none) (hs : g.status n = .rest .resident) (t' : T) (c : Ptr N) :
    (s.pc t').repairing ≠ some (c, .node n) := by
  intro hr
  obtain ⟨-, -, x, hx, hst⟩ := h.lru.repairing t' c _ hr
  obtain rfl := Ptr.node_injective hx
  rw [hs] at hst
  rcases hst with hst | ⟨-, hin'⟩
  · cases hst
  · by_cases hne : t' = t
    · rw [hne, hrep] at hr
      cases hr
    · exact h.alone hin hne hin'

/-- A resident node is in its bucket. -/
theorem Inv.resident_bucket (h : Inv cfg s g) (hs : g.status n = .rest .resident)
    (hb : b = cfg.keyToBucketNr (s.mem.key n)) : n ∈ g.bucket b :=
  (h.buckets.mem b n).2 ⟨by rw [hs]; trivial, hb.symm⟩

variable {back : Back K V} {next : Ptr N} {freed : ℕ}

/-- Where a consolidation goes after a step of `purgeOld`. -/
def purging (back : Back K V) : Option (PurgePC N) → PC N K V
  | some p => .consolidate back (.purge p)
  | none => .consolidate back .clearPurge

theorem purgeAt_detached (cfg : Config N K) (back : Back K V) (node : Ptr N) (freed : ℕ) :
    (purging back (purgeAt cfg node freed)).Detached := by
  unfold purgeAt
  split_ifs <;> exact ⟨rfl, rfl, rfl, rfl⟩

theorem purgeAt_inv {m : Mem N K V} {node : Ptr N} (hq : g.quiet)
    (hl : node = .lruHead ∨ InList g node) :
    (purging back (purgeAt cfg node freed)).inv cfg m g := by
  unfold purgeAt
  split_ifs with hend
  · exact hq
  · exact ⟨hq, hl.resolve_left fun hh => hend (Or.inl hh)⟩

/-- What the program counter of a purge says about the state. -/
theorem Inv.purge_inv (h : Inv cfg s g) {p : PurgePC N}
    (hpc : s.pc t = .consolidate back (.purge p)) :
    (s.pc t).inside = true ∧ g.quiet ∧ p.inv cfg s.mem g := by
  have hinv := h.pcs t
  rw [hpc] at hinv ⊢
  exact ⟨rfl, hinv⟩

variable [DecidableEq T]

/-! ## Out of the bucket -/

/-- Seeing the node unmarked under its bucket's lock. -/
theorem Inv.condemn (h : Inv cfg s g)
    (hpc : s.pc t = .consolidate back (.purge (.bucket n next freed (.recheck b))))
    (hnull : s.mem.markedRecent n = false) :
    Preserves cfg s t .read (.consolidate back (.purge (.bucket n next freed (.load b)))) .nothing
      g := by
  obtain ⟨hin, hq, hn, hprev, hl, hb⟩ := h.purge_inv hpc
  have hs := h.unmarked_resident hin (by rw [hpc]; rfl) hn hnull
  have hr := h.unmarked (t := t) (b := b) (by rw [hpc]; rfl) (h.resident_bucket hs hb)
    (by rw [hpc]; rfl) hnull
  refine ⟨{ g with role := Function.update g.role n (.held t .condemned) }, ?_, .nothing rfl rfl⟩
  refine h.apply (by rw [hpc]; exact ⟨rfl, rfl⟩) (h.status.keep (by rw [hpc]; rfl))
    (h.role.take (by rw [hpc]; rfl) hr rfl) (h.compatible_role ?_) h.buckets
    (h.recent.rerole ?_ ⟨by simp, by simp⟩ ?_)
    (h.lru.settled (by rw [hpc]; exact ⟨rfl, rfl, rfl, rfl⟩)) h.quiet ⟨hq, hn, hprev, hl, hb⟩
    (fun t' _ => { Rely.refl cfg (s.pc t') s.mem g with
      inside := fun _ => { InsideRely.refl s.mem g with } })
  · rw [hs]
    trivial
  · rw [hr]
    exact ⟨by simp, by simp⟩
  · rw [hr]
    exact Iff.rfl

/-- The end of a bucket in which the node was not found. -/
theorem Inv.spare (h : Inv cfg s g) {p : RemovePC N}
    (hpc : s.pc t = .consolidate back (.purge (.bucket n next freed p)))
    (hm : p.condemns = true) (hrem : p.removed = false) (hlock : p.lockedBucket = some b) :
    Preserves cfg s t .read (.consolidate back (.purge (.bucket n next freed (.unlock b false))))
      .nothing g := by
  obtain ⟨hin, hq, hn, hprev, hl, -⟩ := h.purge_inv hpc
  have hv : (s.pc t).marks = some (n, .condemned) := by
    rw [hpc]
    exact if_pos hm
  have hholds : (s.pc t).holds = none := by
    rw [hpc]
    exact if_neg (by rw [hrem]; simp)
  have hr := h.role.held hv
  refine ⟨{ g with role := Function.update g.role n (.rest .unmarked) }, ?_, .nothing rfl rfl⟩
  refine h.apply (by rw [hpc]; exact ⟨rfl, hlock.symm⟩) (h.status.keep hholds.symm)
    (h.role.drop hv rfl) (h.compatible_role ?_) h.buckets
    (h.recent.rerole ?_ ⟨by simp, by simp⟩ ?_)
    (h.lru.settled (by rw [hpc]; exact ⟨rfl, rfl, rfl, rfl⟩)) h.quiet ⟨hq, hn, hprev, hl, trivial⟩
    (fun t' _ => { Rely.refl cfg (s.pc t') s.mem g with
      inside := fun _ => { InsideRely.refl s.mem g with } })
  · rw [h.condemned_resident hin hholds hv hn]
    trivial
  · rw [hr]
    exact ⟨by simp, by simp⟩
  · rw [hr]
    exact Iff.rfl

/-- The store, to the bucket head or to the parent's link, that takes the node out. -/
theorem Inv.unbucket (h : Inv cfg s g) {p : RemovePC N} {act : Act N K V}
    {bucketNext : Fin N → Option (Fin N)} {buckets : ℕ → Option (Fin N)}
    (hpc : s.pc t = .consolidate back (.purge (.bucket n next freed p)))
    (hm : p.condemns = true) (hrem : p.removed = false) (hlock : p.lockedBucket = some b)
    (hfree : act.lockFree)
    (hact : act.onMem s.mem = { s.mem with bucketNext := bucketNext, buckets := buckets })
    (hlru : act.onLruLock t s.lruLock = s.lruLock)
    (hbuckets : BucketsInv cfg bucketNext buckets s.mem.key
      (Function.update g.status n (.held t .evicting))
      (Function.update g.bucket b ((g.bucket b).erase n)))
    (hother : ∀ b', b' ≠ b → buckets b' = s.mem.buckets b')
    (hforeign : ∀ x, x ∉ g.bucket b → bucketNext x = s.mem.bucketNext x) :
    Preserves cfg s t act (.consolidate back (.purge (.bucket n next freed (.clear b))))
      (.unbucket n) g := by
  obtain ⟨hin, hq, hn, hprev, hl, -⟩ := h.purge_inv hpc
  have hv : (s.pc t).marks = some (n, .condemned) := by
    rw [hpc]
    exact if_pos hm
  have hholds : (s.pc t).holds = none := by
    rw [hpc]
    exact if_neg (by rw [hrem]; simp)
  have hlocked : (s.pc t).lockedBucket cfg = some b := by rw [hpc]; exact hlock
  have hrep : (s.pc t).repairing = none := by rw [hpc]; rfl
  have hs := h.condemned_resident hin hholds hv hn
  have hr := h.role.held hv
  refine ⟨{ g with
    status := Function.update g.status n (.held t .evicting)
    bucket := Function.update g.bucket b ((g.bucket b).erase n) }, ?_,
    Effect.single (n := n) (u := .held t .evicting) rfl rfl rfl ?_ ?_ ?_ ?_⟩
  · refine h.apply ?_ (h.status.take hholds hs rfl) (h.role.keep hv.symm)
      (h.compatible_status ?_) ?_ ?_ ?_ (by rw [hlru]; exact h.quiet) ?_ (fun t' hne => ?_)
    · rw [hpc]
      refine ⟨hfree.insideStep _ _, ?_⟩
      rw [show (PC.consolidate back (.purge (.bucket n next freed p))).lockedBucket cfg = some b
        from hlock]
      exact hfree.bucketStep _ _
    · rw [hr]
      trivial
    · rw [hact]
      exact hbuckets
    · rw [hact]
      exact h.recent
    · rw [hact]
      refine (h.lru.restatus ?_ ?_ (h.resident_not_repairing hin hrep hs)).settled
        (by rw [hpc]; exact ⟨rfl, rfl, rfl, rfl⟩)
      · rw [hs]
        exact Iff.rfl
      · rw [hs]
        exact iff_of_false (by simp) (by simp)
    · rw [hact]
      exact ⟨hq, hn, hprev, hl, trivial⟩
    · rw [hact]
      -- other threads are in other buckets or hold nodes that are in none
      refine { Rely.refl cfg (s.pc t') s.mem g with
        bucket := fun b' hb' => ?_
        holds := fun x y hx => ⟨rfl, rfl, fun hy => ?_, fun _ => rfl, fun _ => rfl⟩
        inside := h.rely_inside hin hne }
      · have hbne := h.locks.bucket_ne hne hlocked hb'
        refine ⟨hother b' hbne, Function.update_of_ne hbne _ _, fun x hx => ⟨hforeign x ?_, rfl⟩⟩
        exact fun hxb => hbne ((h.bucket_eq hx).symm.trans (h.bucket_eq hxb))
      · refine hforeign x (h.buckets.not_mem ?_ b)
        rw [h.held hx, hy]
        exact id
  · rw [hs]
    exact Iff.rfl
  · rw [hs]
    exact Iff.rfl
  · rw [hs]
    exact iff_of_false (by simp) (by simp [Deed.free])
  · exact iff_of_false id (fun hb => hb.2 rfl)

/-- The node's own link is cleared. -/
theorem Inv.clearLink (h : Inv cfg s g)
    (hpc : s.pc t = .consolidate back (.purge (.bucket n next freed (.clear b)))) :
    Preserves cfg s t (.setBucketNext n none)
      (.consolidate back (.purge (.bucket n next freed (.unlock b true)))) .nothing g := by
  obtain ⟨hin, hq, hn, hprev, hl, -⟩ := h.purge_inv hpc
  have hs : g.status n = .held t .evicting := h.held (by rw [hpc]; rfl)
  have hb : ¬ (g.status n).inBucket := by rw [hs]; exact id
  refine ⟨g, ?_, .nothing rfl rfl⟩
  refine h.apply (by rw [hpc]; exact ⟨rfl, rfl⟩) (h.status.keep (by rw [hpc]; rfl))
    (h.role.keep (by rw [hpc]; rfl)) h.compatible (h.buckets.foreign hb _) h.recent
    (h.lru.settled (by rw [hpc]; exact ⟨rfl, rfl, rfl, rfl⟩)) h.quiet
    ⟨hq, hn, hprev, hl, trivial⟩
    (fun t' hne => { Rely.refl cfg (s.pc t') s.mem g with
      bucket := fun b' _ => ⟨rfl, rfl, fun x hx => ⟨?_, rfl⟩⟩
      holds := fun x y hv => ⟨rfl, rfl, fun _ => ?_, fun _ => rfl, fun _ => rfl⟩
      inside := h.rely_inside hin hne })
  · exact Function.update_of_ne (h.not_bucket hb hx) _ _
  · exact Function.update_of_ne (h.holds_ne hne hs hv) _ _

/-- The steps of `removeNodeFromBucket`. -/
theorem Inv.remove_step (h : Inv cfg s g) {fails : Bool} {p : RemovePC N} {act : Act N K V}
    {p' : Option (PurgePC N)} (hpc : s.pc t = .consolidate back (.purge (.bucket n next freed p)))
    (hnext : nextPurge cfg s fails (.bucket n next freed p) = some (act, p'))
    (hlocks : LockStep cfg s (s.pc t) act (purging back p')) :
    Preserves cfg s t act (purging back p') (Label.deed ⟨t, s.pc t, .go fails, act⟩) g := by
  obtain ⟨hin, hq, hn, hprev, hl, hp⟩ := h.purge_inv hpc
  rw [hpc] at hlocks ⊢
  obtain ⟨⟨a, q⟩, hq', heq⟩ := Option.map_eq_some_iff.1 hnext
  cases heq
  -- the end of the walk through the bucket
  have hwalk : ∀ {b : ℕ} {p : RemovePC N} {x : Option (Fin N)},
      s.pc t = .consolidate back (.purge (.bucket n next freed p)) → p.condemns = true →
      p.removed = false → p.lockedBucket = some b → b = cfg.keyToBucketNr (s.mem.key n) →
      (x = none ∨ ∃ y ∈ g.bucket b, x = some y) →
      Preserves cfg s t .read (.consolidate back (.purge (.bucket n next freed (walkTo b x))))
        .nothing g := by
    intro b p x hpc hm hrem hlock hb hx
    rcases hx with rfl | ⟨y, hy, rfl⟩
    · exact h.spare hpc hm hrem hlock
    · refine h.still hpc ⟨rfl, hlock.symm⟩ (.refl _) ?_ ?_ ⟨rfl, rfl, rfl, rfl⟩ h.quiet
        ⟨hq, hn, hprev, hl, hb, hy⟩
      · exact (if_neg (by rw [hrem]; simp)).symm
      · exact (if_pos hm).symm
  cases p with
  | hash =>
      cases hq'
      exact h.still hpc hlocks (.refl _) rfl rfl ⟨rfl, rfl, rfl, rfl⟩ h.quiet
        ⟨hq, hn, hprev, hl, rfl⟩
  | lock b =>
      simp only [nextRemove] at hq'
      split_ifs at hq'
      cases hq'
      exact h.still hpc hlocks (.refl _) rfl rfl ⟨rfl, rfl, rfl, rfl⟩ h.quiet
        ⟨hq, hn, hprev, hl, hp⟩
  | recheck b =>
      cases hq'
      -- only an unmarked node is condemned; from there on no find can mark it
      cases hm : s.mem.markedRecent n with
      | true =>
          rw [hm] at hlocks
          exact h.still hpc hlocks (.refl _) rfl rfl ⟨rfl, rfl, rfl, rfl⟩ h.quiet
            ⟨hq, hn, hprev, hl, trivial⟩
      | false => exact h.condemn hpc hm
  | load b =>
      cases hq'
      have hstart := (h.buckets.chain b).start_mem
      by_cases hbn : s.mem.buckets b = some n
      · rw [if_pos hbn] at hlocks ⊢
        refine h.still hpc hlocks (.refl _) rfl rfl ⟨rfl, rfl, rfl, rfl⟩ h.quiet
          ⟨hq, hn, hprev, hl, hp, ?_, hbn⟩
        rcases hstart with hx | ⟨y, hy, hx⟩
        · rw [hbn] at hx
          cases hx
        · rw [hbn] at hx
          cases hx
          exact hy
      · rw [if_neg hbn]
        exact hwalk hpc rfl rfl rfl hp hstart
  | headNext b =>
      cases hq'
      exact h.still hpc hlocks (.refl _) rfl rfl ⟨rfl, rfl, rfl, rfl⟩ h.quiet
        ⟨hq, hn, hprev, hl, hp.1, hp.2.1, hp.2.2, rfl⟩
  | storeHead b q =>
      cases hq'
      obtain ⟨hb, hmem, hhead, rfl⟩ := hp
      exact h.unbucket hpc rfl rfl rfl trivial rfl rfl (h.buckets.unlinkHead hmem id hhead)
        (fun b' hne => Function.update_of_ne hne _ _) (fun x _ => rfl)
  | walk b parent =>
      cases hq'
      have hnext' := (h.buckets.chain b).next_mem hp.2
      by_cases hbn : s.mem.bucketNext parent = some n
      · rw [if_pos hbn] at hlocks ⊢
        refine h.still hpc hlocks (.refl _) rfl rfl ⟨rfl, rfl, rfl, rfl⟩ h.quiet
          ⟨hq, hn, hprev, hl, hp.1, ?_, hp.2, hbn⟩
        rcases hnext' with hx | ⟨y, hy, hx⟩
        · rw [hbn] at hx
          cases hx
        · rw [hbn] at hx
          cases hx
          exact hy
      · rw [if_neg hbn]
        exact hwalk hpc rfl rfl rfl hp.1 hnext'
  | nodeNext b parent =>
      cases hq'
      exact h.still hpc hlocks (.refl _) rfl rfl ⟨rfl, rfl, rfl, rfl⟩ h.quiet
        ⟨hq, hn, hprev, hl, hp.1, hp.2.1, hp.2.2.1, hp.2.2.2, rfl⟩
  | storeParent b parent q =>
      cases hq'
      obtain ⟨hb, hmem, hpmem, hpn, rfl⟩ := hp
      exact h.unbucket hpc rfl rfl rfl trivial rfl rfl (h.buckets.unlinkBehind hmem id hpmem hpn)
        (fun _ _ => rfl) (fun x hx => Function.update_of_ne (by rintro rfl; exact hx hpmem) _ _)
  | clear b =>
      cases hq'
      exact h.clearLink hpc
  | unlock b removed =>
      cases hq'
      cases removed with
      | true =>
          -- a node that was removed had a node before it
          have hne : s.mem.lruPrev (.node n) ≠ .lruHead := by
            obtain ⟨x, -, rfl⟩ := hl
            rw [hprev]
            simp
          exact h.still hpc hlocks (.refl _) rfl rfl ⟨rfl, rfl, rfl, rfl⟩ h.quiet
            ⟨hq, fun _ => hprev, hl, hn, hne⟩
      | false =>
          have hd := purgeAt_detached cfg back next freed
          exact h.still hpc hlocks (.refl _) hd.holds hd.marks ⟨rfl, rfl, hd.repairing, hd.gap⟩
            h.quiet (purgeAt_inv hq (Or.inr hl))

/-! ## Out of the LRU list -/

/-- The first store of `removeNodeFromLru` takes the node out of the list. -/
theorem Inv.evict (h : Inv cfg s g) {prev behind : Ptr N}
    (hpc : s.pc t = .consolidate back (.purge (.unlink n next freed (.storeNext prev behind)))) :
    Preserves cfg s t (.setNext prev behind)
      (.consolidate back (.purge (.unlink n next freed (.storePrev prev behind)))) (.unlink n) g := by
  obtain ⟨hin, hq, hnext, hl, hn, hne, rfl, rfl⟩ := h.purge_inv hpc
  have hv : (s.pc t).holds = some (n, .evicting) := by rw [hpc]; rfl
  have hm : (s.pc t).marks = some (n, .condemned) := by rw [hpc]; rfl
  have hgap := h.no_gap hin (by rw [hpc]; rfl)
  have hs := h.held hv
  have hr := h.role.held hm
  have hrep : ∀ t' c, (s.pc t').repairing ≠ some (c, .node n) := by
    intro t' c hrep
    obtain ⟨-, -, x, hx, hst⟩ := h.lru.repairing t' c _ hrep
    obtain rfl := Ptr.node_injective hx
    rw [hs] at hst
    rcases hst with hst | ⟨hst, -⟩ <;> cases hst
  obtain ⟨x, hx, hpx, -, hxn⟩ := h.lru.prev_spec hn hne hgap
  obtain ⟨y, hy, rfl⟩ := hl
  -- the node that the walk goes on with is the one before
  have hyx : y = x := Ptr.node_injective ((hnext rfl).symm.trans hpx)
  refine ⟨{ g with
    status := Function.update g.status n (.held t .evicted)
    lru := g.lru.erase n }, ?_,
    Effect.single (n := n) (u := .held t .evicted) rfl rfl rfl ?_ ?_ ?_ ?_⟩
  · refine h.apply (by rw [hpc]; exact ⟨rfl, rfl⟩) (h.status.pass hv rfl) (h.role.keep hm.symm)
      (h.compatible_status ?_) (h.buckets.restatus ?_) h.recent
      (h.lru.unlink hn hne hgap id (by simp) (by rw [hs]; simp) hrep (by rw [hpc]; rfl) rfl rfl)
      h.quiet ⟨hq, by simp [UnlinkPC.unlinked],
        ⟨y, (List.mem_erase_of_ne (by rwa [hyx])).2 hy, rfl⟩, trivial⟩
      (fun t' hne' => { Rely.refl cfg (s.pc t') s.mem g with
        holds := fun z w hz => ⟨rfl, rfl, fun _ => rfl, fun hw => ?_, fun _ => rfl⟩
        inside := h.rely_inside hin hne' })
    · rw [hr]
      trivial
    · rw [hs]
      exact Iff.rfl
    · refine Function.update_of_ne ?_ _ _
      rw [hpx]
      have hzl : ¬ (g.status z).inLru := by
        rw [h.held hz]
        rcases hw with rfl | rfl <;> exact id
      simpa using (h.not_lru hzl hx).symm
  · exact iff_of_false id (fun hh => hh.2 rfl)
  · rw [hs]
    exact Iff.rfl
  · rw [hs]
    exact iff_of_false (by simp) (by simp [Deed.free])
  · rw [hs]
    exact Iff.rfl

/-- The second store makes the back link exact again. -/
theorem Inv.closeGap (h : Inv cfg s g) {prev behind : Ptr N}
    (hpc : s.pc t = .consolidate back (.purge (.unlink n next freed (.storePrev prev behind)))) :
    Preserves cfg s t (.setPrev behind prev)
      (.consolidate back (.purge (.onDelete n next freed))) .nothing g := by
  obtain ⟨hin, hq, -, hl, -⟩ := h.purge_inv hpc
  have hg : (s.pc t).gap = some (prev, n, behind) := by rw [hpc]; rfl
  have hgaps : ∀ t', t' ≠ t → (s.pc t').gap = none := by
    intro t' hne
    cases hg' : (s.pc t').gap with
    | none => rfl
    | some r => exact absurd (PC.gap_inside hg') (h.alone hin hne)
  obtain ⟨hnx, -, x, hx, rfl⟩ := h.lru.gap t _ _ _ hg
  refine ⟨g, ?_, .nothing rfl rfl⟩
  refine h.apply (by rw [hpc]; exact ⟨rfl, rfl⟩) (h.status.keep (by rw [hpc]; rfl))
    (h.role.keep (by rw [hpc]; rfl)) h.compatible h.buckets h.recent
    (h.lru.close hg hgaps (by rw [hpc]; rfl) rfl rfl) h.quiet ⟨hq, hl⟩
    (fun t' hne => { Rely.refl cfg (s.pc t') s.mem g with
      holds := fun z w hz => ⟨rfl, rfl, fun _ => rfl, fun _ => rfl, fun hw => ?_⟩
      inside := h.rely_inside hin hne })
  refine Function.update_of_ne ?_ _ _
  rintro rfl
  have hzl : ¬ (g.status z).inLru := by
    rw [h.held hz, hw]
    exact id
  rcases h.lru.linked.next_mem (isCell_node hx) with hn | ⟨y, hy, hn⟩
  · rw [hnx] at hn
    cases hn
  · rw [hnx] at hn
    exact h.not_lru hzl hy (Ptr.node_injective hn).symm

/-! ## Into the pool -/

theorem Inv.disposeStore (h : Inv cfg s g) {p : Ptr N}
    (hpc : s.pc t = .consolidate back (.purge (.dispose n next freed (.store p)))) :
    Preserves cfg s t (.setNext (.node n) p)
      (.consolidate back (.purge (.dispose n next freed (.cas p)))) .nothing g := by
  obtain ⟨hin, hq, hl, -⟩ := h.purge_inv hpc
  have hs : g.status n = .held t .evicted := h.held (by rw [hpc]; rfl)
  have hnl : ¬ (g.status n).inLru := by rw [hs]; exact id
  refine ⟨g, ?_, .nothing rfl rfl⟩
  refine h.apply (by rw [hpc]; exact ⟨rfl, rfl⟩) (h.status.keep (by rw [hpc]; rfl))
    (h.role.keep (by rw [hpc]; rfl)) h.compatible h.buckets h.recent
    ((h.lru.foreignNext (by simp) (fun x hx => ?_) _).settled
      (by rw [hpc]; exact ⟨rfl, rfl, rfl, rfl⟩)) h.quiet ⟨hq, hl, Function.update_self ..⟩
    (fun t' hne => { Rely.refl cfg (s.pc t') s.mem g with
      holds := fun x y hv => ⟨rfl, rfl, fun _ => rfl, fun _ => ?_, fun _ => rfl⟩
      inside := h.rely_inside hin hne })
  · simpa using (h.not_lru hnl hx).symm
  · exact Function.update_of_ne (by simpa using h.holds_ne hne hs hv) _ _

/-- The head compare-exchange of `disposeNode`. -/
theorem Inv.dispose (h : Inv cfg s g) {p : Ptr N}
    (hpc : s.pc t = .consolidate back (.purge (.dispose n next freed (.cas p)))) :
    Preserves cfg s t (.setEmptyHead (.node n)) (purging back (purgeAt cfg next (freed + 1)))
      (.dispose n) g := by
  obtain ⟨hin, hq, hl, -⟩ := h.purge_inv hpc
  have hv : (s.pc t).holds = some (n, .evicted) := by rw [hpc]; rfl
  have hm : (s.pc t).marks = some (n, .condemned) := by rw [hpc]; rfl
  have hs := h.held hv
  have hr := h.role.held hm
  have hd := purgeAt_detached cfg back next (freed + 1)
  have hlocks : LockStep cfg s (s.pc t) (.setEmptyHead (.node n))
      (purging back (purgeAt cfg next (freed + 1))) := by
    rw [hpc]
    unfold purgeAt
    split_ifs <;> exact ⟨rfl, rfl⟩
  refine ⟨{ g with
    status := Function.update g.status n (.rest .free)
    role := Function.update g.role n (.rest .unmarked) }, ?_,
    Effect.single (n := n) (u := .rest .free) rfl rfl rfl ?_ ?_ ?_ ?_⟩
  · refine h.apply hlocks (h.status.drop hv hd.holds) (h.role.drop hm hd.marks)
      (h.compatible_both trivial) (h.buckets.restatus ?_) (h.recent.rerole ?_ ⟨by simp, by simp⟩ ?_)
      ((h.lru.restatus ?_ ?_ (h.not_repairing ?_)).settled
        (by rw [hpc]; exact ⟨rfl, rfl, hd.repairing, hd.gap⟩)) h.quiet (purgeAt_inv hq (Or.inr hl))
      (fun t' hne => { Rely.refl cfg (s.pc t') s.mem g with inside := h.rely_inside hin hne })
    · rw [hs]
      exact Iff.rfl
    · rw [hr]
      exact ⟨by simp, by simp⟩
    · rw [hr]
      exact Iff.rfl
    · rw [hs]
      exact Iff.rfl
    · rw [hs]
      exact iff_of_false (by simp) (by simp)
    · rw [hs]
      exact id
  · rw [hs]
    exact Iff.rfl
  · rw [hs]
    exact Iff.rfl
  · exact iff_of_true rfl (Or.inl rfl)
  · rw [hs]
    exact Iff.rfl

/-! ## All steps -/

theorem Inv.purge_step (h : Inv cfg s g) {fails : Bool} {p : PurgePC N} {act : Act N K V}
    {p' : Option (PurgePC N)} (hpc : s.pc t = .consolidate back (.purge p))
    (hnext : nextPurge cfg s fails p = some (act, p'))
    (hlocks : LockStep cfg s (s.pc t) act (purging back p')) :
    Preserves cfg s t act (purging back p') (Label.deed ⟨t, s.pc t, .go fails, act⟩) g := by
  obtain ⟨hin, hq, hp⟩ := h.purge_inv hpc
  cases p with
  | bucket n next freed p => exact h.remove_step hpc hnext hlocks
  | tail =>
      rw [hpc] at hlocks ⊢
      cases hnext
      have hd := purgeAt_detached cfg back (s.mem.lruPrev .lruTail) 0
      exact h.still hpc hlocks (.refl _) hd.holds hd.marks ⟨rfl, rfl, hd.repairing, hd.gap⟩
        h.quiet (purgeAt_inv hq (h.prev_listed hin (by rw [hpc]; rfl) (Or.inl rfl)))
  | prev node freed =>
      rw [hpc] at hlocks ⊢
      cases node with
      | node n =>
          cases hnext
          obtain ⟨x, hx, hxn⟩ := hp
          obtain rfl := Ptr.node_injective hxn
          have hprev := h.prev_listed hin (by rw [hpc]; rfl) (Or.inr ⟨n, hx, rfl⟩)
          -- a purge ends at the front node
          by_cases hh : s.mem.lruPrev (.node n) = .lruHead
          · rw [if_pos hh] at hlocks ⊢
            exact h.still hpc hlocks (.refl _) rfl rfl ⟨rfl, rfl, rfl, rfl⟩ h.quiet hq
          · rw [if_neg hh] at hlocks ⊢
            exact h.still hpc hlocks (.refl _) rfl rfl ⟨rfl, rfl, rfl, rfl⟩ h.quiet
              ⟨hq, hx, rfl, hprev.resolve_left hh⟩
      | _ => cases hnext
  | test n next freed =>
      rw [hpc] at hlocks ⊢
      cases hnext
      obtain ⟨hn, hprev, hl⟩ := hp
      cases hm : s.mem.markedRecent n with
      | true =>
          rw [hm] at hlocks
          have hd := purgeAt_detached cfg back next freed
          exact h.still hpc hlocks (.refl _) hd.holds hd.marks ⟨rfl, rfl, hd.repairing, hd.gap⟩
            h.quiet (purgeAt_inv hq (Or.inr hl))
      | false =>
          rw [hm] at hlocks
          exact h.still hpc hlocks (.refl _) rfl rfl ⟨rfl, rfl, rfl, rfl⟩ h.quiet
            ⟨hq, hn, hprev, hl, trivial⟩
  | unlink n next freed p =>
      rw [hpc] at hlocks ⊢
      obtain ⟨⟨a, q⟩, hq', heq⟩ := Option.map_eq_some_iff.1 hnext
      cases heq
      obtain ⟨hprev, hl, hp⟩ := hp
      cases p with
      | loadPrev =>
          cases hq'
          exact h.still hpc hlocks (.refl _) rfl rfl ⟨rfl, rfl, rfl, rfl⟩ h.quiet
            ⟨hq, hprev, hl, hp.1, hp.2, rfl⟩
      | loadNext prev =>
          cases hq'
          exact h.still hpc hlocks (.refl _) rfl rfl ⟨rfl, rfl, rfl, rfl⟩ h.quiet
            ⟨hq, hprev, hl, hp.1, hp.2.1, hp.2.2, rfl⟩
      | storeNext prev behind =>
          simp only [nextUnlink] at hq'
          split_ifs at hq'
          cases hq'
          exact h.evict hpc
      | storePrev prev behind =>
          simp only [nextUnlink] at hq'
          split_ifs at hq'
          cases hq'
          exact h.closeGap hpc
  | onDelete n next freed =>
      rw [hpc] at hlocks ⊢
      cases hnext
      exact h.still hpc hlocks (.refl _) rfl rfl ⟨rfl, rfl, rfl, rfl⟩ h.quiet ⟨hq, hp⟩
  | count n next freed =>
      rw [hpc] at hlocks ⊢
      cases hnext
      exact h.still hpc hlocks ⟨rfl, rfl, rfl, rfl, rfl, rfl, rfl, rfl⟩ rfl rfl
        ⟨rfl, rfl, rfl, rfl⟩ h.quiet ⟨hq, hp, trivial⟩
  | dispose n next freed p =>
      rw [hpc] at hlocks ⊢
      obtain ⟨⟨a, q⟩, hq', heq⟩ := Option.map_eq_some_iff.1 hnext
      cases heq
      cases p with
      | load =>
          cases hq'
          exact h.still hpc hlocks (.refl _) rfl rfl ⟨rfl, rfl, rfl, rfl⟩ h.quiet
            ⟨hq, hp.1, trivial⟩
      | store p =>
          cases hq'
          exact h.disposeStore hpc
      | cas p =>
          simp only [nextDispose] at hq'
          split_ifs at hq' with hcas
          · cases hq'
            exact h.dispose hpc
          · cases hq'
            exact h.still hpc hlocks (.refl _) rfl rfl ⟨rfl, rfl, rfl, rfl⟩ h.quiet
              ⟨hq, hp.1, trivial⟩

end DeferredLru.Threads
