import DeferredLru.Lib.Trace
import DeferredLru.Threads.PullSteps

set_option autoImplicit false

/-! # The invariant along a run

Every step of a thread keeps the invariant (`Inv.step`), if the pool hands out only free nodes. What
makes a node free is not visible in the memory; that it is in no list and in nobody's hands is, and
comes to the same (`Inv.unused_iff`). A run whose pops are all of such nodes is `Orderly`, and in each
of its states the invariant holds. -/

namespace DeferredLru.Threads

open Intrusive

variable {N : ℕ} {K V T : Type} {cfg : Config N K} {s : State N K V T} {g : Ghost N T} {t : T}
  {n : Fin N} {back : Back K V}

/-! ## Where a node is, as the memory shows it -/

/-- The node is on the chain from `empty_head_`. -/
def State.OnPool (s : State N K V T) (n : Fin N) : Prop :=
  Visits (fun x => s.mem.lruNext (.node x)) .node s.mem.emptyHead n

/-- The node is on the chain from `lru_head_`. -/
def State.OnLru (s : State N K V T) (n : Fin N) : Prop :=
  Visits (fun x => s.mem.lruNext (.node x)) .node (s.mem.lruNext .lruHead) n

/-- The node is on the chain of the bucket. -/
def State.OnBucket (s : State N K V T) (b : ℕ) (n : Fin N) : Prop :=
  Visits s.mem.bucketNext some (s.mem.buckets b) n

/-- The node is in no list and in nobody's hands. -/
structure State.Unused (s : State N K V T) (n : Fin N) : Prop where
  lru : ¬ s.OnLru n
  bucket : ∀ b, ¬ s.OnBucket b n
  held : ∀ t x, (s.pc t).holds ≠ some (n, x)

theorem Inv.onLru_iff (h : Inv cfg s g) (n : Fin N) : s.OnLru n ↔ n ∈ g.lru :=
  Chain.visits_iff Ptr.node_injective (by simp) h.lru.linked

theorem Inv.onBucket_iff (h : Inv cfg s g) (b : ℕ) (n : Fin N) :
    s.OnBucket b n ↔ n ∈ g.bucket b :=
  Chain.visits_iff (Option.some_injective _) (by simp) (h.buckets.chain b)

/-- **Free nodes** are those that are in no list and in nobody's hands. -/
theorem Inv.unused_iff (h : Inv cfg s g) (n : Fin N) :
    s.Unused n ↔ g.status n = .rest .free := by
  constructor
  · intro hu
    have hb : ¬ (g.status n).inBucket := fun hb =>
      hu.bucket _ ((h.onBucket_iff _ n).2 ((h.buckets.mem _ n).2 ⟨hb, rfl⟩))
    cases hs : g.status n with
    | rest p =>
        rw [hs] at hb
        cases p with
        | free => rfl
        | _ => exact absurd trivial hb
    | held t x => exact absurd (h.status.view_eq hs) (hu.held t x)
  · intro hs
    refine ⟨fun hl => ?_, fun b hb => ?_, fun t x => h.status.ne_of_rest hs t x⟩
    · have := (h.lru.mem n).1 ((h.onLru_iff n).1 hl)
      rw [hs] at this
      exact this
    · have := h.inBucket ((h.onBucket_iff b n).1 hb)
      rw [hs] at this
      exact this

/-! ## Traces -/

/-- A node taken from the pool is unused. -/
def PopsUnused (s : State N K V T) (l : Label N K V T) : Prop := ∀ n, l.deed = .pop n → s.Unused n

/-- A pull has taken the node out of the LRU list and not put it back since. -/
def Moved (n : Fin N) : List (Label N K V T) → Prop :=
  Since (fun _ l => l.deed = .move n) (fun l => l.deed = .splice)

/-- A head compare-exchange has put the node in the LRU list, and no consolidation has taken it out
    since. -/
def Listed (n : Fin N) : List (Label N K V T) → Prop :=
  Since (fun past l => l.deed = .link n ∨ (l.deed = .splice ∧ Moved n past))
    (fun l => l.deed = .unlink n ∨ l.deed = .move n)

theorem moved_concat {trace : List (Label N K V T)} {l : Label N K V T} :
    Moved n (trace ++ [l]) ↔ l.deed.moved n (Moved n trace) := by
  unfold Moved
  rw [since_concat]
  cases l.deed <;> simp [Deed.moved, eq_comm]

theorem listed_concat {trace : List (Label N K V T)} {l : Label N K V T} :
    Listed n (trace ++ [l]) ↔ l.deed.listed n (Listed n trace) (Moved n trace) := by
  unfold Listed
  rw [since_concat]
  cases l.deed <;> simp [Deed.listed, eq_comm, or_comm]

/-- The ghost agrees with the trace. -/
structure Traced (trace : List (Label N K V T)) (g : Ghost N T) : Prop where
  listed : ∀ n, (g.status n).inLru ↔ Listed n trace
  moved : ∀ n, (g.status n).moved ↔ Moved n trace

theorem Traced.initial : Traced ([] : List (Label N K V T)) (.initial N T) :=
  ⟨fun _ => iff_of_false id not_since_nil, fun _ => iff_of_false id not_since_nil⟩

theorem Traced.concat {trace : List (Label N K V T)} {l : Label N K V T} {g' : Ghost N T}
    (h : Traced trace g) (he : Effect l.deed g g') : Traced (trace ++ [l]) g' := by
  refine ⟨fun n => ?_, fun n => ?_⟩
  · rw [he.listed, listed_concat]
    cases l.deed <;> simp [Deed.listed, h.listed, h.moved]
  · rw [he.moved, moved_concat]
    cases l.deed <;> simp [Deed.moved, h.moved]

/-! ## All steps -/

theorem Back.pc_inv (cfg : Config N K) (m : Mem N K V) (g : Ghost N T) (back : Back K V) :
    (back.pc : PC N K V).inv cfg m g := by
  cases back with
  | find producer k r => exact afterFind_inv cfg m g producer k r
  | _ => trivial

theorem Call.pc_inv (cfg : Config N K) (m : Mem N K V) (g : Ghost N T) (c : Call K V) :
    (c.pc : PC N K V).inv cfg m g := by
  cases c <;> trivial

variable [DecidableEq T]

theorem Inv.consolidate_step {fails : Bool} {p : ConsolidatePC N} {act : Act N K V}
    {pc' : PC N K V} (h : Inv cfg s g) (hpc : s.pc t = .consolidate back p)
    (hnext : nextConsolidate cfg s fails back p = some (act, pc')) :
    Preserves cfg s t act pc' (Label.deed ⟨t, s.pc t, .go fails, act⟩) g := by
  have hlocks := nextConsolidate_locks hnext
  have hinv := h.pcs t
  rw [hpc] at hinv
  cases p with
  | purge p =>
      obtain ⟨⟨a, q⟩, hq, heq⟩ := Option.map_eq_some_iff.1 hnext
      cases heq
      exact h.purge_step hpc hq (by rw [hpc]; exact hlocks)
  | pull p =>
      obtain ⟨⟨a, q⟩, hq, heq⟩ := Option.map_eq_some_iff.1 hnext
      cases heq
      exact h.pull_step hpc hq (by rw [hpc]; exact hlocks)
  | tryLock =>
      rw [hpc]
      simp only [nextConsolidate] at hnext
      split_ifs at hnext with hfree
      · cases hnext
        exact h.still hpc hlocks (.refl _) rfl rfl ⟨rfl, rfl, rfl, rfl⟩ (fun hl => by cases hl)
          (h.quiet (Option.isNone_iff_eq_none.1 hfree))
      · cases hnext
        have hd := Back.pc_detached (N := N) back
        exact h.still hpc hlocks (.refl _) hd.holds hd.marks ⟨rfl, rfl, hd.repairing, hd.gap⟩
          h.quiet (Back.pc_inv cfg _ g back)
  | testPurge =>
      rw [hpc]
      cases hnext
      cases hr : s.mem.purgeRequest with
      | true =>
          rw [hr] at hlocks
          exact h.still hpc hlocks (.refl _) rfl rfl ⟨rfl, rfl, rfl, rfl⟩ h.quiet ⟨hinv, trivial⟩
      | false =>
          rw [hr] at hlocks
          exact h.still hpc hlocks (.refl _) rfl rfl ⟨rfl, rfl, rfl, rfl⟩ h.quiet hinv
  | testPull =>
      rw [hpc]
      cases hnext
      cases hr : s.mem.pullRequest with
      | true =>
          rw [hr] at hlocks
          exact h.still hpc hlocks (.refl _) rfl rfl ⟨rfl, rfl, rfl, rfl⟩ h.quiet hinv
      | false =>
          rw [hr] at hlocks
          exact h.still hpc hlocks (.refl _) rfl rfl ⟨rfl, rfl, rfl, rfl⟩ h.quiet hinv
  | unlock =>
      rw [hpc]
      cases hnext
      have hd := Back.pc_detached (N := N) back
      exact h.still hpc hlocks (.refl _) hd.holds hd.marks ⟨rfl, rfl, hd.repairing, hd.gap⟩
        (fun _ => hinv) (Back.pc_inv cfg _ g back)
  | _ =>
      rw [hpc]
      cases hnext
      exact h.still hpc hlocks ⟨rfl, rfl, rfl, rfl, rfl, rfl, rfl, rfl⟩ rfl rfl
        ⟨rfl, rfl, rfl, rfl⟩ h.quiet hinv

variable [DecidableEq K] {move : Move K V} {act : Act N K V} {pc' : PC N K V}

/-- **Every step keeps the invariant**, if a popped node was free. -/
theorem Inv.step (h : Inv cfg s g) (hnext : next cfg s (s.pc t) move = some (act, pc'))
    (hpop : ∀ n, Label.deed ⟨t, s.pc t, move, act⟩ = .pop n → g.status n = .rest .free) :
    Preserves cfg s t act pc' (Label.deed ⟨t, s.pc t, move, act⟩) g := by
  have hmoved := next_transition hnext
  generalize hpc : s.pc t = pc at hmoved hpop ⊢
  cases hmoved with
  | call hidle c =>
      have hd := Call.pc_detached (N := N) c
      have hold : pc.Detached := by
        rcases hidle with rfl | ⟨k, v, rfl⟩ <;> exact ⟨rfl, rfl, rfl, rfl⟩
      have hstep : Preserves cfg s t .read c.pc .nothing g := by
        rw [← hpc] at hold
        refine h.still rfl ?_ (.refl _) (hd.holds.trans hold.holds.symm)
          (hd.marks.trans hold.marks.symm) ⟨hold.repairing, hold.gap, hd.repairing, hd.gap⟩ h.quiet
          (Call.pc_inv cfg _ g c)
        rw [hpc]
        rcases hidle with rfl | ⟨k, v, rfl⟩ <;> cases c <;> exact ⟨rfl, rfl⟩
      rcases hidle with rfl | ⟨k, v, rfl⟩ <;> exact hstep
  | find hfind => exact hpc ▸ h.find_step hpc hfind
  | insert hinsert => exact hpc ▸ h.insert_step hpc hinsert (by rw [hpc]; exact hpop)
  | consolidate hconsolidate => exact hpc ▸ h.consolidate_step hpc hconsolidate

/-! ## Runs -/

theorem step_eq {s' : State N K V T} (h : step cfg s t move = some (act, s')) :
    ∃ pc', next cfg s (s.pc t) move = some (act, pc') ∧ s' = s.apply t act pc' := by
  obtain ⟨⟨a, pc'⟩, hnext, heq⟩ := Option.map_eq_some_iff.1 h
  cases heq
  exact ⟨pc', hnext, rfl⟩

variable [Inhabited K] [Inhabited V] {trace : List (Label N K V T)}

/-- **The invariant holds along every run** whose pops are of unused nodes. -/
theorem Run.inv (h : Run cfg PopsUnused s trace) : ∃ g, Inv cfg s g ∧ Traced trace g := by
  induction h with
  | start => exact ⟨_, .initial cfg, .initial⟩
  | step _ hstep hok ih =>
      obtain ⟨g, hinv, htraced⟩ := ih
      obtain ⟨pc', hnext, rfl⟩ := step_eq hstep
      obtain ⟨g', hinv', he⟩ := hinv.step hnext fun n hn => (hinv.unused_iff n).1 (hok n hn)
      exact ⟨g', hinv', htraced.concat he⟩

end DeferredLru.Threads
