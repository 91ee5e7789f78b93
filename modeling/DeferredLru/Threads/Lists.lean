import DeferredLru.Threads.Pool

set_option autoImplicit false

/-! # The LRU list and the Recent list in every state

What the invariant says about the memory alone, in the runs whose pops are of unused nodes: the LRU
list holds the nodes that were put in and not taken out, and its back links are exact whenever no call
is running (`Run.lru_integrity`); a node's `recent_next` is null unless the node is on the Recent
list, on the slice of a pull, or being marked or inserted, and no node is evicted from one of the two
lists (`Run.recent_protocol`). -/

namespace DeferredLru.Threads

open Intrusive

variable {N : ℕ} {K V T : Type} {cfg : Config N K} {s : State N K V T} {g : Ghost N T} {t : T}
  {n : Fin N}

/-- No call is running. -/
def PC.atRest : PC N K V → Bool
  | .idle => true
  | .delivered _ _ => true
  | _ => false

theorem PC.atRest.detached {pc : PC N K V} (h : pc.atRest = true) : pc.Detached := by
  cases pc with
  | idle => exact ⟨rfl, rfl, rfl, rfl⟩
  | delivered k v => exact ⟨rfl, rfl, rfl, rfl⟩
  | _ => cases h

/-- With no call running every back link of the LRU list is exact. -/
theorem Inv.back_of_atRest (h : Inv cfg s g) (hrest : ∀ t, (s.pc t).atRest = true) {c : Ptr N}
    (hc : IsCell .node .lruHead g.lru c) : s.mem.lruPrev (s.mem.lruNext c) = c := by
  rcases h.lru.back c hc with hb | ⟨t, hr⟩ | ⟨t, x, hg⟩
  · exact hb
  · rw [(PC.atRest.detached (hrest t)).repairing] at hr
    cases hr
  · rw [(PC.atRest.detached (hrest t)).gap] at hg
    cases hg

/-! ## The slice -/

/-- Where the slice starts that the pull has not yet processed. -/
def PullPC.slice : PullPC N → Option (Ptr N)
  | .reset slice => some slice
  | .initHead slice => some slice
  | .prev current _ => some current
  | .skipLoad n _ => some (.node n)
  | .skipStore n _ _ => some (.node n)
  | .unlink n _ _ => some (.node n)
  | .appendNext n _ => some (.node n)
  | .appendPrev n _ => some (.node n)
  | .takenLoad n => some (.node n)
  | .takenStore n _ => some (.node n)
  | _ => none

/-- The same for a thread. -/
def PC.slice : PC N K V → Option (Ptr N)
  | .consolidate _ (.pull p) => p.slice
  | _ => none

/-- The node is on the Recent list. -/
def State.OnRecent (s : State N K V T) (n : Fin N) : Prop :=
  Visits s.mem.recentNext .node s.mem.recentHead n

/-- The node is on the part of a slice that the running pull has not yet processed. -/
def State.OnSlice (s : State N K V T) (n : Fin N) : Prop :=
  ∃ t p, (s.pc t).slice = some p ∧ Visits s.mem.recentNext .node p n

theorem Inv.onRecent_iff (h : Inv cfg s g) (n : Fin N) : s.OnRecent n ↔ n ∈ g.recent :=
  Chain.visits_iff Ptr.node_injective (by simp) h.recent.chain

/-- A thread that processes the slice stands at its start. -/
theorem Inv.slice_chain (h : Inv cfg s g) {p : Ptr N} (hp : (s.pc t).slice = some p) :
    Chain s.mem.recentNext .node p g.slice .dummy := by
  have hinv := h.pcs t
  generalize s.pc t = pc at hp hinv
  cases pc with
  | consolidate back p =>
      cases p with
      | pull p => cases p <;> cases hp <;> exact hinv.1.1
      | _ => cases hp
  | _ => cases hp

/-- A slice that is not empty is being processed. -/
theorem Inv.slice_processed (h : Inv cfg s g) (hne : g.slice ≠ []) :
    ∃ t p, (s.pc t).slice = some p := by
  cases hl : s.lruLock with
  | none => exact absurd (h.quiet hl).1 hne
  | some t =>
      have hin := (h.locks.lru t).2 hl
      have hinv := h.pcs t
      refine ⟨t, ?_⟩
      generalize s.pc t = pc at hin hinv
      cases pc with
      | consolidate back p =>
          cases p with
          | pull p =>
              cases p with
              | exchange => exact absurd hinv.1 hne
              | first last => exact absurd hinv.1 hne
              | add first last p => exact absurd hinv.1 hne
              | _ => exact ⟨_, rfl⟩
          | purge p => exact absurd hinv.1.1 hne
          | raisePull => cases hin
          | raisePurge => cases hin
          | tryLock => cases hin
          | _ => exact absurd hinv.1 hne
      | _ => cases hin

theorem Inv.onSlice_iff (h : Inv cfg s g) (n : Fin N) : s.OnSlice n ↔ n ∈ g.slice := by
  constructor
  · rintro ⟨t, p, hp, hv⟩
    exact (Chain.visits_iff Ptr.node_injective (by simp) (h.slice_chain hp)).1 hv
  · intro hn
    obtain ⟨t, p, hp⟩ := h.slice_processed (List.ne_nil_of_mem hn)
    exact ⟨t, p, hp, (Chain.visits_iff Ptr.node_injective (by simp) (h.slice_chain hp)).2 hn⟩

/-- What a non-null `recent_next` says. -/
theorem Inv.marked_iff (h : Inv cfg s g) (n : Fin N) :
    s.mem.recentNext n ≠ .null ↔ s.OnRecent n ∨ s.OnSlice n ∨
      (∃ t, (s.pc t).marks = some (n, .pushing)) ∨ ∃ t, (s.pc t).marks = some (n, .guarded) := by
  rw [h.recent.marked n, h.onRecent_iff, h.onSlice_iff, h.recent.recent, h.recent.slice]
  cases hr : g.role n with
  | rest p =>
      have hnone := fun t x => h.role.ne_of_rest hr t x
      cases p <;> simp [Role.marked, hnone]
  | held t x =>
      have hview : ∀ t' y, (s.pc t').marks = some (n, y) ↔ t' = t ∧ y = x := by
        intro t' y
        rw [h.role t' n y, hr]
        simp [eq_comm]
      cases x <;> simp [Role.marked, hview]

/-- A purge takes out of a bucket or puts in the pool only what it has condemned. -/
theorem Label.evicted_condemned {l : Label N K V T}
    (h : l.deed = .unbucket n ∨ l.deed = .dispose n) : l.pc.marks = some (n, .condemned) := by
  unfold Label.deed at h
  split at h <;> simp only [reduceCtorEq, or_self, or_false, false_or, Deed.unbucket.injEq,
    Deed.dispose.injEq] at h <;> subst h <;> rfl

/-! ## The two lists -/

variable [DecidableEq K] [DecidableEq T] [Inhabited K] [Inhabited V] {trace : List (Label N K V T)}

/-- **LRU list integrity.** If every popped node is unused, then in every state the links lead from
    the head sentinel to the tail through the nodes that were put in and not taken out since, once
    each, and with no call running back again. -/
theorem Run.lru_integrity (h : Run cfg PopsUnused s trace) :
    ∃ l : List (Fin N), Linked s.mem.lruNext .node .lruHead l .lruTail ∧ l.Nodup ∧
      (∀ n, n ∈ l ↔ Listed n trace) ∧
      ((∀ t, (s.pc t).atRest = true) →
        ∀ c, IsCell .node .lruHead l c → s.mem.lruPrev (s.mem.lruNext c) = c) := by
  obtain ⟨g, hinv, htraced⟩ := h.inv
  exact ⟨g.lru, hinv.lru.linked, hinv.lru.nodup,
    fun n => (hinv.lru.mem n).trans (htraced.listed n),
    fun hrest c hc => hinv.back_of_atRest hrest hc⟩

/-- Thread 1 inserts while thread 0 stands before its head compare-exchange, which then fails once;
    thread 0 finds the last node and pulls it to the front. -/
theorem Run.lru_integrity_pull : ∃ (s : State 2 ℕ ℕ (Fin 2)) (trace : List (Label 2 ℕ ℕ (Fin 2))),
    s.mem.lruNext .lruHead = .node 1 ∧
      ∃ l : List (Fin 2), Linked s.mem.lruNext .node .lruHead l .lruTail ∧ l.Nodup ∧
        (∀ n, n ∈ l ↔ Listed n trace) ∧
        ∀ c, IsCell .node .lruHead l c → s.mem.lruPrev (s.mem.lruNext c) = c := by
  obtain ⟨s, trace, hrun, hgood⟩ := Run.of_play twoNodes PopsPooled linkUnchanged
    popsPooled_of_linkUnchanged
    ((0, .call (.insert 10 100)) :: goes 0 16 ++ (1, .call (.insert 20 200)) :: goes 1 19 ++
      goes 0 5 ++ (0, .call (.find 20)) :: goes 0 35)
    (fun (s : State 2 ℕ ℕ (Fin 2)) _ => s.mem.lruNext .lruHead = .node 1 ∧ ∀ t, (s.pc t).atRest = true)
    (by decide +kernel)
  obtain ⟨hfirst, hrest⟩ := of_decide_eq_true hgood
  obtain ⟨-, -, -, -, hunused⟩ := hrun.pooled
  obtain ⟨l, hlinked, hdup, hmem, hback⟩ := hunused.lru_integrity
  exact ⟨s, trace, hfirst, l, hlinked, hdup, hmem, hback hrest⟩

/-- **The Recent list protocol.** If every popped node is unused, then in every state the Recent list
    ends at the dummy and repeats no node; a node's `recent_next` is not null exactly if the node is
    on it, on the rest of a slice, or being pushed or guarded; and no step takes a node that is on
    one of the two lists out of its bucket or puts it in the pool. -/
theorem Run.recent_protocol (h : Run cfg PopsUnused s trace) :
    (∃ l : List (Fin N), Chain s.mem.recentNext .node s.mem.recentHead l .dummy ∧ l.Nodup) ∧
    (∀ n, s.mem.recentNext n ≠ .null ↔ s.OnRecent n ∨ s.OnSlice n ∨
      (∃ t, (s.pc t).marks = some (n, .pushing)) ∨ ∃ t, (s.pc t).marks = some (n, .guarded)) ∧
    ∀ t move act s', Threads.step cfg s t move = some (act, s') → ∀ n,
      (Label.deed ⟨t, s.pc t, move, act⟩ = .unbucket n ∨
        Label.deed ⟨t, s.pc t, move, act⟩ = .dispose n) → ¬ s.OnRecent n ∧ ¬ s.OnSlice n := by
  obtain ⟨g, hinv, -⟩ := h.inv
  refine ⟨⟨g.recent, hinv.recent.chain, Chain.nodup Ptr.node_injective (by simp) hinv.recent.chain⟩,
    hinv.marked_iff, fun t move act s' _ n hdeed => ?_⟩
  have hr := hinv.role.held (Label.evicted_condemned hdeed)
  rw [hinv.onRecent_iff, hinv.onSlice_iff, hinv.recent.recent, hinv.recent.slice, hr]
  exact ⟨by simp, by simp⟩

/-- Thread 0 has popped a slice with node 0 on it, and thread 1 has pushed node 1 since. -/
theorem Run.recent_protocol_slice : ∃ s : State 2 ℕ ℕ (Fin 2),
    s.OnSlice 0 ∧ s.OnRecent 1 ∧ s.mem.recentNext 0 ≠ .null ∧
      ∃ l : List (Fin 2), Chain s.mem.recentNext .node s.mem.recentHead l .dummy ∧ l.Nodup := by
  obtain ⟨s, trace, hrun, hgood⟩ := Run.of_play twoNodes PopsPooled linkUnchanged
    popsPooled_of_linkUnchanged
    ((0, .call (.insert 10 100)) :: goes 0 19 ++ (0, .call (.insert 20 200)) :: goes 0 19 ++
      (0, .call (.find 10)) :: goes 0 18 ++ (1, .call (.find 20)) :: goes 1 8)
    (fun (s : State 2 ℕ ℕ (Fin 2)) _ =>
      (s.pc 0).slice = some (.node 0) ∧ s.mem.recentHead = .node 1) (by decide +kernel)
  obtain ⟨hslice, hhead⟩ := of_decide_eq_true hgood
  obtain ⟨-, -, -, -, hunused⟩ := hrun.pooled
  obtain ⟨hchain, hmarked, -⟩ := hunused.recent_protocol
  have hs : s.OnSlice 0 := ⟨0, _, hslice, .here 0⟩
  have hr : s.OnRecent 1 := by
    rw [State.OnRecent, hhead]
    exact .here 1
  exact ⟨s, hs, hr, (hmarked 0).2 (Or.inr (Or.inl hs)), hchain⟩

end DeferredLru.Threads
