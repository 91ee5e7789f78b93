import DeferredLru.Concurrent.Waits
import Mathlib.Data.Fintype.EquivFin

set_option autoImplicit false

/-! # Deadlocks of `ConcurrentLRU`

Along a list, threads lock one cell after another, and in one direction: whoever is blocked there
waits for somebody further on, and the last one for nobody (`Deadlock.not_cell`). What is left are
the waits for nodes outside the lists, and these are in `Waits`. So there is a deadlock only where
an eviction has closed a cycle of them (`Run.deadlock_free`). Two threads can do that
(`Run.not_deadlock_free`): one has taken a node out to move it to the end, and has read the last
node of the list; the other one evicts that node, which comes after the first one in its bucket. -/

namespace DeferredLru.ConcurrentLru

open Intrusive Waiting

variable {N : ℕ} {K V T : Type} {cfg : Config N K} {s s' : State N K V T} {m : Mem N K V}
  {a : Lists N} {trace : List (Label N K V T)} {act : Act N K V} {t u : T} {n x y : Fin N}
  {c p : Ptr N}

/-! ## Threads that cannot go on -/

/-- The node `y` is the one before `n` in the bucket of `n`. -/
def Precedes (cfg : Config N K) (m : Mem N K V) (y n : Fin N) : Prop :=
  ∃ l₁ l₂, Chain m.htNext some (m.ht (cfg.whichBucket (m.key n))) (l₁ ++ y :: n :: l₂) none

theorem Precedes.before (h : Precedes cfg m y n) : Before cfg m y n := by
  obtain ⟨l₁, l₂, hl⟩ := h
  exact ⟨l₁ ++ [y], l₂, by simpa using hl, by simp⟩

/-- A call of `htRemove` that has not locked the node before its own. -/
def HtRemovePC.trying : HtRemovePC N → Bool
  | .hash => true
  | .lock _ => true
  | .load _ => true
  | .walk _ _ _ => true
  | .tryLock _ _ => true
  | .unlock _ removed => !removed
  | _ => false

/-- The node that a thread is removing from its bucket. -/
def PC.removing : PC N K V → Option (Fin N)
  | .insert _ _ (.htRemove n p) => if p.trying then some n else none
  | _ => none

/-- The thread cannot go on while somebody has the lock of `p`. -/
inductive Awaits [DecidableEq K] (cfg : Config N K) (s : State N K V T) (t : T) (p : Ptr N) : Prop
  /-- Its next access takes the lock. -/
  | lock (pc : PC N K V) (h : next cfg s (s.pc t) .go = some (.lock p, pc))
  /-- It calls `htRemove` until it gets the lock. -/
  | htRemove (n y : Fin N) (h : (s.pc t).removing = some n) (hy : Precedes cfg s.mem y n)
      (hp : p = .node y)

/-- Every thread of the set waits for another one, or for itself. -/
structure Deadlock [DecidableEq K] (cfg : Config N K) (s : State N K V T) (d : Set T) : Prop where
  nonempty : d.Nonempty
  stuck : ∀ t ∈ d, ∃ p, Awaits cfg s t p ∧ ∃ u ∈ d, s.nodeLock p = some u

/-! ## Blocked threads -/

/-- The cell `c` is not in a list, or `p` is one of the next two cells. -/
def Onward (m : Mem N K V) (a : Lists N) (c p : Ptr N) : Prop :=
  (∃ x, c = .node x ∧ a.Off x) ∨ (∀ i : ListId, c ≠ i.tail) ∧
    (p = m.lruNext c ∨ ∃ x, m.lruNext c = .node x ∧ p = m.lruNext (.node x))

/-- A cell of one of the lists. -/
def Lists.HasCell (a : Lists N) (p : Ptr N) : Prop :=
  ∃ i : ListId, p ∈ cells Ptr.node i.head i.tail (a.list i)

theorem Lists.Off.not_hasCell (h : a.Off x) : ¬ a.HasCell (.node x) := by
  rintro ⟨i, hx⟩
  rcases mem_cells.1 hx with (hhead | ⟨y, hy, heq⟩) | htail
  · exact (ends i).head_ne x hhead.symm
  · obtain rfl := Ptr.node.inj heq
    cases i with
    | lru => exact h.1 hy
    | pool => exact h.2 hy
  · exact (ends i).tail_ne x htail.symm

theorem Shape.next_cell {i : ListId} (h : Shape cfg m a) (hc : IsInner Ptr.node i.head (a.list i) c) :
    a.HasCell (m.lruNext c) := by
  refine ⟨i, mem_cells.2 ?_⟩
  rcases (h.strung i).next_mem hc with htail | ⟨x, hx, hnext⟩
  · exact Or.inr htail
  · exact Or.inl (Or.inr ⟨x, hx, hnext⟩)

theorem node_ne_tail (x : Fin N) (i : ListId) : Ptr.node x ≠ i.tail := Ne.symm ((ends i).tail_ne x)

theorem head_ne_tail (i j : ListId) : (i.head : Ptr N) ≠ j.tail := by
  cases i <;> cases j <;> exact nofun

theorem Front.ne_tail (h : Front p) (i : ListId) : p ≠ i.tail := by
  rcases h with rfl | ⟨x, rfl⟩
  · exact head_ne_tail .lru i
  · exact node_ne_tail x i

theorem Inv.evict_blocked (h : Inv cfg s a trace) {i : ListId} {pc : EvictPC N}
    {r : EvictPC N ⊕ Option (Fin N)} (hs : pc.Standing cfg s.mem a trace i)
    (hnext : nextEvict s.mem i.head i.tail pc = some (.lock p, r)) (hc : c ∈ pc.holds i.head) :
    a.HasCell p ∧ Onward s.mem a c p := by
  cases pc with
  | lockPrev => simp [EvictPC.holds] at hc
  | load =>
      simp only [nextEvict] at hnext
      split at hnext
      · cases hnext
      · split at hnext <;> cases hnext
  | lockNode n =>
      cases hnext
      obtain rfl : c = i.head := by simpa [EvictPC.holds] using hc
      have hnext : s.mem.lruNext i.head = .node n := hs
      rw [← hnext]
      exact ⟨h.shape.next_cell (Or.inl rfl), Or.inr ⟨head_ne_tail i, Or.inl rfl⟩⟩
  | lockNext n next =>
      cases hnext
      obtain ⟨hfirst, hmem, -, rfl⟩ := hs
      refine ⟨h.shape.next_cell (Or.inr ⟨n, hmem, rfl⟩), Or.inr ?_⟩
      simp only [EvictPC.holds, List.mem_cons, List.not_mem_nil, or_false] at hc
      rcases hc with rfl | rfl
      · exact ⟨node_ne_tail n, Or.inl rfl⟩
      · exact ⟨head_ne_tail i, Or.inr ⟨n, hfirst, rfl⟩⟩
  | _ => cases hnext

theorem Inv.insertBefore_blocked (h : Inv cfg s a trace) {pc : InsertBeforePC N}
    {r : Option (InsertBeforePC N)} (hs : pc.Standing cfg s.mem a trace n)
    (hnext : nextInsertBefore s.mem .lruTail n pc = (.lock p, r)) (hc : c ∈ pc.holds .lruTail n) :
    a.HasCell p ∧ Onward s.mem a c p ∨ pc = .lockPrev p ∧ a.Off n ∧ Front p := by
  cases pc with
  | lockPrev q =>
      cases hnext
      exact Or.inr ⟨rfl, hs⟩
  | lockNode q =>
      cases hnext
      obtain ⟨hoff, hfront, hrest, hlast⟩ := hs
      have hinner := h.shape.inner_of_tail hfront hrest hlast
      refine Or.inl ⟨⟨.lru, mem_cells.2 (Or.inr rfl)⟩, ?_⟩
      simp only [InsertBeforePC.holds, List.mem_cons, List.not_mem_nil, or_false] at hc
      rcases hc with rfl | rfl
      · exact Or.inr ⟨hfront.ne_tail, Or.inl hlast.symm⟩
      · exact Or.inl ⟨n, rfl, hoff⟩
  | _ => cases hnext

theorem Inv.remove_blocked (h : Inv cfg s a trace) {pc : RemovePC N} {r : RemovePC N ⊕ Bool}
    (hs : pc.Standing cfg s.mem a trace n) (hnext : nextRemove s n pc = (.lock p, r))
    (htaken : s.nodeLock p ≠ none) (hc : c ∈ pc.holds n) : a.HasCell p ∧ Onward s.mem a c p := by
  have hstrung := h.shape.strung .lru
  cases pc with
  | tryLock q =>
      simp only [nextRemove] at hnext
      split at hnext
      case isTrue hfree =>
        cases hnext
        exact absurd (Option.isNone_iff_eq_none.1 hfree) htaken
      case isFalse => cases hnext
  | lockPrev q => simp [RemovePC.holds] at hc
  | lockSame q =>
      cases hnext
      obtain ⟨hfront, hrest, hlink⟩ := hs
      obtain rfl : c = q := by simpa [RemovePC.holds] using hc
      refine ⟨?_, Or.inr ⟨hfront.ne_tail, Or.inl hlink.symm⟩⟩
      rw [← hlink]
      rcases hfront with rfl | ⟨x, rfl⟩
      · exact h.shape.next_cell (i := .lru) (Or.inl rfl)
      · rcases hrest x rfl with hx | hx
        · exact h.shape.next_cell (i := .lru) (Or.inr ⟨x, hx.1, rfl⟩)
        · exact h.shape.next_cell (i := .pool) (Or.inr ⟨x, hx, rfl⟩)
  | lockChanged => simp [RemovePC.holds] at hc
  | lockNext q next =>
      cases hnext
      obtain ⟨hn, -, rfl, -, rfl⟩ := hs
      refine ⟨h.shape.next_cell (i := .lru) (Or.inr ⟨n, hn, rfl⟩), Or.inr ?_⟩
      simp only [RemovePC.holds, List.mem_cons, List.not_mem_nil, or_false] at hc
      rcases hc with rfl | rfl
      · exact ⟨node_ne_tail n, Or.inl rfl⟩
      · obtain ⟨hprev, hlink⟩ := hstrung.next_prev hn
        have hfront : Front (s.mem.lruPrev (.node n)) := by
          rcases hprev with hhead | ⟨x, -, hx⟩
          · exact Or.inl hhead
          · exact Or.inr ⟨x, hx⟩
        exact ⟨hfront.ne_tail, Or.inr ⟨n, hlink, rfl⟩⟩
  | _ => cases hnext

/-- `htRemove` takes the lock of a node only where it finds it free. -/
theorem nextHtRemove_lock {pc : HtRemovePC N} {r : HtRemovePC N ⊕ Bool}
    (hnext : nextHtRemove cfg s n pc = (.lock p, r)) : s.nodeLock p = none := by
  cases pc with
  | tryLock b y =>
      simp only [nextHtRemove] at hnext
      split at hnext
      case isTrue hfree =>
        cases hnext
        exact Option.isNone_iff_eq_none.1 hfree
      case isFalse => cases hnext
  | setNext b prev => cases prev <;> cases hnext
  | _ => cases hnext

theorem HtRemovePC.trying_holds {pc : HtRemovePC N} (h : pc.trying = true) :
    pc.holds n = [.node n] ∧ pc.linked = true := by
  cases pc with
  | setNext b prev => cases h
  | unlock b removed => exact ⟨rfl, h⟩
  | _ => first | exact ⟨rfl, rfl⟩ | cases h

theorem PC.removing_holds {pc : PC N K V} (h : pc.removing = some n) :
    pc.holds = [.node n] ∧ pc.evicted = some n := by
  unfold PC.removing at h
  split at h
  · split at h
    case isTrue htrying =>
      cases h
      obtain ⟨hholds, hlinked⟩ := HtRemovePC.trying_holds htrying
      exact ⟨hholds, if_pos hlinked⟩
    case isFalse => cases h
  · cases h

/-- The cells after a cell. -/
theorem Shape.next_split (h : Shape cfg m a) {i : ListId} {before after : List (Ptr N)}
    (hsplit : cells Ptr.node i.head i.tail (a.list i) = before ++ c :: after) (hc : c ≠ i.tail) :
    ∃ after', after = m.lruNext c :: after' := by
  cases after with
  | nil =>
      refine absurd ?_ hc
      have hlast : (cells Ptr.node i.head i.tail (a.list i)).getLast? = some i.tail := by
        rw [cells, ← List.cons_append, List.getLast?_concat]
      rw [hsplit, List.getLast?_concat] at hlast
      exact Option.some.inj hlast
  | cons d after =>
      have hstrung := h.strung i
      unfold Strung at hstrung
      rw [hsplit] at hstrung
      obtain ⟨-, hcd, -⟩ := List.isChain_append_cons_cons.1 hstrung
      exact ⟨after, by rw [hcd.1]⟩

section Blocked

variable [DecidableEq K]

/-- A thread that waits with a node of its own, which is in no list. -/
def WaitsOutside (a : Lists N) (pc : PC N K V) (p : Ptr N) : Prop :=
  ∃ x, pc.holds = [.node x] ∧ a.Off x ∧ Front p ∧ ∀ y, p = .node y → pc.stale = some (x, y)

omit [DecidableEq K] in
theorem waitsOutside_find {producer : Option V} {k : K} {r : V} (hoff : a.Off n) (hp : Front p) :
    WaitsOutside a (.find producer k (.insertLast n r (.lockPrev p))) p := by
  refine ⟨n, rfl, hoff, hp, ?_⟩
  rintro y rfl
  rfl

omit [DecidableEq K] in
theorem waitsOutside_insert {k : K} {v : V} (hoff : a.Off n) (hp : Front p) :
    WaitsOutside a (.insert k v (.insertLast n (.lockPrev p))) p := by
  refine ⟨n, rfl, hoff, hp, ?_⟩
  rintro y rfl
  rfl

/-- **A blocked thread** wants a cell further on in its list, or waits outside the lists. -/
theorem Inv.blocked (h : Inv cfg s a trace) {pc : PC N K V}
    (hnext : next cfg s (s.pc u) .go = some (.lock p, pc)) (htaken : s.nodeLock p ≠ none)
    (hc : c ∈ (s.pc u).holds) :
    a.HasCell p ∧ Onward s.mem a c p ∨ WaitsOutside a (s.pc u) p := by
  have hs := h.standing u
  have hmoved := next_transition hnext
  generalize s.pc u = pc₀ at hs hmoved hc ⊢
  cases hmoved with
  | find hfind =>
      cases hfind with
      | search hr => cases hc
      | found hr => cases hc
      | missing hr => cases hc
      | lock n => cases hc
      | remove hr => exact Or.inl (h.remove_blocked hs.1 hr htaken hc)
      | removed hr => exact Or.inl (h.remove_blocked hs.1 hr htaken hc)
      | gone hr => exact Or.inl (h.remove_blocked hs.1 hr htaken hc)
      | insertLast hr =>
          refine (h.insertBefore_blocked hs.1 hr hc).imp id ?_
          rintro ⟨rfl, hoff, hfront⟩
          exact waitsOutside_find hoff hfront
      | inserted hr =>
          refine (h.insertBefore_blocked hs.1 hr hc).imp id ?_
          rintro ⟨rfl, hoff, hfront⟩
          exact waitsOutside_find hoff hfront
  | insert hinsert =>
      cases hinsert with
      | getNodeFromPool hr => exact Or.inl (h.evict_blocked (i := .pool) hs hr hc)
      | pooled hr => exact Or.inl (h.evict_blocked (i := .pool) hs hr hc)
      | poolEmpty hr => exact Or.inl (h.evict_blocked (i := .pool) hs hr hc)
      | lruEvictHead hr => exact Or.inl (h.evict_blocked (i := .lru) hs hr hc)
      | evicted hr => exact Or.inl (h.evict_blocked (i := .lru) hs hr hc)
      | lruEmpty hr => exact Or.inl (h.evict_blocked (i := .lru) hs hr hc)
      -- `htRemove` does not block on a node
      | htRemove hr => exact absurd (nextHtRemove_lock hr) htaken
      | unlinked hr => exact absurd (nextHtRemove_lock hr) htaken
      | linked hr => exact absurd (nextHtRemove_lock hr) htaken
      | insertLast hr =>
          refine (h.insertBefore_blocked hs.1 hr hc).imp id ?_
          rintro ⟨rfl, hoff, hfront⟩
          exact waitsOutside_insert hoff hfront
      | inserted hr =>
          refine (h.insertBefore_blocked hs.1 hr hc).imp id ?_
          rintro ⟨rfl, hoff, hfront⟩
          exact waitsOutside_insert hoff hfront
      | @htInsert n q q' _ hr => cases q <;> cases hr
      | @hashed n q _ hr => cases q <;> cases hr

/-! ## No thread of a deadlock is in a list -/

variable {d : Set T}

/-- **Along the lists** nobody is stuck: a thread that has locked a cell waits for one further on. -/
theorem Deadlock.not_cell (hd : Deadlock cfg s d) (h : Inv cfg s a trace) {i : ListId}
    {before after : List (Ptr N)}
    (hsplit : cells Ptr.node i.head i.tail (a.list i) = before ++ c :: after) (hu : u ∈ d) :
    s.nodeLock c ≠ some u := by
  induction hlen : after.length using Nat.strong_induction_on generalizing before c after u with
  | _ k ih =>
    intro hlock
    have hcell : a.HasCell c := ⟨i, by rw [hsplit]; simp⟩
    have hc : c ∈ (s.pc u).holds := (h.nodes.lock_eq_some u c).1 hlock
    obtain ⟨p, hawaits, u', hu', hlock'⟩ := hd.stuck u hu
    cases hawaits with
    | lock pc hnext =>
        rcases h.blocked hnext (by rw [hlock']; simp) hc with ⟨-, honward⟩ | ⟨x, hholds, hoff, -⟩
        · rcases honward with ⟨x, rfl, hoff⟩ | ⟨htail, honward⟩
          · exact hoff.not_hasCell hcell
          · obtain ⟨after, rfl⟩ := h.shape.next_split hsplit (htail i)
            have hsplit₁ : cells Ptr.node i.head i.tail (a.list i) =
                (before ++ [c]) ++ s.mem.lruNext c :: after := by simpa using hsplit
            rw [List.length_cons] at hlen
            rcases honward with rfl | ⟨x, hx, rfl⟩
            · exact ih after.length (by omega) hsplit₁ hu' rfl hlock'
            · rw [hx] at hsplit₁
              obtain ⟨after, rfl⟩ := h.shape.next_split hsplit₁ (node_ne_tail x i)
              have hsplit₂ : cells Ptr.node i.head i.tail (a.list i) =
                  ((before ++ [c]) ++ [.node x]) ++ s.mem.lruNext (.node x) :: after := by
                simpa using hsplit₁
              rw [List.length_cons] at hlen
              exact ih after.length (by omega) hsplit₂ hu' rfl hlock'
        · rw [hholds, List.mem_singleton] at hc
          subst hc
          exact hoff.not_hasCell hcell
    | htRemove n y hn hy hp =>
        obtain ⟨hholds, hevicted⟩ := PC.removing_holds hn
        rw [hholds, List.mem_singleton] at hc
        subst hc
        exact ((h.standing u).evicted_off hevicted).not_hasCell hcell

theorem Deadlock.not_hasCell (hd : Deadlock cfg s d) (h : Inv cfg s a trace) (hc : a.HasCell c)
    (hu : u ∈ d) : s.nodeLock c ≠ some u := by
  obtain ⟨i, hc⟩ := hc
  obtain ⟨before, after, hsplit⟩ := List.append_of_mem hc
  exact hd.not_cell h hsplit hu

/-- What is left of a deadlock are waits for nodes outside the lists. -/
theorem Deadlock.waits (hd : Deadlock cfg s d) (h : Inv cfg s a trace) (hu : u ∈ d)
    (hc : c ∈ (s.pc u).holds) :
    ∃ x y, (s.pc u).holds = [.node x] ∧ Waits cfg s x y ∧ ∃ u' ∈ d, s.nodeLock (.node y) = some u' := by
  obtain ⟨p, hawaits, u', hu', hlock⟩ := hd.stuck u hu
  cases hawaits with
  | lock pc hnext =>
      rcases h.blocked hnext (by rw [hlock]; simp) hc with ⟨hcell, -⟩ | ⟨x, hholds, -, hfront, hstale⟩
      · exact absurd hlock (hd.not_hasCell h hcell hu')
      · rcases hfront with rfl | ⟨y, rfl⟩
        · have hhead : a.HasCell .lruHead := ⟨.lru, mem_cells.2 (Or.inl (Or.inl rfl))⟩
          exact absurd hlock (hd.not_hasCell h hhead hu')
        · exact ⟨x, y, hholds, ⟨u, Or.inl (hstale y rfl)⟩, u', hu', hlock⟩
  | htRemove n y hn hy hp =>
      obtain ⟨hholds, hevicted⟩ := PC.removing_holds hn
      exact ⟨n, y, hholds, ⟨u, Or.inr ⟨hevicted, hy.before⟩⟩, u', hu', hp ▸ hlock⟩

/-- **Without a cycle of waits there is no deadlock.** -/
theorem Inv.not_deadlock (h : Inv cfg s a trace) (hacyc : Acyclic (Waits cfg s)) :
    ¬ Deadlock cfg s d := by
  intro hd
  have hholds : ∀ u p, s.nodeLock p = some u → p ∈ (s.pc u).holds := fun u p =>
    (h.nodes.lock_eq_some u p).1
  obtain ⟨t, ht⟩ := hd.nonempty
  obtain ⟨p, -, u, hu, hlock⟩ := hd.stuck t ht
  obtain ⟨x, y, hx, -⟩ := hd.waits h hu (hholds u p hlock)
  obtain ⟨x, ⟨u, hu, hx⟩, hsink⟩ :=
    hacyc.exists_sink (s := {x | ∃ u ∈ d, (s.pc u).holds = [.node x]}) ⟨x, u, hu, hx⟩
  -- the node that it waits for is the only one that its holder has
  obtain ⟨x', y, hx', hwaits, u', hu', hlock'⟩ := hd.waits h hu (c := .node x) (by simp [hx])
  obtain rfl : x = x' := by simpa [hx] using hx'
  obtain ⟨y', -, hy', -⟩ := hd.waits h hu' (hholds u' _ hlock')
  have hy : Ptr.node y ∈ (s.pc u').holds := hholds u' _ hlock'
  rw [hy', List.mem_singleton] at hy
  obtain rfl := Ptr.node.inj hy
  exact hsink y ⟨u', hu', hy'⟩ hwaits

variable [DecidableEq T] [Inhabited K] [Inhabited V]

theorem Run.acyclic (hrun : Run cfg (EvictsFreely cfg) s trace) :
    ∃ a, Inv cfg s a trace ∧ Acyclic (Waits cfg s) := by
  induction hrun with
  | start =>
      refine ⟨_, Inv.initial cfg, fun x hx => ?_⟩
      obtain ⟨y, ⟨t, hstale | ⟨hev, -⟩⟩, -⟩ := Relation.TransGen.head'_iff.1 hx
      · cases hstale
      · cases hev
  | step _ hstep hfree ih =>
      obtain ⟨a, h, hacyc⟩ := ih
      exact ⟨_, h.step hstep, h.acyclic hacyc hstep hfree⟩

/-- **There is no deadlock** in runs whose evictions close no cycle of waits. -/
theorem Run.deadlock_free (hrun : Run cfg (EvictsFreely cfg) s trace) (d : Set T) :
    ¬ Deadlock cfg s d := by
  obtain ⟨a, h, hacyc⟩ := hrun.acyclic
  exact h.not_deadlock hacyc

end Blocked

/-! ## Two threads -/

/-- No other eviction is under way, and no thread waits for the evicted node. -/
def evictsUnawaited [Fintype T] (s : State N K V T) (l : Label N K V T) : Bool :=
  match l.pc with
  | .insert _ _ (.lruEvictHead (.splice n _)) =>
      ∀ t, (s.pc t).evicted = none ∧ (s.pc t).stale.map Prod.snd ≠ some n
  | _ => true

theorem evictsFreely_of_evictsUnawaited [Fintype T] {l : Label N K V T}
    (h : evictsUnawaited s l = true) : EvictsFreely cfg s l := by
  intro k v n next hl y _ hy
  rw [evictsUnawaited, hl] at h
  have hnobody : ∀ t, (s.pc t).evicted = none ∧ (s.pc t).stale.map Prod.snd ≠ some n :=
    of_decide_eq_true h
  -- the last edge of the path would be a wait for the node
  obtain ⟨x, -, t, hstale | ⟨hevicted, -⟩⟩ := Relation.TransGen.tail'_iff.1 hy
  · exact (hnobody t).2 (by rw [hstale]; rfl)
  · rw [(hnobody t).1] at hevicted
    cases hevicted

theorem stale_next [DecidableEq K] (cfg : Config N K) (s : State N K V T) {pc : PC N K V}
    (h : pc.stale = some (x, y)) : ∃ p, next cfg s pc .go = some (.lock (.node y), p) := by
  unfold PC.stale at h
  split at h
  · cases h
    exact ⟨_, rfl⟩
  · cases h
    exact ⟨_, rfl⟩
  · cases h

/-- Thread 0 has evicted the older node and waits for the newer one, which comes before it in the
    bucket: thread 1 has found that one and is about to put it back into the list. -/
theorem Run.deadlock_free_twoNodes :
    ∃ (s : State 2 ℕ ℕ (Fin 2)) (trace : List (Label 2 ℕ ℕ (Fin 2))),
      Run twoNodes (EvictsFreely twoNodes) s trace ∧ (s.pc 0).removing = some 0 ∧
        s.mem.ht 0 = some 1 ∧ s.mem.htNext 1 = some 0 ∧ s.nodeLock (.node 1) = some 1 ∧
        ¬ Deadlock twoNodes s Set.univ := by
  obtain ⟨s, trace, hrun, hgood⟩ := Run.of_play twoNodes (EvictsFreely twoNodes)
    evictsUnawaited (fun _ _ => evictsFreely_of_evictsUnawaited)
    (calls (T := Fin 2) 0 (.insert 10 100) 28 ++ calls 0 (.insert 20 200) 28 ++
      calls 1 (.find 20) 14 ++ calls 0 (.insert 30 300) 20)
    (fun s _ => decide <| (s.pc 0).removing = some 0 ∧ s.mem.ht 0 = some 1 ∧
      s.mem.htNext 1 = some 0 ∧ s.nodeLock (.node 1) = some 1) (by decide +kernel)
  obtain ⟨hremoving, hfirst, hsecond, hlock⟩ := of_decide_eq_true hgood
  exact ⟨s, trace, hrun, hremoving, hfirst, hsecond, hlock, hrun.deadlock_free Set.univ⟩

/-- **A deadlock**: thread 1 has taken the newer node out of the list and waits for the older one, which
    thread 0 has evicted and cannot remove from the bucket. -/
theorem Run.not_deadlock_free :
    ∃ (s : State 2 ℕ ℕ (Fin 2)) (trace : List (Label 2 ℕ ℕ (Fin 2))),
      Run twoNodes (fun _ _ => True) s trace ∧ Deadlock twoNodes s Set.univ := by
  obtain ⟨s, trace, hrun, hgood⟩ := Run.of_play twoNodes (fun _ _ => True) (fun _ _ => true)
    (fun _ _ _ => trivial)
    (calls (T := Fin 2) 0 (.insert 10 100) 28 ++ calls 0 (.insert 20 200) 28 ++
      calls 1 (.find 20) 16 ++ calls 0 (.insert 30 300) 20)
    (fun s _ => decide <| (s.pc 0).removing = some 0 ∧ (s.pc 1).stale = some (1, 0) ∧
      s.nodeLock (.node 0) = some 0 ∧ s.nodeLock (.node 1) = some 1 ∧ s.mem.ht 0 = some 1 ∧
      s.mem.htNext 1 = some 0 ∧ s.mem.htNext 0 = none) (by decide +kernel)
  obtain ⟨hremoving, hstale, hlock₀, hlock₁, hfirst, hsecond, hlast⟩ := of_decide_eq_true hgood
  refine ⟨s, trace, hrun, ⟨0, trivial⟩, fun t _ => ?_⟩
  match t with
  | 0 =>
      have hbucket : twoNodes.whichBucket (s.mem.key 0) = 0 := Nat.mod_one _
      have hprecedes : Precedes twoNodes s.mem 1 0 := by
        refine ⟨[], [], ?_⟩
        rw [hbucket]
        exact ⟨hfirst, hsecond, hlast⟩
      exact ⟨.node 1, .htRemove 0 1 hremoving hprecedes rfl, 1, trivial, hlock₁⟩
  | 1 =>
      obtain ⟨p, hp⟩ := stale_next twoNodes s hstale
      exact ⟨.node 0, .lock p hp, 0, trivial, hlock₀⟩

end DeferredLru.ConcurrentLru
