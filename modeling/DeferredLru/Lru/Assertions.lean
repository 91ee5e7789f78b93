import DeferredLru.Lru.Refinement

set_option autoImplicit false

/-! # Where `assert(coherent())` fails

`coherent` takes the slot numbered `current_element_count_` for a free one. That is right while the
cache fills up, and when it is full there is no such slot. But `evict` leaves all slots but one in
use, and asserts `coherent()` at its end: this holds only if the victim had the last slot. -/

namespace DeferredLru.LruCache

open Intrusive Recency

variable {N : ℕ} {K V : Type} {cfg : Config N K} {s s' : State N K V} {c : Cache K V} {fuel : ℕ}
  {requests : List (K × V)} {events : List (Event K V)}

/-- The call for the key `k`, if it has to evict, evicts from the last slot: if no resident element
    has the key and the cache is full, the LRU list starts there. -/
def EvictsLast (s : State N K V) (k : K) : Prop :=
  (∀ n, Visits s.listNext index s.lruListHead n → s.key n ≠ k) → N ≤ s.currentElementCount →
    s.lruListHead = N - 1

/-- A resident element has the key exactly if the textbook cache has an entry with it. -/
theorem Represents.lookup_eq_none [DecidableEq K] [DecidableEq V] (h : Represents cfg s c) (k : K) :
    (c.lookup k).1 = none ↔ ∀ n, Visits s.listNext index s.lruListHead n → s.key n ≠ k := by
  obtain ⟨a, stamp, hrep, hstores⟩ := h
  have hnewest := hstores.newest k
  have hvisits : ∀ n, Visits s.listNext index s.lruListHead n ↔ n ∈ a.lru := fun n =>
    hrep.lists.order.forward.visits_iff index_injective end_ne_index
  have hmem : ∀ n, n ∈ a.bucket (cfg.whichBucket k) ∧ s.key n = k ↔ n ∈ a.lru ∧ s.key n = k := by
    intro n
    rw [hrep.mem_bucket]
    refine ⟨fun hn => ⟨hn.1.1, hn.2⟩, fun hn => ⟨⟨hn.1, by rw [hn.2]⟩, hn.2⟩⟩
  simp only [hvisits]
  cases hk : (a.bucket (cfg.whichBucket k)).find? (fun n => s.key n = k) with
  | none =>
      rw [hk, Option.map_none] at hnewest
      rw [Cache.lookup, hnewest]
      refine iff_of_true rfl (fun n hn hkey => ?_)
      have hnone := List.find?_eq_none.1 hk n ((hmem n).2 ⟨hn, hkey⟩).1
      simp [hkey] at hnone
  | some n =>
      rw [hk, Option.map_some] at hnewest
      rw [Cache.lookup, hnewest]
      have hkey : s.key n = k := by simpa using List.find?_some hk
      refine iff_of_false (by simp) (fun hall => ?_)
      exact hall n ((hmem n).1 ⟨List.mem_of_find?_eq_some hk, hkey⟩).1 hkey

variable [DecidableEq K]

/-- **One call** passes its `coherent` assertions exactly if it evicts, if at all, from the last
    slot. -/
theorem consumeCachedOrCompute_coherent [DecidableEq V] {k : K} {x r : V} {hit : Bool}
    (h : Represents cfg s c) (hfuel : N < fuel) (hdebug : cfg.enableDebug = true)
    (hrun : consumeCachedOrCompute cfg fuel s k x = some (hit, r, s', events)) :
    AllCoherent events ↔ EvictsLast s k := by
  obtain ⟨s₁, events₁, hfind, hrep₁, -, hall₁, hmiss⟩ := find_represents h hfuel k
  have hnone := h.lookup_eq_none k
  rw [consumeCachedOrCompute, hfind] at hrun
  cases hlookup : (c.lookup k).1 with
  | some v =>
      rw [hlookup] at hrun hnone
      cases hrun
      refine iff_of_true hall₁ (fun hno => ?_)
      cases hnone.2 hno
  | none =>
      obtain rfl := hmiss hlookup
      obtain ⟨s₂, events₂, hinsert, -, -, hall₂⟩ := insert_represents hrep₁ hfuel k x
      rw [hlookup] at hrun
      simp only [Option.bind_eq_bind, Option.bind_some, hinsert] at hrun
      cases hrun
      rw [allCoherent_append, hall₂ hdebug, EvictsLast]
      exact ⟨fun hh _ => hh.2, fun hh => ⟨hall₁, hh (hnone.1 hlookup)⟩⟩

variable [Inhabited K] [Inhabited V]

/-- The memoized calls `requests`, made one after the other in a fresh cache, lead to `s`. -/
inductive Run (cfg : Config N K) (fuel : ℕ) : List (K × V) → State N K V → List (Event K V) → Prop
  | start {s : State N K V} {events : List (Event K V)} : allocateMemory cfg = some (s, events) →
      Run cfg fuel [] s events
  | call {requests : List (K × V)} {k : K} {x r : V} {hit : Bool} {s s' : State N K V}
      {events events' : List (Event K V)} : Run cfg fuel requests s events →
      consumeCachedOrCompute cfg fuel s k x = some (hit, r, s', events') →
      Run cfg fuel (requests ++ [(k, x)]) s' (events ++ events')

/-- A run in which every call that evicts does so from the last slot. -/
inductive LastSlotRun (cfg : Config N K) (fuel : ℕ) :
    List (K × V) → State N K V → List (Event K V) → Prop
  | start {s : State N K V} {events : List (Event K V)} : allocateMemory cfg = some (s, events) →
      LastSlotRun cfg fuel [] s events
  | call {requests : List (K × V)} {k : K} {x r : V} {hit : Bool} {s s' : State N K V}
      {events events' : List (Event K V)} : LastSlotRun cfg fuel requests s events → EvictsLast s k →
      consumeCachedOrCompute cfg fuel s k x = some (hit, r, s', events') →
      LastSlotRun cfg fuel (requests ++ [(k, x)]) s' (events ++ events')

theorem LastSlotRun.run (h : LastSlotRun cfg fuel requests s events) :
    Run cfg fuel requests s events := by
  induction h with
  | start halloc => exact .start halloc
  | call _ _ hcall ih => exact ih.call hcall

theorem Run.represents [DecidableEq V] (h : Run cfg fuel requests s events) (hfuel : N < fuel) :
    ∃ c, Represents cfg s c := by
  induction h with
  | start halloc =>
      rw [allocateMemory_eq] at halloc
      cases halloc
      exact ⟨_, initialState_represents cfg⟩
  | @call requests k x r hit s s' events events' _ hcall ih =>
      obtain ⟨c, hc⟩ := ih
      obtain ⟨s₁, events₁, hrun, hrep, -⟩ := consumeCachedOrCompute_represents hc hfuel k x
      rw [hrun] at hcall
      cases hcall
      exact ⟨_, hrep⟩

/-- **The debug check accepts every run that evicts from the last slot only.** -/
theorem LastSlotRun.allCoherent [DecidableEq V] (h : LastSlotRun cfg fuel requests s events)
    (hfuel : N < fuel) (hdebug : cfg.enableDebug = true) : AllCoherent events := by
  induction h with
  | start halloc =>
      rw [allocateMemory_eq] at halloc
      cases halloc
      exact (allCoherent_checked hdebug).2 rfl
  | call hrun hlast hcall ih =>
      obtain ⟨c, hc⟩ := hrun.run.represents hfuel
      have hstep := (consumeCachedOrCompute_coherent hc hfuel hdebug hcall).2 hlast
      exact allCoherent_append.2 ⟨ih, hstep⟩

-- the samples compute bucket numbers
attribute [local semireducible] toIndex

/-- With two elements: the hit leaves the element of slot 1 first, and it is evicted. -/
theorem LastSlotRun.allCoherent_twoElements : ∃ (s : State 2 ℕ ℕ) (events : List (Event ℕ ℕ)),
    LastSlotRun twoElements 3 [(1, 10), (2, 20), (1, 11), (3, 30)] s events ∧ AllCoherent events := by
  have h₁ : LastSlotRun twoElements 3 ([] ++ [(1, 10)]) _ _ :=
    (LastSlotRun.start (V := ℕ) rfl).call (fun _ hfull => absurd hfull (by decide))
      (show consumeCachedOrCompute twoElements.toArguments 3 _ 1 10 = some _ from rfl)
  have h₂ : LastSlotRun twoElements 3 ([] ++ [(1, 10)] ++ [(2, 20)]) _ _ :=
    h₁.call (fun _ hfull => absurd hfull (by decide))
      (show consumeCachedOrCompute twoElements.toArguments 3 _ 2 20 = some _ from rfl)
  have h₃ : LastSlotRun twoElements 3 ([] ++ [(1, 10)] ++ [(2, 20)] ++ [(1, 11)]) _ _ :=
    h₂.call (fun hno _ => absurd rfl (hno 0 (.here 0)))
      (show consumeCachedOrCompute twoElements.toArguments 3 _ 1 11 = some _ from rfl)
  have h₄ : LastSlotRun twoElements 3 ([] ++ [(1, 10)] ++ [(2, 20)] ++ [(1, 11)] ++ [(3, 30)]) _ _ :=
    h₃.call (fun _ _ => rfl)
      (show consumeCachedOrCompute twoElements.toArguments 3 _ 3 30 = some _ from rfl)
  exact ⟨_, _, h₄, h₄.allCoherent (by decide) rfl⟩

/-- Three insertions into two elements evict from slot 0. -/
theorem Run.not_allCoherent : ∃ (s : State 2 ℕ ℕ) (events : List (Event ℕ ℕ)),
    Run twoElements 3 [(1, 10), (2, 20), (3, 30)] s events ∧ ¬ AllCoherent events := by
  have h : Run twoElements 3 ([] ++ [(1, 10)] ++ [(2, 20)] ++ [(3, 30)]) _ _ :=
    (((Run.start (V := ℕ) rfl).call
      (show consumeCachedOrCompute twoElements.toArguments 3 _ 1 10 = some _ from rfl)).call
      (show consumeCachedOrCompute twoElements.toArguments 3 _ 2 20 = some _ from rfl)).call
      (show consumeCachedOrCompute twoElements.toArguments 3 _ 3 30 = some _ from rfl)
  exact ⟨_, _, h, fun hall => by cases hall false (by decide)⟩

end DeferredLru.LruCache
