import DeferredLru.HashFixed.Release
import Mathlib.Data.Fintype.Card

set_option autoImplicit false

/-! # The calls of `HashFixed` are wait-free

A `compare_exchange_weak` that does not fail spuriously fails because another element was published in
the bucket, and a table publishes at most `N` elements. A `find` walks along at most `N` elements, also
when others are published in the meantime. So a call is over after `2 * N + 7` steps of its thread and
two more for each spurious failure, whatever the other threads do (`Run.wait_free`).

`PC.Within` bounds the steps that a thread has ahead of it; its own steps lower the bound, and those of
the other threads keep it. -/

namespace DeferredLru.HashFixed

open Intrusive

variable {N : ℕ} {K V T : Type} {cfg : Config N K} {s s' : State N K V T} {m m' : Mem N K V}
  {trace trace' : List (Event N K V T)} {t u : T} {n : Fin N} {k : K} {v : V}
  {e : Option (Event N K V T)} {pc p : PC N K V} {move : Move K V} {c : ℕ}

/-! ## Elements that are not published yet -/

/-- The elements that are not published yet. -/
def unpublished (trace : List (Event N K V T)) : Finset (Fin N) :=
  Finset.univ \ ((publications trace).map Prod.fst).toFinset

theorem mem_unpublished : n ∈ unpublished trace ↔ ∀ k, ¬ Published trace n k := by
  rw [unpublished, Finset.mem_sdiff, List.mem_toFinset, List.mem_map]
  constructor
  · rintro ⟨-, hn⟩ k hk
    exact hn ⟨_, mem_publications.2 hk, rfl⟩
  · intro hn
    refine ⟨Finset.mem_univ n, ?_⟩
    rintro ⟨⟨x, k⟩, hx, rfl⟩
    exact hn k (mem_publications.1 hx)

theorem unpublished_append_subset : unpublished (trace ++ trace') ⊆ unpublished trace := by
  intro n hn
  rw [mem_unpublished] at hn ⊢
  exact fun k hk => hn k hk.mono

/-- How many further publications are possible. -/
def left (trace : List (Event N K V T)) : ℕ := (unpublished trace).card

theorem left_le : left trace ≤ N := by
  refine (Finset.card_le_univ _).trans ?_
  rw [Fintype.card_fin]

theorem left_append_le : left (trace ++ trace') ≤ left trace :=
  Finset.card_le_card unpublished_append_subset

/-- A publication takes an element that was not published. -/
theorem left_published (hn : ∀ k, ¬ Published trace n k) :
    left (trace ++ [.published t n k]) + 1 ≤ left trace := by
  refine Finset.card_lt_card ⟨unpublished_append_subset, fun hsub => ?_⟩
  have htaken := mem_unpublished.1 (hsub (mem_unpublished.2 hn))
  exact htaken k (published_concat.2 (Or.inr ⟨t, rfl⟩))

/-! ## The steps ahead -/

/-- A chain of published elements. -/
def Solid (m : Mem N K V) (trace : List (Event N K V T)) (i : ℤ) (l : List (Fin N)) : Prop :=
  Chain m.bucketNext index i l (-1) ∧ ∀ x ∈ l, ∃ k, Published trace x k

/-- The steps of an `insert` that has loaded the bucket head: two for each publication that is possible
    yet, and two if one has changed the head since. -/
def attempts (cfg : Config N K) (m : Mem N K V) (trace : List (Event N K V T)) (k : K) (next : ℤ) : ℕ :=
  2 * left trace + if m.bucket (cfg.whichBucket k) = next then 0 else 2

/-- The thread has at most `c` steps of its call ahead of it, without spurious failures. -/
def PC.Within (cfg : Config N K) (m : Mem N K V) (trace : List (Event N K V T)) (c : ℕ) :
    PC N K V → Prop
  | .idle => True
  | .insert _ _ .check => 2 * left trace + 7 ≤ c
  | .insert _ _ .reserve => 2 * left trace + 6 ≤ c
  | .insert _ _ .rollback => 1 ≤ c
  | .insert _ _ (.key _) => 2 * left trace + 5 ≤ c
  | .insert _ _ (.value _) => 2 * left trace + 4 ≤ c
  | .insert _ _ (.load _) => 2 * left trace + 3 ≤ c
  | .insert k _ (.link _ next) => attempts cfg m trace k next + 2 ≤ c
  | .insert k _ (.publish _ next) => attempts cfg m trace k next + 1 ≤ c
  | .find _ .load => 2 * N + 1 ≤ c
  | .find _ (.compare n) => ∃ l, Solid m trace (index n) l ∧ 2 * l.length ≤ c
  | .find _ (.next n) => ∃ l, Solid m trace (m.bucketNext n) l ∧ 2 * l.length + 1 ≤ c

/-! ## The steps of the other threads -/

/-- What a step leaves of the elements published before it. -/
theorem Effect.published [Fintype T] (he : Effect cfg s.mem m' t (s.pc t) e) (h : Inv cfg s trace)
    (hn : Published trace n k) : m'.bucketNext n = s.mem.bucketNext n := by
  have hstand := h.standing t
  cases he with
  | none e _ hnext _ _ => rw [hnext]
  | link k' v' x next hpc hm =>
      rw [hpc] at hstand
      rw [hm]
      refine Function.update_of_ne (fun heq : n = x => ?_) _ _
      exact hstand.1.2 k (heq ▸ hn)
  | publish k' v' x hpc hm => rw [hm]

theorem Solid.append {i : ℤ} {l : List (Fin N)} (hl : Solid m trace i l) :
    Solid m (trace ++ trace') i l :=
  ⟨hl.1, fun x hx => (hl.2 x hx).imp fun _ hk => hk.mono⟩

theorem Solid.step [Fintype T] {i : ℤ} {l : List (Fin N)} (hl : Solid s.mem trace i l)
    (he : Effect cfg s.mem m' t (s.pc t) e) (h : Inv cfg s trace) :
    Solid m' (trace ++ e.toList) i l := by
  refine ⟨hl.1.congr fun x hx => ?_, fun x hx => ?_⟩
  · obtain ⟨k, hk⟩ := hl.2 x hx
    exact he.published h hk
  · obtain ⟨k, hk⟩ := hl.2 x hx
    exact ⟨k, hk.mono⟩

/-- A publication may change the bucket head, but leaves fewer of them. -/
theorem Effect.attempts [Fintype T] (he : Effect cfg s.mem m' t (s.pc t) e) (h : Inv cfg s trace)
    (next : ℤ) : attempts cfg m' (trace ++ e.toList) k next ≤ attempts cfg s.mem trace k next := by
  have hstand := h.standing t
  unfold HashFixed.attempts
  cases he with
  | none e hbucket _ _ _ =>
      have hle : left (trace ++ e.toList) ≤ left trace := left_append_le
      rw [hbucket]
      omega
  | link k' v' x next' hpc hm =>
      rw [Option.toList_none, List.append_nil, hm]
  | publish k' v' x hpc hm =>
      rw [hpc] at hstand
      have hlt : left (trace ++ [.published t x k']) + 1 ≤ left trace :=
        left_published hstand.1.2
      rw [Option.toList_some]
      split <;> split <;> omega

/-- **The steps of other threads** keep the bound. -/
theorem PC.Within.step [Fintype T] (hw : pc.Within cfg s.mem trace c)
    (hstand : Standing cfg s.mem trace u pc) (he : Effect cfg s.mem m' t (s.pc t) e)
    (h : Inv cfg s trace) : pc.Within cfg m' (trace ++ e.toList) c := by
  have hle : left (trace ++ e.toList) ≤ left trace := left_append_le
  cases pc with
  | idle => trivial
  | insert k v q =>
      cases q with
      | rollback => exact hw
      | link n next =>
          have hattempts := he.attempts (k := k) h next
          unfold PC.Within at hw ⊢
          omega
      | publish n next =>
          have hattempts := he.attempts (k := k) h next
          unfold PC.Within at hw ⊢
          omega
      | _ =>
          unfold PC.Within at hw ⊢
          omega
  | find k q =>
      cases q with
      | load => exact hw
      | compare n =>
          obtain ⟨l, hl, hc⟩ := hw
          exact ⟨l, hl.step he h, hc⟩
      | next n =>
          obtain ⟨l, hl, hc⟩ := hw
          obtain ⟨k', hk'⟩ := hstand.1.published
          rw [PC.Within, he.published h hk']
          exact ⟨l, hl.step he h, hc⟩

/-! ## The steps of the call -/

/-- The loop of `find`, on the address of a chain. -/
theorem searchAt_within {i : ℤ} {l : List (Fin N)} (hl : Solid m trace i l)
    (hr : searchAt t k i = some (p, e)) (hc : 2 * l.length ≤ c) : p.Within cfg m trace c := by
  unfold searchAt at hr
  split at hr
  case isTrue =>
    cases hr
    trivial
  case isFalse hend =>
    obtain ⟨n, hn, heq⟩ := Option.map_eq_some_iff.1 hr
    cases heq
    cases l with
    | nil => exact absurd hl.1 hend
    | cons x l =>
        obtain rfl := hl.1.1
        rw [slot_index] at hn
        cases hn
        exact ⟨n :: l, hl, hc⟩

/-- A thread that finds the head it expects, or fails, tries again with the head it has found. -/
theorem attempts_current : attempts cfg m trace k (m.bucket (cfg.whichBucket k)) =
    2 * left trace := by
  rw [attempts, if_pos rfl, Nat.add_zero]

theorem nextFind_within [Fintype T] [DecidableEq K] (h : Inv cfg s trace) {q : FindPC N}
    (hw : (PC.find k q : PC N K V).Within cfg s.mem trace c)
    (hr : nextFind cfg s.mem t k q = some (p, e)) :
    ∃ c', p.Within cfg s.mem (trace ++ e.toList) c' ∧ c' + 1 ≤ c := by
  cases q with
  | load =>
      rw [nextFind_load] at hr
      obtain ⟨current, hcurrent, hr⟩ := Option.bind_eq_some_iff.1 hr
      obtain ⟨-, rfl⟩ := Mem.bucketAt_eq_some.1 hcurrent
      obtain ⟨l, hl, hmem⟩ := h.chains (cfg.whichBucket k)
      have hsolid : Solid s.mem trace (s.mem.bucket (cfg.whichBucket k)) l :=
        ⟨hl, fun x hx => ((hmem x).1 hx).imp fun _ hk => hk.1⟩
      have hlength : l.length ≤ N := by
        simpa using (hl.nodup index_injective fun x _ => end_ne_index x).length_le_card
      refine ⟨2 * l.length, searchAt_within hsolid.append hr le_rfl, ?_⟩
      unfold PC.Within at hw
      omega
  | compare n =>
      obtain ⟨l, hl, hc⟩ := hw
      cases l with
      | nil => exact absurd hl.1 (index_ne_end n)
      | cons x l =>
          obtain rfl := index_injective hl.1.1
          rw [List.length_cons] at hc
          simp only [nextFind, Option.some.injEq] at hr
          split at hr
          case isTrue =>
            cases hr
            exact ⟨0, trivial, by omega⟩
          case isFalse =>
            cases hr
            have hrest : Solid s.mem trace (s.mem.bucketNext n) l :=
              ⟨hl.1.2, fun x hx => hl.2 x (by simp [hx])⟩
            exact ⟨2 * l.length + 1, ⟨l, hrest.append, le_rfl⟩, by omega⟩
  | next n =>
      obtain ⟨l, hl, hc⟩ := hw
      exact ⟨2 * l.length, searchAt_within hl.append hr le_rfl, hc⟩

/-- **A step of the call** lowers the bound, and a spurious failure raises it by one. -/
theorem next_within [Fintype T] [DecidableEq K] (h : Inv cfg s trace) {fails : Bool}
    (hw : pc.Within cfg s.mem trace c)
    (hr : next cfg s.mem t pc (.go fails) = some (m', p, e)) :
    ∃ c', p.Within cfg m' (trace ++ e.toList) c' ∧ c' + 1 ≤ c + if fails then 2 else 0 := by
  have hle : left (trace ++ e.toList) ≤ left trace := left_append_le
  cases pc with
  | idle => cases hr
  | insert k v q =>
      simp only [next] at hr
      cases q with
      | check =>
          unfold PC.Within at hw
          simp only [nextInsert, Option.some.injEq] at hr
          split at hr
          case isTrue =>
            cases hr
            exact ⟨0, trivial, by omega⟩
          case isFalse =>
            cases hr
            exact ⟨_, le_rfl, by omega⟩
      | reserve =>
          unfold PC.Within at hw
          simp only [nextInsert] at hr
          split at hr
          · cases hr
            exact ⟨1, le_rfl, by omega⟩
          · obtain ⟨n, -, heq⟩ := Option.map_eq_some_iff.1 hr
            cases heq
            exact ⟨_, le_rfl, by omega⟩
      | rollback =>
          unfold PC.Within at hw
          cases hr
          exact ⟨0, trivial, by omega⟩
      | load n =>
          unfold PC.Within at hw
          rw [nextInsert_load] at hr
          obtain ⟨current, hcurrent, heq⟩ := Option.map_eq_some_iff.1 hr
          cases heq
          obtain ⟨-, rfl⟩ := Mem.bucketAt_eq_some.1 hcurrent
          refine ⟨_, le_rfl, ?_⟩
          rw [attempts_current]
          omega
      | publish n next =>
          replace hw : attempts cfg s.mem trace k next + 1 ≤ c := hw
          rw [nextInsert_publish] at hr
          obtain ⟨current, hcurrent, heq⟩ := Option.map_eq_some_iff.1 hr
          obtain ⟨-, rfl⟩ := Mem.bucketAt_eq_some.1 hcurrent
          split at heq
          case isTrue =>
            cases heq
            exact ⟨0, trivial, by omega⟩
          case isFalse hfailed =>
            cases heq
            refine ⟨_, le_rfl, ?_⟩
            rw [attempts_current, Option.toList_none, List.append_nil]
            unfold attempts at hw
            -- the head was another one, or the failure was spurious
            cases fails with
            | false =>
                rw [if_neg fun hsame => hfailed ⟨hsame, rfl⟩] at hw
                simp only [Bool.false_eq_true, if_false]
                omega
            | true =>
                simp only [if_true]
                omega
      | link n next =>
          replace hw : attempts cfg s.mem trace k next + 2 ≤ c := hw
          cases hr
          refine ⟨attempts cfg s.mem trace k next + 1, ?_, by omega⟩
          rw [Option.toList_none, List.append_nil]
          exact le_rfl
      | _ =>
          unfold PC.Within at hw
          cases hr
          exact ⟨_, le_rfl, by omega⟩
  | find k q =>
      obtain ⟨⟨p', e'⟩, hfind, heq⟩ := Option.map_eq_some_iff.1 hr
      cases heq
      obtain ⟨c', hw', hc'⟩ := nextFind_within h hw hfind
      exact ⟨c', hw', by omega⟩

/-- A walk along a chain of a bucket is bounded by the number of elements. -/
theorem Ahead.solid (h : Ahead cfg m trace t k n) :
    ∃ l, Solid m trace (index n) l ∧ l.length ≤ N := by
  obtain ⟨l, hl, hpub, -⟩ := h
  refine ⟨l, ⟨hl, fun x hx => (hpub x hx).imp fun _ hk => hk.1⟩, ?_⟩
  simpa using (hl.nodup index_injective fun x _ => end_ne_index x).length_le_card

/-- Every thread is within the bound of a whole call. -/
theorem Inv.within [Fintype T] (h : Inv cfg s trace) (t : T) :
    (s.pc t).Within cfg s.mem trace (2 * N + 7) := by
  have hstand := h.standing t
  have hle : left trace ≤ N := left_le
  have hattempts : ∀ k next, attempts cfg s.mem trace k next ≤ 2 * N + 2 := by
    intro k next
    unfold attempts
    split <;> omega
  cases hpc : s.pc t with
  | idle => trivial
  | insert k v q =>
      cases q with
      | link n next =>
          have := hattempts k next
          unfold PC.Within
          omega
      | publish n next =>
          have := hattempts k next
          unfold PC.Within
          omega
      | _ =>
          unfold PC.Within
          omega
  | find k q =>
      rw [hpc] at hstand
      cases q with
      | load =>
          unfold PC.Within
          omega
      | compare n =>
          obtain ⟨l, hl, hlength⟩ := Ahead.solid hstand
          exact ⟨l, hl, by omega⟩
      | next n =>
          obtain ⟨l, hl, hlength⟩ := Ahead.solid hstand.1
          cases l with
          | nil => exact absurd hl.1 (index_ne_end n)
          | cons x l =>
              obtain rfl := index_injective hl.1.1
              rw [List.length_cons] at hlength
              exact ⟨l, ⟨hl.1.2, fun y hy => hl.2 y (by simp [hy])⟩, by omega⟩

/-! ## Runs -/

variable [DecidableEq K] [DecidableEq T]

/-- What may happen from a state on while a thread makes `j` steps of its call, in `f` of which a
    `compare_exchange_weak` may fail spuriously, and the other threads make any steps. -/
inductive Continues (cfg : Config N K) (t : T) (s : State N K V T) (trace : List (Event N K V T)) :
    ℕ → ℕ → State N K V T → List (Event N K V T) → Prop
  | start : Continues cfg t s trace 0 0 s trace
  | other {j f : ℕ} {s₁ s₂ : State N K V T} {trace₁ : List (Event N K V T)} {u : T}
      {move : Move K V} {e : Option (Event N K V T)} : Continues cfg t s trace j f s₁ trace₁ →
      u ≠ t → step cfg s₁ u move = some (s₂, e) → Continues cfg t s trace j f s₂ (trace₁ ++ e.toList)
  | own {j f : ℕ} {s₁ s₂ : State N K V T} {trace₁ : List (Event N K V T)}
      {fails : Bool} {e : Option (Event N K V T)} : Continues cfg t s trace j f s₁ trace₁ →
      step cfg s₁ t (.go fails) = some (s₂, e) →
      Continues cfg t s trace (j + 1) (if fails then f + 1 else f) s₂ (trace₁ ++ e.toList)

variable [Inhabited K] [Inhabited V] {j f : ℕ}

theorem Continues.run (hc : Continues cfg t s trace j f s' trace') (h : Run cfg s trace) :
    Run cfg s' trace' := by
  induction hc with
  | start => exact h
  | other _ _ hstep ih => exact ih.step hstep
  | own _ hstep ih => exact ih.step hstep

theorem Continues.within [Fintype T] (hc : Continues cfg t s trace j f s' trace')
    (h : Run cfg s trace) (hthreads : limit N + Fintype.card T ≤ maxRacing N) :
    ∃ c, (s'.pc t).Within cfg s'.mem trace' c ∧ c + j ≤ 2 * N + 7 + 2 * f := by
  induction hc with
  | start => exact ⟨2 * N + 7, (h.inv hthreads).within t, by omega⟩
  | @other j f s₁ s₂ trace₁ u move e hc hut hstep ih =>
      obtain ⟨c, hw, hle⟩ := ih
      have hinv := (hc.run h).inv hthreads
      obtain ⟨⟨m', p, e'⟩, hnext, heq⟩ := Option.map_eq_some_iff.1 hstep
      cases heq
      refine ⟨c, ?_, hle⟩
      show (Function.update s₁.pc u p t).Within cfg m' _ c
      rw [Function.update_of_ne (Ne.symm hut)]
      exact hw.step (hinv.standing t) (next_effect hnext) hinv
  | @own j f s₁ s₂ trace₁ fails e hc hstep ih =>
      obtain ⟨c, hw, hle⟩ := ih
      have hinv := (hc.run h).inv hthreads
      obtain ⟨⟨m', p, e'⟩, hnext, heq⟩ := Option.map_eq_some_iff.1 hstep
      cases heq
      obtain ⟨c', hw', hc'⟩ := next_within hinv hw hnext
      refine ⟨c', ?_, by cases fails <;> simp at hc' ⊢ <;> omega⟩
      show (Function.update s₁.pc t p t).Within cfg m' _ c'
      rwa [Function.update_self]

/-- **Every call is wait-free.** From any reachable state on, whatever the other threads do, a thread
    makes at most `2 * N + 7` steps of its running call, and two more for each of them in which a
    `compare_exchange_weak` may fail spuriously: that one and its repetition. As long as it has not
    returned it can make the next step. -/
theorem Run.wait_free [Fintype T] (h : Run cfg s trace)
    (hthreads : limit N + Fintype.card T ≤ maxRacing N) (hbuckets : cfg.bucketCount ≤ 2 ^ 31)
    (hc : Continues cfg t s trace j f s' trace') :
    j ≤ 2 * N + 7 + 2 * f ∧
      (s'.pc t ≠ .idle → ∃ r, HashFixed.step cfg s' t (.go false) = some r) := by
  obtain ⟨c, -, hle⟩ := hc.within h hthreads
  exact ⟨by omega, fun ht => (hc.run h).proceeds hthreads hbuckets ht false⟩

omit [Inhabited K] [Inhabited V] in
/-- The threads take their steps in this order. -/
theorem Continues.of_play (cfg : Config N K) (t : T) (s : State N K V T)
    (trace : List (Event N K V T)) (threads : List T) (good : State N K V T → List T → Bool)
    (h : (play (fun s u => (step cfg s u (.go false)).map fun r => (u, r.1)) (fun _ _ => true) s
      threads).any (fun r => good r.1 r.2) = true) :
    ∃ s' trace' moved, Continues cfg t s trace (moved.count t) 0 s' trace' ∧ good s' moved = true := by
  have hkept : ∀ (s₁ : State N K V T) (moved : List T) (u u' : T) (s₂ : State N K V T),
      (∃ trace', Continues cfg t s trace (moved.count t) 0 s₁ trace') →
      (step cfg s₁ u (.go false)).map (fun r => (u, r.1)) = some (u', s₂) → true = true →
      ∃ trace', Continues cfg t s trace ((moved ++ [u']).count t) 0 s₂ trace' := by
    rintro s₁ moved u u' s₂ ⟨trace', hc⟩ hstep -
    obtain ⟨⟨s₃, e⟩, hnext, heq⟩ := Option.map_eq_some_iff.1 hstep
    cases heq
    refine ⟨trace' ++ e.toList, ?_⟩
    rw [List.count_append, List.count_singleton]
    by_cases hut : u = t
    · subst hut
      rw [if_pos (beq_self_eq_true u)]
      exact .own hc hnext
    · rw [if_neg (by simpa using hut)]
      exact .other hc hut hnext
  obtain ⟨s', moved, ⟨trace', hc⟩, hgood⟩ := exists_of_play
    (P := fun s' moved => ∃ trace', Continues cfg t s trace (moved.count t) 0 s' trace')
    hkept ⟨trace, .start⟩ threads good h
  exact ⟨s', trace', moved, hc, hgood⟩

/-- Two threads have called `insert`. -/
def bothCalled : State 2 ℕ ℕ (Fin 2) where
  mem := (initial 2 ℕ ℕ (Fin 2)).mem
  pc u := .insert u.val 5 .check

theorem run_bothCalled : Run oneBucket bothCalled [] := by
  refine (Run.start.move 0 (.insert 0 5) rfl rfl rfl rfl).move 1 (.insert 1 5) rfl rfl ?_ rfl
  refine congrArg (State.mk _) (funext fun u => ?_)
  match u with
  | 0 => rfl
  | 1 => rfl

/-- The first thread loses the bucket head to the second and tries again. -/
theorem Run.wait_free_retry :
    ∃ (s' : State 2 ℕ ℕ (Fin 2)) (trace' : List (Event 2 ℕ ℕ (Fin 2))) (j : ℕ),
      Continues oneBucket 0 bothCalled [] j 0 s' trace' ∧ j = 9 ∧ (s'.pc 0).isIdle = true ∧
        j ≤ 2 * 2 + 7 + 2 * 0 ∧
        (s'.pc 0 ≠ .idle → ∃ r, HashFixed.step oneBucket s' 0 (.go false) = some r) := by
  obtain ⟨s', trace', moved, hc, hgood⟩ := Continues.of_play oneBucket 0 bothCalled []
    (List.replicate 6 0 ++ List.replicate 7 1 ++ List.replicate 3 (0 : Fin 2))
    (fun s' moved => (moved.count 0 = 9) ∧ (s'.pc 0).isIdle = true) (by decide +kernel)
  obtain ⟨hcount, hidle⟩ := of_decide_eq_true hgood
  exact ⟨s', trace', _, hc, hcount, hidle, run_bothCalled.wait_free (by decide) (by decide) hc⟩

end DeferredLru.HashFixed
