import DeferredLru.HashFixed.Steps

set_option autoImplicit false

/-! # What `HashFixed` guarantees

All of it rests on slot numbers being drawn once (`Run.sound`). This takes a bound on the number of
threads: one that finds the table full has raised the counter already, and `2^32` of them that have
not taken it back yet turn the cast index to 0 again. Bucket numbers are cast as well, and a table
with more buckets than an `int` can count is accessed at negative indices (`Run.not_sound`). -/

namespace DeferredLru.HashFixed

open Intrusive

variable {N : ℕ} {K V T : Type}

/-- What holds in a reachable state. -/
structure Sound (cfg : Config N K) (s : State N K V T) (trace : List (Event N K V T)) : Prop where
  /-- The slots are assigned one after the other, so none of them twice. -/
  numbered : (reservations trace).map (fun r => r.2.1.val) = List.range (reservations trace).length
  bounded : (reservations trace).length ≤ N
  /-- The chain of a bucket has no duplicates and consists of what was published in the bucket. -/
  chains : ∀ b, ∃ l, Chain s.mem.bucketNext index (s.mem.bucket b) l (-1) ∧ l.Nodup ∧
    ∀ n, n ∈ l ↔ ∃ k, Published trace n k ∧ cfg.whichBucket k = b
  /-- A `find` that starts after an element with its key was published finds one. -/
  answered : ∀ past t k r rest, trace = past ++ .returned t k r :: rest → Asked t k past → r ≠ none
  /-- An element returned has the key asked for, and the value of the `insert` it came from. -/
  delivered : ∀ t k n, .returned t k (some n) ∈ trace →
    s.mem.key n = k ∧ ∃ u v, .reserved u n k v ∈ trace ∧ s.mem.value n = v
  /-- At rest every element is published and counted. -/
  rest : (∀ t, s.pc t = .idle) →
    s.mem.currentElementCount = (reservations trace).length ∧
      ∀ t n k v, .reserved t n k v ∈ trace → ∃ k', Published trace n k'

variable {cfg : Config N K} {s : State N K V T} {trace : List (Event N K V T)}

theorem Inv.guarantees [Fintype T] (h : Inv cfg s trace) : Sound cfg s trace where
  numbered := h.numbered
  bounded := h.bounded.trans (Nat.min_le_left ..)
  chains b := by
    obtain ⟨l, hl, hmem⟩ := h.chains b
    exact ⟨l, hl, hl.nodup index_injective (fun x _ => end_ne_index x), hmem⟩
  answered := h.answered
  delivered t k n hn := by
    obtain ⟨hkey, u, v, hmem, hvalue⟩ := h.stored n k (h.delivered t k n hn)
    exact ⟨hkey, u, v, mem_reservations.1 hmem, hvalue⟩
  rest hidle := by
    refine ⟨?_, fun t n k v hn => ?_⟩
    · rw [h.count, rollbacks_eq_zero (fun t => by rw [hidle t]; rfl), Nat.add_zero]
    · refine (h.pending t n k v (mem_reservations.2 hn)).resolve_right (fun hslot => ?_)
      rw [hidle t] at hslot
      cases hslot

theorem Inv.initial [Fintype T] [Inhabited K] [Inhabited V] : Inv cfg (initial N K V T) [] where
  numbered := rfl
  bounded := Nat.zero_le _
  count := by
    rw [rollbacks_eq_zero (fun _ => rfl)]
    rfl
  standing _ := trivial
  pending := by simp [reservations]
  stored n k hn := by
    obtain ⟨t, ht⟩ := hn
    cases ht
  chains b := ⟨[], rfl, fun n => by simp [Published]⟩
  answered := by simp
  delivered := by simp

variable [DecidableEq T] [DecidableEq K]

/-- A thread in a call can take its next step: it does not leave an array. -/
theorem Inv.proceeds [Fintype T] (h : Inv cfg s trace) (hspare : Spare s trace)
    (hthreads : limit N + Fintype.card T ≤ maxRacing N) (hbuckets : cfg.bucketCount ≤ 2 ^ 31) {t : T}
    (ht : s.pc t ≠ .idle) (fails : Bool) : ∃ r, HashFixed.step cfg s t (.go fails) = some r := by
  have hbucket : ∀ k, ∃ i, s.mem.bucketAt cfg (cfg.whichBucket k) = some i := by
    intro k
    refine ⟨_, Mem.bucketAt_eq_some.2 ⟨?_, rfl⟩⟩
    have hlt := Nat.mod_lt (cfg.hasher k) cfg.bucketCount_pos
    rw [Config.whichBucket, toIndex_of_lt (by omega)]
    omega
  -- a walk along a chain stays among the elements
  have hsearch : ∀ (k : K) (i : ℤ) (l : List (Fin N)), Chain s.mem.bucketNext index i l (-1) →
      ∃ r, searchAt (N := N) (V := V) t k i = some r := by
    intro k i l hl
    unfold searchAt
    split
    case isTrue => exact ⟨_, rfl⟩
    case isFalse hi =>
      cases l with
      | nil => exact absurd hl hi
      | cons x l => exact ⟨_, by rw [hl.1, slot_index]; rfl⟩
  have hstand := h.standing t
  suffices hnext : ∃ r, HashFixed.next cfg s.mem t (s.pc t) (.go fails) = some r by
    obtain ⟨r, hr⟩ := hnext
    exact ⟨_, by rw [HashFixed.step, hr]; rfl⟩
  cases hpc : s.pc t with
  | idle => exact absurd hpc ht
  | insert k v i =>
      obtain ⟨current, hcurrent⟩ := hbucket k
      cases i with
      | reserve =>
          by_cases hroom : N ≤ toSize (toIndex s.mem.currentElementCount)
          · exact ⟨_, if_pos hroom⟩
          · have hlt := h.count_lt hspare hthreads hpc
            obtain ⟨n, hn, -⟩ := h.reserve hlt cfg.capacity_lt hpc hroom
            exact ⟨_, by simp only [next, nextInsert]; rw [if_neg hroom, hn]; rfl⟩
      | load n => exact ⟨_, by simp only [next, nextInsert_load]; rw [hcurrent]; rfl⟩
      | publish n next =>
          exact ⟨_, by simp only [HashFixed.next, nextInsert_publish]; rw [hcurrent]; rfl⟩
      | _ => exact ⟨_, rfl⟩
  | find k i =>
      rw [hpc] at hstand
      suffices hfind : ∃ r, nextFind cfg s.mem t k i = some r by
        obtain ⟨r, hr⟩ := hfind
        exact ⟨_, by simp only [next]; rw [hr]; rfl⟩
      cases i with
      | load =>
          obtain ⟨current, hcurrent⟩ := hbucket k
          obtain ⟨l, hl, -⟩ := h.chains (cfg.whichBucket k)
          rw [(Mem.bucketAt_eq_some.1 hcurrent).2] at hl
          obtain ⟨r, hr⟩ := hsearch k current l hl
          exact ⟨r, by rw [nextFind_load, hcurrent]; exact hr⟩
      | compare n => exact ⟨_, rfl⟩
      | next n =>
          obtain ⟨⟨l, hl, -, -⟩, -⟩ := hstand
          cases l with
          | nil => exact absurd hl (index_ne_end n)
          | cons x l =>
              obtain rfl := index_injective hl.1
              exact hsearch k _ l hl.2

variable [Inhabited K] [Inhabited V]

theorem Run.inv_spare [Fintype T] (hrun : Run cfg s trace)
    (hthreads : limit N + Fintype.card T ≤ maxRacing N) : Inv cfg s trace ∧ Spare s trace := by
  induction hrun with
  | start =>
      refine ⟨Inv.initial, fun hfull => ?_⟩
      have hpos := cfg.loadFactor_pos.trans cfg.loadFactor_le
      exact absurd hfull (Nat.not_le_of_gt hpos)
  | step _ hstep ih => exact ⟨ih.1.step ih.2 hthreads hstep, ih.2.step ih.1 hstep⟩

theorem Run.inv [Fintype T] (hrun : Run cfg s trace)
    (hthreads : limit N + Fintype.card T ≤ maxRacing N) : Inv cfg s trace :=
  (hrun.inv_spare hthreads).1

theorem Run.proceeds [Fintype T] (hrun : Run cfg s trace)
    (hthreads : limit N + Fintype.card T ≤ maxRacing N) (hbuckets : cfg.bucketCount ≤ 2 ^ 31) {t : T}
    (ht : s.pc t ≠ .idle) (fails : Bool) : ∃ r, HashFixed.step cfg s t (.go fails) = some r :=
  have hinv := hrun.inv_spare hthreads
  hinv.1.proceeds hinv.2 hthreads hbuckets ht fails

/-- **`HashFixed` is sound** in every reachable state, and no thread in a call leaves an array, if
    the slots that can be assigned and the threads together are at most `maxRacing` and the bucket
    numbers fit an `int`. -/
theorem Run.sound [Fintype T] (hrun : Run cfg s trace)
    (hthreads : limit N + Fintype.card T ≤ maxRacing N) (hbuckets : cfg.bucketCount ≤ 2 ^ 31) :
    Sound cfg s trace ∧
      ∀ t, s.pc t ≠ .idle → ∀ fails, ∃ r, HashFixed.step cfg s t (.go fails) = some r :=
  ⟨(hrun.inv hthreads).guarantees,
    fun _ ht fails => hrun.proceeds hthreads hbuckets ht fails⟩

theorem two_lt_capacity : 2 < 2 ^ 63 := by decide

/-- Two slots, and all keys in one bucket. -/
def oneBucket : Config 2 ℕ := ⟨⟨fun _ => 0, 1, Nat.one_pos, two_lt_capacity⟩, Nat.two_pos⟩

deriving instance DecidableEq for Event

/-- The second thread finds what the first one has published, while the third one finds no slot left. -/
theorem Run.sound_oneBucket :
    ∃ (s : State 2 ℕ ℕ (Fin 3)) (trace : List (Event 2 ℕ ℕ (Fin 3))), Run oneBucket s trace ∧
      Published trace 1 8 ∧ .returned 1 7 (some 0) ∈ trace ∧ (s.pc 2).rolling = true ∧
      Sound oneBucket s trace ∧ ∀ t, s.pc t ≠ .idle → ∀ fails,
        ∃ r, HashFixed.step oneBucket s t (.go fails) = some r := by
  obtain ⟨s, trace, hrun, hgood⟩ := Run.of_play oneBucket.toArguments
    ((0, .insert 7 70) :: goes 0 7 ++ (2, .insert 9 90) :: goes 2 1 ++ (0, .insert 8 80) :: goes 0 7 ++
      (1, .find 7) :: goes 1 4 ++ goes (2 : Fin 3) 1)
    (fun s trace => decide <| Event.published 0 1 8 ∈ trace ∧ Event.returned 1 7 (some 0) ∈ trace ∧
      (s.pc 2).rolling = true) (by decide +kernel)
  obtain ⟨hpublished, hreturned, hrolling⟩ := of_decide_eq_true hgood
  have hworks : Run oneBucket s trace := hrun
  exact ⟨s, trace, hrun, ⟨0, hpublished⟩, hreturned, hrolling, hworks.sound (by decide) (by decide)⟩

/-! ## When the cast comes round -/

section ComesRound

variable {M : ℕ}

/-- A table for one element. -/
def oneSlot : Config 1 Unit := ⟨⟨fun _ => 0, 1, Nat.one_pos, by decide⟩, by decide⟩

/-- The first `i` threads have found room for their elements. -/
def checked (M i : ℕ) : State 1 Unit Unit (Fin M) where
  mem := (initial 1 Unit Unit (Fin M)).mem
  pc u := if u.val < i then .insert () () .reserve else .idle

/-- The first of the `i` threads has the slot, the others have found none left. -/
def drawn (M i : ℕ) : State 1 Unit Unit (Fin M) where
  mem := { (initial 1 Unit Unit (Fin M)).mem with currentElementCount := i }
  pc u := if u.val = 0 then .insert () () (.key 0)
    else if u.val < i then .insert () () .rollback else .insert () () .reserve

omit [DecidableEq T] in
/-- The counter is cast to 0. -/
theorem next_reserve {m : Mem 1 Unit Unit} {t : T} (hc : m.currentElementCount % 2 ^ 32 = 0) :
    next oneSlot m t (.insert () () .reserve) (.go false) =
      some ({ m with currentElementCount := (m.currentElementCount + 1) % 2 ^ 64 },
        .insert () () (.key 0), some (.reserved t 0 () ())) := by
  have hindex : toIndex m.currentElementCount = index (0 : Fin 1) := by
    show _ = (0 : ℤ)
    unfold toIndex
    rw [hc]
    rfl
  simp only [next, nextInsert, hindex, slot_index]
  rfl

omit [DecidableEq T] in
/-- No index is left. -/
theorem next_full {m : Mem 1 Unit Unit} {t : T} (hc : 1 ≤ m.currentElementCount)
    (hlt : m.currentElementCount < 2 ^ 32) :
    next oneSlot m t (.insert () () .reserve) (.go false) =
      some ({ m with currentElementCount := m.currentElementCount + 1 },
        .insert () () .rollback, none) := by
  have hfull := le_toSize (N := 1) (by omega) ((Nat.min_le_left ..).trans hc) hlt
  simp only [next, nextInsert]
  rw [if_pos hfull, Nat.mod_eq_of_lt (by omega)]

theorem Run.move {m' : Mem N K V} {pc p : PC N K V} {e : Option (Event N K V T)}
    {s' : State N K V T} {trace' : List (Event N K V T)} (hrun : Run cfg s trace) (t : T)
    (move : Move K V) (hpc : s.pc t = pc) (hnext : next cfg s.mem t pc move = some (m', p, e))
    (hs : ⟨m', Function.update s.pc t p⟩ = s') (htrace : trace ++ e.toList = trace') :
    Run cfg s' trace' := by
  have hstep : HashFixed.step cfg s t move = some (s', e) := by
    rw [HashFixed.step, hpc, hnext, ← hs]
    rfl
  exact htrace ▸ Run.step hrun hstep

theorem run_checked {i : ℕ} (hi : i ≤ M) : Run oneSlot (checked M i) [] := by
  induction i with
  | zero => exact Run.start
  | succ i ih =>
      have hcall := (ih (by omega)).move ⟨i, hi⟩ (.insert () ()) (if_neg (lt_irrefl i)) rfl rfl rfl
      refine hcall.move ⟨i, hi⟩ (.go false) (Function.update_self _ _ _) rfl ?_ rfl
      refine congrArg (State.mk _) (funext fun u => ?_)
      rw [Function.update_idem]
      by_cases hu : u = ⟨i, hi⟩
      · rw [hu, Function.update_self]
        exact (if_pos (Nat.lt_succ_self i)).symm
      · rw [Function.update_of_ne hu]
        have hne : u.val ≠ i := fun h => hu (Fin.ext h)
        exact if_congr (by omega) rfl rfl

theorem drawn_pc {i : ℕ} {u : Fin M} (hi : 0 < i) (hu : i ≤ u.val) :
    (drawn M i).pc u = .insert () () .reserve := by
  unfold drawn
  dsimp only
  rw [if_neg (by omega), if_neg (by omega)]

theorem run_drawn {i : ℕ} (hi : i + 1 ≤ 2 ^ 32) (hM : i < M) (t : Fin M) (ht : t.val = 0) :
    Run oneSlot (drawn M (i + 1)) [.reserved t 0 () ()] := by
  induction i with
  | zero =>
      refine (run_checked le_rfl).move t (.go false) (if_pos t.isLt)
        (next_reserve (Nat.zero_mod _)) ?_ rfl
      refine congrArg (State.mk _) (funext fun u => ?_)
      by_cases hu : u = t
      · rw [hu, Function.update_self]
        exact (if_pos ht).symm
      · rw [Function.update_of_ne hu]
        have hne : u.val ≠ 0 := fun h => hu (Fin.ext (h.trans ht.symm))
        exact (if_pos u.isLt).trans ((if_neg hne).trans (if_neg (by omega))).symm
  | succ i ih =>
      refine (ih (by omega) (by omega)).move ⟨i + 1, hM⟩ (.go false)
        (drawn_pc (Nat.succ_pos i) le_rfl) (next_full (Nat.succ_pos i) hi) ?_ rfl
      refine congrArg (State.mk _) (funext fun u => ?_)
      by_cases hu : u = ⟨i + 1, hM⟩
      · rw [hu, Function.update_self]
        exact ((if_neg (Nat.succ_ne_zero i)).trans (if_pos (Nat.lt_succ_self _))).symm
      · rw [Function.update_of_ne hu]
        have hne : u.val ≠ i + 1 := fun h => hu (Fin.ext h)
        exact if_congr Iff.rfl rfl (if_congr (by omega) rfl rfl)

/-- The counter was raised `2^32` times and is cast to 0 again. -/
theorem run_again (hM : 2 ^ 32 < M) : ∃ (s : State 1 Unit Unit (Fin M)) (t u : Fin M),
    Run oneSlot s [.reserved t 0 () (), .reserved u 0 () ()] := by
  have hrun := run_drawn (M := M) (i := 2 ^ 32 - 1) (by omega) (by omega) ⟨0, by omega⟩ rfl
  exact ⟨_, _, _, hrun.move ⟨2 ^ 32, hM⟩ (.go false) (drawn_pc (Nat.succ_pos _) le_rfl)
    (next_reserve (Nat.mod_self _)) rfl rfl⟩

end ComesRound

/-- A table with a bucket of its own for every key, more than an `int` can number. -/
def hugeTable : Config (2 ^ 31 + 1) ℕ :=
  ⟨⟨id, 1, le_rfl, by omega⟩, Nat.le_add_left 1 _⟩

theorem hugeTable_whichBucket : hugeTable.whichBucket (2 ^ 31) < 0 := by
  have hbuckets : hugeTable.bucketCount = 2 ^ 31 + 1 := Nat.div_one _
  have hhash : hugeTable.hasher (2 ^ 31) = 2 ^ 31 := rfl
  rw [Config.whichBucket, hbuckets, hhash, Nat.mod_eq_of_lt (Nat.lt_succ_self _), toIndex_two_pow]
  omega

/-- The bucket number of the key is negative. -/
theorem run_outside : ∃ (s : State (2 ^ 31 + 1) ℕ Unit Unit) (t : Unit),
    Run hugeTable s [.called t (2 ^ 31)] ∧ s.pc t ≠ .idle ∧
      ∀ fails, step hugeTable s t (.go fails) = none := by
  let m := (initial (2 ^ 31 + 1) ℕ Unit Unit).mem
  refine ⟨⟨m, fun _ => .find (2 ^ 31) .load⟩, (), ?_, by simp, fun fails => ?_⟩
  · exact Run.start.move () (.find (2 ^ 31)) rfl rfl
      (congrArg (State.mk m) (funext fun _ => Function.update_self ..)) rfl
  · simp only [step, next, nextFind_load, Mem.bucketAt]
    rw [if_neg (fun h => absurd hugeTable_whichBucket (not_lt.2 h.1))]
    rfl

/-- **Without the bounds** a slot can be assigned twice, and a `find` leave the array of buckets. -/
theorem Run.not_sound :
    (∃ (s : State 1 Unit Unit (Fin (2 ^ 32 + 1))) (trace : List _), Run oneSlot s trace ∧
      ¬ ((reservations trace).map fun r => r.2.1).Nodup) ∧
    ∃ (s : State (2 ^ 31 + 1) ℕ Unit Unit) (trace : List _) (t : Unit), Run hugeTable s trace ∧
      s.pc t ≠ .idle ∧ ∀ fails, HashFixed.step hugeTable s t (.go fails) = none := by
  constructor
  · obtain ⟨s, t, u, hrun⟩ := run_again (M := 2 ^ 32 + 1) (Nat.lt_succ_self _)
    exact ⟨s, _, hrun, by simp [reservations]⟩
  · obtain ⟨s, t, hrun, hstuck⟩ := run_outside
    exact ⟨s, _, t, hrun, hstuck⟩

end DeferredLru.HashFixed
