import DeferredLru.HashFixed.Answers

set_option autoImplicit false

/-! # What `HashFixed` deletes

Nothing is deleted before `releaseMemory`, which goes through the slots that are counted. With no call
running these are the slots assigned, and each has the pair it was assigned for; an `insert` stores
nothing only if all slots are assigned. So `releaseMemory` deletes the pairs of all inserts, or fills
the capacity with them (`Run.deletes_stored`). -/

namespace DeferredLru.HashFixed

open Intrusive

variable {N : ℕ} {K V T : Type} {cfg : Config N K} {s s' : State N K V T} {m m' : Mem N K V}
  {trace : List (Event N K V T)} {t : T} {k : K} {e : Option (Event N K V T)}
  {p : PC N K V} {move : Move K V}

/-! ## `releaseMemory` -/

/-- `i++` of an `index_t`; there is none after the largest. -/
def increment (i : ℤ) : Option ℤ := if i = 2 ^ 31 - 1 then none else some (i + 1)

/-- The loop of `releaseMemory`, at the `index_t` `i`, with the pairs it hands to `onDelete`. -/
def releaseLoop (m : Mem N K V) : ℕ → ℤ → Option (List (K × V))
  | 0, _ => none
  | fuel + 1, i =>
      if toSize i = m.currentElementCount then some []
      else do
        let n ← slot i
        let next ← increment i
        let rest ← releaseLoop m fuel next
        some ((m.key n, m.value n) :: rest)

/-- `releaseMemory` of a table whose `storage_` is there or not. It leaves none. -/
def releaseMemory (fuel : ℕ) (m : Mem N K V) (storage : Bool) : Option (List (K × V) × Bool) := do
  let deleted ← if storage then releaseLoop m fuel 0 else some []
  some (deleted, false)

/-- So many calls of `releaseMemory` in a row; the destructor makes the last one. -/
def releaseRepeatedly (fuel : ℕ) (m : Mem N K V) : ℕ → Bool → Option (List (K × V))
  | 0, _ => some []
  | calls + 1, storage => do
      let (deleted, storage) ← releaseMemory fuel m storage
      let rest ← releaseRepeatedly fuel m calls storage
      some (deleted ++ rest)

theorem releaseRepeatedly_released (fuel calls : ℕ) (m : Mem N K V) :
    releaseRepeatedly fuel m calls false = some [] := by
  induction calls with
  | zero => rfl
  | succ calls ih =>
      rw [releaseRepeatedly]
      simp [releaseMemory, ih]

/-- The slots from `i` on, if they are the numbers from `i` on and have these pairs. -/
theorem releaseLoop_eq {fuel i : ℕ} {slots : List (Fin N × K × V)}
    (hnumbered : slots.map (fun r => r.1.val) = List.range' i slots.length)
    (hstored : ∀ r ∈ slots, m.key r.1 = r.2.1 ∧ m.value r.1 = r.2.2)
    (hcount : m.currentElementCount = i + slots.length) (hsmall : m.currentElementCount < 2 ^ 31)
    (hfuel : slots.length < fuel) : releaseLoop m fuel i = some (slots.map Prod.snd) := by
  induction slots generalizing fuel i with
  | nil =>
      obtain ⟨fuel, rfl⟩ := Nat.exists_eq_add_one.2 hfuel
      rw [List.length_nil, Nat.add_zero] at hcount
      rw [releaseLoop, if_pos]
      · rfl
      · unfold toSize
        omega
  | cons r slots ih =>
      obtain ⟨fuel, rfl⟩ := Nat.exists_eq_add_one.2 (Nat.zero_lt_of_lt hfuel)
      rw [List.length_cons] at hcount hfuel hnumbered
      rw [List.map_cons, List.range'_succ] at hnumbered
      obtain ⟨hr, hslots⟩ := List.cons.inj hnumbered
      have hmore : toSize (i : ℤ) ≠ m.currentElementCount := by
        unfold toSize
        omega
      have hslot : slot (i : ℤ) = some r.1 := slot_eq (by rw [index, hr])
      obtain ⟨hkey, hvalue⟩ := hstored r (by simp)
      have hrest : releaseLoop m fuel ((i + 1 : ℕ) : ℤ) = some (slots.map Prod.snd) :=
        ih hslots (fun x hx => hstored x (by simp [hx])) (by omega) (by omega)
      rw [Nat.cast_succ] at hrest
      have hnext : increment i = some (i + 1) := if_neg (by omega)
      rw [releaseLoop, if_neg hmore, hslot, hnext]
      simp [hrest, hkey, hvalue]

/-! ## An `insert` that stores nothing -/

/-- The thread runs no call. -/
def PC.isIdle : PC N K V → Bool
  | .idle => true
  | _ => false

theorem PC.eq_idle {pc : PC N K V} (h : pc.isIdle = true) : pc = .idle := by
  cases pc with
  | idle => rfl
  | _ => cases h

variable [Fintype T]

theorem Inv.limit_le (h : Inv cfg s trace) (hfull : N ≤ s.mem.currentElementCount) :
    limit N ≤ (reservations trace).length := by
  by_contra hleft
  have hzero := h.rollbacks_eq (not_le.1 hleft)
  have hcount := h.count
  have hmin : limit N ≤ N := Nat.min_le_left ..
  omega

theorem Inv.full (h : Inv cfg s trace) (he : Effect cfg s.mem m' t (s.pc t) e) {u : T}
    (hfull : e = some (.full u)) : limit N ≤ (reservations trace).length := by
  have hstand := h.standing t
  cases he with
  | none e _ _ _ hover =>
      have hover := hover u hfull
      unfold PC.overfull at hover
      split at hover
      · exact h.limit_le hover
      · rename_i hpc
        rw [hpc] at hstand
        exact hstand
      · exact hover.elim
  | link => cases hfull
  | publish => cases hfull

variable [DecidableEq T] [DecidableEq K] [Inhabited K] [Inhabited V]

theorem Run.full (h : Run cfg s trace) (hthreads : limit N + Fintype.card T ≤ maxRacing N)
    (hfull : .full t ∈ trace) : limit N ≤ (reservations trace).length := by
  induction h with
  | start => cases hfull
  | @step s s' trace u move e hrun hstep ih =>
      obtain ⟨⟨m', p, e'⟩, hnext, heq⟩ := Option.map_eq_some_iff.1 hstep
      cases heq
      have hlimit : limit N ≤ (reservations trace).length := by
        rcases List.mem_append.1 hfull with hold | hnew
        · exact ih hold
        · exact (hrun.inv hthreads).full (next_effect hnext) (Option.mem_toList.1 hnew)
      rw [reservations_append, List.length_append]
      omega

/-- **What is deleted.** With no call running, one or more calls of `releaseMemory` hand to `onDelete`
    the pair of every `insert` that was assigned a slot, each once and in the order of the slots. If an
    `insert` has stored nothing, these are as many pairs as the table has elements. -/
theorem Run.deletes_stored (h : Run cfg s trace) (hN : N < 2 ^ 31)
    (hthreads : Fintype.card T ≤ 2 ^ 31) (hidle : ∀ t, s.pc t = .idle) (calls : ℕ) :
    (∀ fuel, N < fuel → releaseRepeatedly fuel s.mem (calls + 1) true =
        some ((reservations trace).map fun r => r.2.2)) ∧
      ∀ t, .full t ∈ trace → (reservations trace).length = N := by
  have hlimit : limit N = N := Nat.min_eq_left hN.le
  have hthreads' : limit N + Fintype.card T ≤ maxRacing N := by
    unfold maxRacing
    split <;> omega
  have hinv := h.inv hthreads'
  have hbounded := hinv.bounded
  have hcount : s.mem.currentElementCount = 0 + ((reservations trace).map Prod.snd).length := by
    rw [hinv.count, rollbacks_eq_zero (fun t => by rw [hidle t]; rfl), List.length_map]
    omega
  refine ⟨fun fuel hfuel => ?_, fun t hfull => ?_⟩
  · have hnumbered : ((reservations trace).map Prod.snd).map (fun r => r.1.val) =
        List.range' 0 ((reservations trace).map Prod.snd).length := by
      rw [List.map_map, List.length_map, ← List.range_eq_range']
      exact hinv.numbered
    have hstored : ∀ r ∈ (reservations trace).map Prod.snd,
        s.mem.key r.1 = r.2.1 ∧ s.mem.value r.1 = r.2.2 := by
      intro r hr
      obtain ⟨⟨t, n, k, v⟩, hmem, rfl⟩ := List.mem_map.1 hr
      -- what was assigned is published, and a slot was assigned for one pair
      obtain ⟨k', hk'⟩ | hslot := hinv.pending t n k v hmem
      · obtain ⟨hkey, u, v', hmem', hvalue⟩ := hinv.stored n k' hk'
        obtain ⟨-, rfl, rfl⟩ := hinv.owner_unique hmem hmem'
        exact ⟨hkey, hvalue⟩
      · rw [hidle t] at hslot
        cases hslot
    have hsmall : s.mem.currentElementCount < 2 ^ 31 := by
      rw [hcount, List.length_map]
      omega
    have hloop : releaseLoop s.mem fuel ((0 : ℕ) : ℤ) = some _ :=
      releaseLoop_eq hnumbered hstored hcount hsmall (by rw [List.length_map]; omega)
    rw [Nat.cast_zero, List.map_map] at hloop
    rw [releaseRepeatedly, releaseMemory, if_pos rfl, hloop]
    simp [releaseRepeatedly_released, Function.comp_def]
  · have hall := h.full hthreads' hfull
    omega

/-- Two threads insert at the same time, and a third `insert` finds no slot. -/
theorem Run.deletes_stored_full : ∃ (s : State 2 ℕ ℕ (Fin 2)) (trace : List (Event 2 ℕ ℕ (Fin 2))),
    Run oneBucket s trace ∧ reservations trace = [(1, 0, 6, 60), (0, 1, 7, 70)] ∧
      .full 1 ∈ trace ∧
      (∀ fuel, 2 < fuel → releaseRepeatedly fuel s.mem (1 + 1) true =
        some ((reservations trace).map fun r => r.2.2)) ∧
      ∀ t, .full t ∈ trace → (reservations trace).length = 2 := by
  obtain ⟨s, trace, hrun, hgood⟩ := Run.of_play oneBucket.toArguments
    ((0, .insert 7 70) :: goes 0 1 ++ (1, .insert 6 60) :: goes 1 7 ++ goes 0 6 ++
      (1, .insert 5 50) :: goes (1 : Fin 2) 1)
    (fun s trace => (∀ t, (s.pc t).isIdle = true) ∧
      reservations trace = [(1, 0, 6, 60), (0, 1, 7, 70)] ∧ .full 1 ∈ trace) (by decide +kernel)
  obtain ⟨hidle, hslots, hfull⟩ := of_decide_eq_true hgood
  exact ⟨s, trace, hrun, hslots, hfull,
    hrun.deletes_stored (by decide) (by decide) (fun t => PC.eq_idle (hidle t)) 1⟩

end DeferredLru.HashFixed
