import DeferredLru.HashFixed.Invariant

set_option autoImplicit false

/-! # The steps of `HashFixed` keep the invariant

A step of a thread assigns and publishes nothing (`Inv.quiet`), or it is one of four: it takes the
next slot, or finds none and is left with an increment to take back, or takes it back, or publishes
its element. -/

namespace DeferredLru.HashFixed

open Intrusive

variable {N : ℕ} {K V T : Type} {cfg : Config N K} {s s' : State N K V T} {m m' : Mem N K V}
  {trace : List (Event N K V T)} {t : T} {n : Fin N} {k : K} {v : V} {e : Option (Event N K V T)}

theorem Tame.read (hthread : ∀ x ∈ e, x.thread = t) (he : Quiet e) : Tame t m m trace e :=
  ⟨hthread, fun _ => Or.inl ⟨rfl, rfl, rfl⟩, fun u n k hp => absurd rfl ((he _ hp).2 u n k)⟩

theorem Tame.count (c : ℕ) (hthread : ∀ x ∈ e, x.thread = t) (he : Quiet e) :
    Tame t m { m with currentElementCount := c } trace e :=
  ⟨hthread, fun _ => Or.inl ⟨rfl, rfl, rfl⟩, fun u n k hp => absurd rfl ((he _ hp).2 u n k)⟩

theorem quiet_none : Quiet (none : Option (Event N K V T)) := fun _ hx => by cases hx

theorem quiet_full (t : T) : Quiet (some (.full t : Event N K V T)) := by
  intro x hx
  obtain rfl : Event.full t = x := by simpa using hx
  simp

theorem quiet_called (t : T) (k : K) : Quiet (some (.called t k : Event N K V T)) := by
  intro x hx
  obtain rfl : Event.called t k = x := by simpa using hx
  simp

theorem quiet_returned (t : T) (k : K) (r : Option (Fin N)) :
    Quiet (some (.returned t k r : Event N K V T)) := by
  intro x hx
  obtain rfl : Event.returned t k r = x := by simpa using hx
  simp

theorem Asked.published (h : Asked t k trace) : ∃ n, Published trace n k := by
  obtain ⟨past, e, rest, rfl, ⟨-, n, hn⟩, -⟩ := h
  exact ⟨n, hn.mono⟩

/-! ## The accesses to a bucket -/

theorem nextInsert_load {fails : Bool} {n : Fin N} :
    nextInsert cfg m t fails k v (.load n) = (m.bucketAt cfg (cfg.whichBucket k)).map
      fun next => (m, .insert k v (.link n next), none) := by
  rw [nextInsert, Option.map_eq_bind]
  show (cfg.toArguments.whichBucket k).bind (fun wbuck => (m.bucketAt cfg wbuck).bind _) = _
  rw [Config.whichBucket_eq, Option.bind_some]
  rfl

theorem nextInsert_publish {fails : Bool} {n : Fin N} {next : ℤ} :
    nextInsert cfg m t fails k v (.publish n next) = (m.bucketAt cfg (cfg.whichBucket k)).map
      fun current => if current = next ∧ fails = false then
          ({ m with bucket := Function.update m.bucket (cfg.whichBucket k) (index n) }, .idle,
            some (.published t n k))
        else (m, .insert k v (.link n current), none) := by
  rw [nextInsert, Option.map_eq_bind]
  show (cfg.toArguments.whichBucket k).bind (fun wbuck => (m.bucketAt cfg wbuck).bind _) = _
  rw [Config.whichBucket_eq, Option.bind_some]
  rfl

theorem nextFind_load [DecidableEq K] :
    nextFind cfg m t k .load = (m.bucketAt cfg (cfg.whichBucket k)).bind (searchAt t k) := by
  rw [nextFind]
  show (cfg.toArguments.whichBucket k).bind (fun wbuck => (m.bucketAt cfg wbuck).bind _) = _
  rw [Config.whichBucket_eq, Option.bind_some]

theorem Mem.bucketAt_eq_some {b i : ℤ} : m.bucketAt cfg b = some i ↔
    (0 ≤ b ∧ b < cfg.bucketCount) ∧ m.bucket b = i := by
  unfold Mem.bucketAt
  split <;> simp [*]

variable [Fintype T]

theorem PC.rolling_of_racing {p : PC N K V} (h : p.racing = false) : p.rolling = false := by
  cases p with
  | insert k v i =>
      cases i with
      | rollback => cases h
      | _ => rfl
  | _ => rfl

/-- The count that a thread reads when it draws a slot is below the wrap of the cast. -/
theorem Inv.count_lt [DecidableEq T] (h : Inv cfg s trace) (hspare : Spare s trace)
    (hthreads : limit N + Fintype.card T ≤ maxRacing N) (hpc : s.pc t = .insert k v .reserve) :
    s.mem.currentElementCount < 2 ^ 32 := by
  have hcount := h.count
  have hbounded := h.bounded
  have hroll : (s.pc t).rolling = false := by rw [hpc]; rfl
  have hlt := rollbacks_lt_card hroll
  unfold limit at hthreads hbounded
  by_cases hlast : N ≤ (reservations trace).length
  · -- neither the thread nor the spare one is about to take its increment back
    obtain ⟨u, hu⟩ := hspare hlast
    have hut : t ≠ u := by
      rintro rfl
      rw [hpc] at hu
      cases hu
    have hupdate := @rollbacks_update N K V T u _ s.pc _ (.insert k v .rollback)
    rw [PC.rolling_of_racing hu] at hupdate
    simp only [PC.rolling, Bool.false_eq_true, if_false, if_true] at hupdate
    have hboth : rollbacks (Function.update s.pc u (.insert k v .rollback)) < Fintype.card T :=
      rollbacks_lt_card (t := t) (by rw [Function.update_of_ne hut]; exact hroll)
    unfold maxRacing at hthreads
    split at hthreads <;> omega
  · unfold maxRacing at hthreads
    split at hthreads <;> omega

/-- While slots are left nobody takes an increment back. -/
theorem Inv.rollbacks_eq (h : Inv cfg s trace) (hleft : (reservations trace).length < limit N) :
    rollbacks s.pc = 0 := by
  refine rollbacks_eq_zero (fun u => ?_)
  have hu := h.standing u
  cases hpc : s.pc u with
  | idle => rfl
  | find k p => rfl
  | insert k v p =>
      cases p with
      | rollback =>
          rw [hpc] at hu
          exact absurd hu (by simpa [Standing] using hleft)
      | _ => rfl

variable [DecidableEq T]

/-- **No slot is left**: the count is raised in vain. -/
theorem Inv.overshoot (h : Inv cfg s trace) (hlt : s.mem.currentElementCount < 2 ^ 32)
    (hpc : s.pc t = .insert k v .reserve)
    (hfull : N ≤ toSize (toIndex s.mem.currentElementCount)) :
    Inv cfg ⟨{ s.mem with currentElementCount := (s.mem.currentElementCount + 1) % 2 ^ 64 },
      Function.update s.pc t (.insert k v .rollback)⟩ (trace ++ Option.toList none) := by
  have hcount := h.count
  have hfull' : limit N ≤ (reservations trace).length := by
    by_contra hleft
    have hzero := h.rollbacks_eq (not_le.1 hleft)
    unfold limit at hleft
    rw [toSize_toIndex (by omega)] at hfull
    omega
  have hupdate := @rollbacks_update N K V T t _ s.pc _ (.insert k v .rollback)
  rw [hpc] at hupdate
  simp only [PC.rolling, Bool.false_eq_true, if_false, if_true] at hupdate
  refine h.quiet (Tame.count _ (by simp) quiet_none) quiet_none ?_ ?_ (by rw [hpc]; rfl) rfl
    (by simp)
  · simpa [Standing] using hfull'
  · show _ % _ = _
    omega

/-- **A slot is left**: the next one is assigned. -/
theorem Inv.reserve (h : Inv cfg s trace) (hlt : s.mem.currentElementCount < 2 ^ 32)
    (hN : N < 2 ^ 63) (hpc : s.pc t = .insert k v .reserve)
    (hroom : ¬ N ≤ toSize (toIndex s.mem.currentElementCount)) :
    ∃ n : Fin N, slot (toIndex s.mem.currentElementCount) = some n ∧
      Inv cfg ⟨{ s.mem with currentElementCount := (s.mem.currentElementCount + 1) % 2 ^ 64 },
        Function.update s.pc t (.insert k v (.key n))⟩
        (trace ++ Option.toList (some (.reserved t n k v))) := by
  have hleft : s.mem.currentElementCount < limit N := by
    by_contra hfull
    exact hroom (le_toSize hN (not_lt.1 hfull) hlt)
  have hcount := h.count
  -- no rollback is due while there is room, so the counter counts the reservations
  have hlength : s.mem.currentElementCount = (reservations trace).length := by
    rw [hcount, h.rollbacks_eq (by omega), Nat.add_zero]
  have hmin : limit N ≤ N ∧ limit N ≤ 2 ^ 31 := ⟨Nat.min_le_left .., Nat.min_le_right ..⟩
  let n : Fin N := ⟨s.mem.currentElementCount, by omega⟩
  refine ⟨n, slot_eq (toIndex_of_lt (by omega)), ?_⟩
  have hpublished : ∀ x k', Published (trace ++ [.reserved t n k v]) x k' → Published trace x k' := by
    intro x k' hx
    exact (published_concat.1 hx).resolve_right (fun ⟨u, hu⟩ => by cases hu)
  have hown : Owns (trace ++ [.reserved t n k v]) t n k v := by
    refine ⟨by rw [reservations_concat_reserved]; simp, fun k' hk' => ?_⟩
    -- a published slot was reserved before, and those have smaller numbers
    obtain ⟨-, u, v', hmem, -⟩ := h.stored n k' (hpublished n k' hk')
    have := h.lt_of_reserved hmem
    exact absurd hlength (Nat.ne_of_lt this)
  have htame : Tame t s.mem { s.mem with
      currentElementCount := (s.mem.currentElementCount + 1) % 2 ^ 64 } trace
      (some (.reserved t n k v)) :=
    ⟨by simp [Event.thread], fun _ => Or.inl ⟨rfl, rfl, rfl⟩, by simp⟩
  have hupdate := @rollbacks_update N K V T t _ s.pc _ (.insert k v (.key n))
  rw [hpc] at hupdate
  simp only [PC.rolling, Bool.false_eq_true, if_false, Nat.add_zero] at hupdate
  refine ⟨?_, ?_, ?_, h.others htame hown, fun u x k' v' hx => ?_, fun x k' hx => ?_, fun b => ?_,
    answered_append h.answered (by simp), fun u k' x hx => ?_⟩
  · rw [Option.toList_some, reservations_concat_reserved, List.map_append, h.numbered,
      List.length_append, List.length_singleton, List.range_succ]
    exact congrArg _ (congrArg (fun c => [c]) hlength)
  · rw [Option.toList_some, reservations_concat_reserved, List.length_append, List.length_singleton]
    omega
  · rw [Option.toList_some, reservations_concat_reserved, List.length_append, List.length_singleton]
    show (s.mem.currentElementCount + 1) % 2 ^ 64 = _ + rollbacks (Function.update _ _ _)
    omega
  · rw [Option.toList_some, reservations_concat_reserved, List.mem_append, List.mem_singleton] at hx
    rcases hx with hx | hx
    · refine (h.pending u x k' v' hx).imp (fun ⟨k', hk'⟩ => ⟨k', hk'.mono⟩) (fun hslot => ?_)
      have hut : u ≠ t := by
        rintro rfl
        rw [hpc] at hslot
        cases hslot
      show (Function.update s.pc t _ u).slot = _
      rw [Function.update_of_ne hut, hslot]
    · obtain ⟨rfl, rfl, -, -⟩ : u = t ∧ x = n ∧ k' = k ∧ v' = v := by simpa using hx
      show _ ∨ (Function.update s.pc u _ u).slot = _
      rw [Function.update_self]
      exact Or.inr rfl
  · obtain ⟨hkey, u, v', hmem, hvalue⟩ := h.stored x k' (hpublished x k' hx)
    refine ⟨hkey, u, v', ?_, hvalue⟩
    rw [Option.toList_some, reservations_concat_reserved]
    exact List.mem_append_left _ hmem
  · obtain ⟨l, hl, hmem⟩ := h.chains b
    refine ⟨l, hl, fun x => (hmem x).trans ?_⟩
    exact exists_congr fun k' => and_congr_left fun _ => ⟨Published.mono, hpublished x k'⟩
  · refine (h.delivered u k' x ?_).mono
    simpa using hx

/-- **The increment is taken back.** -/
theorem Inv.rollback (h : Inv cfg s trace) (hthreads : limit N + Fintype.card T ≤ maxRacing N)
    (hpc : s.pc t = .insert k v .rollback) :
    Inv cfg ⟨{ s.mem with
        currentElementCount := (s.mem.currentElementCount + (2 ^ 64 - 1)) % 2 ^ 64 },
      Function.update s.pc t .idle⟩ (trace ++ Option.toList (some (.full t))) := by
  have hupdate := @rollbacks_update N K V T t _ s.pc _ .idle
  rw [hpc] at hupdate
  simp only [PC.rolling, Bool.false_eq_true, if_false, if_true, Nat.add_zero] at hupdate
  have hcount := h.count
  have hbounded := h.bounded
  have hcard := @rollbacks_le_card N K V T _ s.pc
  have hmax : maxRacing N ≤ 2 ^ 32 + 1 := by
    unfold maxRacing
    split <;> omega
  refine h.quiet (Tame.count _ (by simp [Event.thread]) (quiet_full t)) (quiet_full t) trivial ?_
    (by rw [hpc]; rfl) rfl (by simp)
  show _ % _ = _
  omega

/-- **The element is published**: it becomes the first one of its bucket. -/
theorem Inv.publish (h : Inv cfg s trace) {next : ℤ} (hpc : s.pc t = .insert k v (.publish n next))
    (hnext : s.mem.bucket (cfg.whichBucket k) = next) :
    Inv cfg ⟨{ s.mem with
        bucket := Function.update s.mem.bucket (cfg.whichBucket k) (index n) },
      Function.update s.pc t .idle⟩ (trace ++ Option.toList (some (.published t n k))) := by
  have hstand := h.standing t
  rw [hpc] at hstand
  obtain ⟨hown, hkey, hvalue, hlink⟩ := hstand
  have htame : Tame t s.mem { s.mem with
      bucket := Function.update s.mem.bucket (cfg.whichBucket k) (index n) } trace
      (some (.published t n k)) := by
    refine ⟨by simp [Event.thread], fun _ => Or.inl ⟨rfl, rfl, rfl⟩, fun u x k' hx => ?_⟩
    obtain ⟨-, rfl, -⟩ : t = u ∧ n = x ∧ k = k' := by simpa using hx
    exact ⟨k, v, hown⟩
  have hres : reservations (trace ++ [.published t n k]) = reservations trace := by
    rw [reservations_append]
    exact List.append_nil _
  have hpublished : ∀ x k', Published (trace ++ [.published t n k]) x k' ↔
      Published trace x k' ∨ x = n ∧ k' = k := by
    intro x k'
    rw [published_concat]
    refine or_congr_right ⟨fun ⟨u, hu⟩ => ?_, fun ⟨hx, hk⟩ => ⟨t, by rw [hx, hk]⟩⟩
    cases hu
    exact ⟨rfl, rfl⟩
  refine ⟨by rw [Option.toList_some, hres]; exact h.numbered,
    by rw [Option.toList_some, hres]; exact h.bounded,
    by rw [Option.toList_some, hres]; exact h.count_update (by rw [hpc]; rfl),
    h.others htame trivial, fun u x k' v' hx => ?_, fun x k' hx => ?_, fun b => ?_,
    answered_append h.answered (by simp), fun u k' x hx => ?_⟩
  · -- who has a slot has published it, this thread just now, or is still working on it
    rw [Option.toList_some, hres] at hx
    rcases h.pending u x k' v' hx with ⟨k'', hk''⟩ | hslot
    · exact Or.inl ⟨k'', hk''.mono⟩
    · by_cases hut : u = t
      · rw [hut, hpc] at hslot
        obtain rfl : n = x := by simpa [PC.slot] using hslot
        exact Or.inl ⟨k, (hpublished n k).2 (Or.inr ⟨rfl, rfl⟩)⟩
      · refine Or.inr ?_
        show (Function.update s.pc t _ u).slot = _
        rw [Function.update_of_ne hut, hslot]
  · rw [Option.toList_some, hres]
    rcases (hpublished x k').1 hx with hx | ⟨rfl, rfl⟩
    · exact h.stored x k' hx
    · exact ⟨hkey, t, v, hown.1, hvalue⟩
  · -- the chain of the bucket gets the slot as its first one, the others are as before
    obtain ⟨l, hl, hmem⟩ := h.chains b
    by_cases hb : b = cfg.whichBucket k
    · rw [hb] at hl hmem ⊢
      refine ⟨n :: l, ?_, fun x => ?_⟩
      · have hfirst : Function.update s.mem.bucket (cfg.whichBucket k) (index n)
            (cfg.whichBucket k) = index n := Function.update_self _ _ _
        rw [hnext, ← hlink] at hl
        exact chain_cons.2 ⟨hfirst, hl⟩
      · rw [List.mem_cons, hmem x]
        constructor
        · rintro (rfl | ⟨k', hk', hw⟩)
          · exact ⟨k, (hpublished x k).2 (Or.inr ⟨rfl, rfl⟩), rfl⟩
          · exact ⟨k', (hpublished x k').2 (Or.inl hk'), hw⟩
        · rintro ⟨k', hk', hw⟩
          rcases (hpublished x k').1 hk' with hk' | ⟨rfl, rfl⟩
          · exact Or.inr ⟨k', hk', hw⟩
          · exact Or.inl rfl
    · refine ⟨l, ?_, fun x => ?_⟩
      · have hsame : Function.update s.mem.bucket (cfg.whichBucket k) (index n) b =
            s.mem.bucket b := Function.update_of_ne hb _ _
        rw [← hsame] at hl
        exact hl
      · rw [hmem x]
        refine exists_congr fun k' => and_congr_left fun hk' => ?_
        rw [Option.toList_some, hpublished]
        exact ⟨Or.inl, fun h => h.resolve_right (fun ⟨_, hkk⟩ => hb (hkk ▸ hk'.symm))⟩
  · refine (h.delivered u k' x ?_).mono
    simpa using hx

/-- **The loop of `find`** on an address it has just loaded. -/
theorem Inv.search (h : Inv cfg s trace) {current : ℤ} {p : PC N K V}
    (hpc : (s.pc t).rolling = false) (hslot : (s.pc t).slot = none)
    (hrun : searchAt t k current = some (p, e))
    {l : List (Fin N)} (hl : Chain s.mem.bucketNext index current l (-1))
    (hpub : ∀ x ∈ l, ∃ k', Published trace x k' ∧ cfg.whichBucket k' = cfg.whichBucket k)
    (hask : Asked t k trace → ∃ x ∈ l, s.mem.key x = k) :
    Inv cfg ⟨s.mem, Function.update s.pc t p⟩ (trace ++ e.toList) := by
  unfold searchAt at hrun
  split at hrun
  case isTrue hend =>
    obtain ⟨rfl, rfl⟩ : PC.idle = p ∧ some (.returned t k none) = e := by simpa using hrun
    have hquiet := quiet_returned (N := N) (V := V) t k none
    refine h.quiet (Tame.read (by simp [Event.thread]) hquiet) hquiet trivial
      (h.count_update hpc.symm) hslot.symm rfl (fun u k' r hr => ⟨fun hasked => ?_, fun x hx => ?_⟩)
    · obtain ⟨rfl, rfl, rfl⟩ : t = u ∧ k = k' ∧ none = r := by simpa using hr
      obtain ⟨x, hx, -⟩ := hask hasked
      cases l with
      | nil => exact absurd hx (by simp)
      | cons y l => exact absurd (hend.symm.trans hl.1) (end_ne_index y)
    · obtain ⟨-, -, rfl⟩ : t = u ∧ k = k' ∧ none = r := by simpa using hr
      cases hx
  case isFalse hend =>
    obtain ⟨n, hn, heq⟩ := Option.map_eq_some_iff.1 hrun
    obtain ⟨rfl, rfl⟩ : PC.find k (.compare n) = p ∧ none = e := by simpa using heq
    refine h.quiet (Tame.read (by simp) quiet_none) quiet_none ?_ (h.count_update hpc.symm)
      hslot.symm rfl (by simp)
    cases l with
    | nil => exact absurd hl hend
    | cons x l =>
        rw [hl.1, slot_index] at hn
        obtain rfl : x = n := by simpa using hn
        refine ⟨x :: l, ⟨rfl, hl.2⟩, fun y hy => ?_, fun hasked => ?_⟩
        · simpa using hpub y hy
        · exact hask (by simpa using hasked)

/-- A step of the running `insert` of a thread. -/
theorem Inv.insert (h : Inv cfg s trace) (hspare : Spare s trace)
    (hthreads : limit N + Fintype.card T ≤ maxRacing N) {fails : Bool} {i : InsertPC N} {p : PC N K V}
    (hpc : s.pc t = .insert k v i)
    (hrun : nextInsert cfg s.mem t fails k v i = some (m', p, e)) :
    Inv cfg ⟨m', Function.update s.pc t p⟩ (trace ++ e.toList) := by
  have hstand := h.standing t
  rw [hpc] at hstand
  cases i with
  | check =>
      simp only [nextInsert, Option.some.injEq] at hrun
      split at hrun <;> cases hrun
      · exact h.quiet (Tame.read (by simp [Event.thread]) (quiet_full t)) (quiet_full t) trivial
          (h.count_update (by rw [hpc]; rfl)) (by rw [hpc]; rfl) rfl (by simp)
      · exact h.quiet (Tame.read (by simp) quiet_none) quiet_none trivial
          (h.count_update (by rw [hpc]; rfl)) (by rw [hpc]; rfl) rfl (by simp)
  | reserve =>
      have hlt := h.count_lt hspare hthreads hpc
      simp only [nextInsert] at hrun
      split at hrun
      -- the counter is beyond the capacity: the insertion takes its increment back
      case isTrue hfull =>
        cases hrun
        exact h.overshoot hlt hpc hfull
      case isFalse hroom =>
        obtain ⟨n, hn, hinv⟩ := h.reserve hlt cfg.capacity_lt hpc hroom
        rw [hn] at hrun
        cases hrun
        exact hinv
  | rollback =>
      cases hrun
      exact h.rollback hthreads hpc
  | key n =>
      cases hrun
      refine h.quiet ⟨by simp, fun x => ?_, by simp⟩ quiet_none ?_
        (h.count_update (by rw [hpc]; rfl)) (by rw [hpc]; rfl) rfl (by simp)
      · by_cases hx : x = n
        · exact Or.inr ⟨k, v, hx ▸ hstand⟩
        · exact Or.inl ⟨Function.update_of_ne hx _ _, rfl, rfl⟩
      · rw [Option.toList_none, List.append_nil]
        exact ⟨hstand, Function.update_self _ _ _⟩
  | value n =>
      cases hrun
      obtain ⟨hown, hkey⟩ := hstand
      refine h.quiet ⟨by simp, fun x => ?_, by simp⟩ quiet_none ?_
        (h.count_update (by rw [hpc]; rfl)) (by rw [hpc]; rfl) rfl (by simp)
      · by_cases hx : x = n
        · exact Or.inr ⟨k, v, hx ▸ hown⟩
        · exact Or.inl ⟨rfl, Function.update_of_ne hx _ _, rfl⟩
      · rw [Option.toList_none, List.append_nil]
        exact ⟨hown, hkey, Function.update_self _ _ _⟩
  | load n =>
      rw [nextInsert_load] at hrun
      obtain ⟨current, -, heq⟩ := Option.map_eq_some_iff.1 hrun
      cases heq
      refine h.quiet (Tame.read (by simp) quiet_none) quiet_none ?_
        (h.count_update (by rw [hpc]; rfl)) (by rw [hpc]; rfl) rfl (by simp)
      rw [Option.toList_none, List.append_nil]
      exact hstand
  | link n next =>
      cases hrun
      obtain ⟨hown, hkey, hvalue⟩ := hstand
      refine h.quiet ⟨by simp, fun x => ?_, by simp⟩ quiet_none ?_
        (h.count_update (by rw [hpc]; rfl)) (by rw [hpc]; rfl) rfl (by simp)
      · by_cases hx : x = n
        · exact Or.inr ⟨k, v, hx ▸ hown⟩
        · exact Or.inl ⟨rfl, rfl, Function.update_of_ne hx _ _⟩
      · rw [Option.toList_none, List.append_nil]
        exact ⟨hown, hkey, hvalue, Function.update_self _ _ _⟩
  | publish n next =>
      rw [nextInsert_publish] at hrun
      obtain ⟨current, hcurrent, heq⟩ := Option.map_eq_some_iff.1 hrun
      split at heq
      -- the bucket still begins with the slot that the new one links to
      case isTrue hcas =>
        cases heq
        exact h.publish hpc ((Mem.bucketAt_eq_some.1 hcurrent).2.trans hcas.1)
      case isFalse =>
        cases heq
        refine h.quiet (Tame.read (by simp) quiet_none) quiet_none ?_
          (h.count_update (by rw [hpc]; rfl)) (by rw [hpc]; rfl) rfl (by simp)
        rw [Option.toList_none, List.append_nil]
        exact ⟨hstand.1, hstand.2.1, hstand.2.2.1⟩

/-- A step of the running `find` of a thread. -/
theorem Inv.find [DecidableEq K] (h : Inv cfg s trace) {i : FindPC N} {p : PC N K V}
    (hpc : s.pc t = .find k i) (hrun : nextFind cfg s.mem t k i = some (p, e)) :
    Inv cfg ⟨s.mem, Function.update s.pc t p⟩ (trace ++ e.toList) := by
  have hstand := h.standing t
  rw [hpc] at hstand
  have hroll : (s.pc t).rolling = false := by rw [hpc]; rfl
  have hslot : (s.pc t).slot = none := by rw [hpc]; rfl
  cases i with
  | load =>
      rw [nextFind_load] at hrun
      obtain ⟨current, hcurrent, hrun⟩ := Option.bind_eq_some_iff.1 hrun
      obtain ⟨l, hl, hmem⟩ := h.chains (cfg.whichBucket k)
      rw [(Mem.bucketAt_eq_some.1 hcurrent).2] at hl
      refine h.search hroll hslot hrun hl (fun x hx => (hmem x).1 hx) (fun hask => ?_)
      obtain ⟨n, hn⟩ := hask.published
      exact ⟨n, (hmem n).2 ⟨k, hn, rfl⟩, (h.stored n k hn).1⟩
  | compare n =>
      simp only [nextFind, Option.some.injEq] at hrun
      split at hrun
      case isTrue hkey =>
        cases hrun
        have hquiet := quiet_returned (V := V) t k (some n)
        refine h.quiet (Tame.read (by simp [Event.thread]) hquiet) hquiet trivial
          (h.count_update hroll.symm) (by rw [hpc]; rfl) rfl (fun u k' r hr => ?_)
        obtain ⟨-, rfl, rfl⟩ : t = u ∧ k = k' ∧ some n = r := by simpa using hr
        refine ⟨fun _ => by simp, fun x hx => ?_⟩
        obtain rfl : n = x := by simpa using hx
        obtain ⟨k', hk'⟩ := hstand.published
        rw [← hkey, (h.stored n k' hk').1]
        exact hk'
      case isFalse hkey =>
        cases hrun
        refine h.quiet (Tame.read (by simp) quiet_none) quiet_none ?_ (h.count_update hroll.symm)
          (by rw [hpc]; rfl) rfl (by simp)
        rw [Option.toList_none, List.append_nil]
        exact ⟨hstand, hkey⟩
  | next n =>
      obtain ⟨⟨l, hl, hpub, hask⟩, hkey⟩ := hstand
      cases l with
      | nil => exact absurd hl (index_ne_end n)
      | cons x l =>
          obtain rfl := index_injective hl.1
          refine h.search hroll hslot hrun hl.2 (fun y hy => hpub y (by simp [hy])) (fun hasked => ?_)
          obtain ⟨y, hy, hky⟩ := hask hasked
          rcases List.mem_cons.1 hy with rfl | hy
          · exact absurd hky hkey
          · exact ⟨y, hy, hky⟩

/-- **Every step keeps the invariant**, as long as there are not so many threads that the cast of the
    count could come round. -/
theorem Inv.step [DecidableEq K] {move : Move K V} (h : Inv cfg s trace) (hspare : Spare s trace)
    (hthreads : limit N + Fintype.card T ≤ maxRacing N) (hstep : step cfg s t move = some (s', e)) :
    Inv cfg s' (trace ++ e.toList) := by
  obtain ⟨⟨m', p, e'⟩, hnext, heq⟩ := Option.map_eq_some_iff.1 hstep
  cases heq
  cases hpc : s.pc t with
  | idle =>
      rw [hpc] at hnext
      cases move with
      | insert k v =>
          cases hnext
          exact h.quiet (Tame.read (by simp) quiet_none) quiet_none trivial
            (h.count_update (by rw [hpc]; rfl)) (by rw [hpc]; rfl) rfl (by simp)
      | find k =>
          cases hnext
          exact h.quiet (Tame.read (by simp [Event.thread]) (quiet_called t k)) (quiet_called t k)
            trivial (h.count_update (by rw [hpc]; rfl)) (by rw [hpc]; rfl) rfl (by simp)
      | go fails => cases hnext
  | insert k v i =>
      rw [hpc] at hnext
      cases move with
      | go fails => exact h.insert hspare hthreads hpc hnext
      | _ => cases hnext
  | find k i =>
      rw [hpc] at hnext
      cases move with
      | go fails =>
          obtain ⟨⟨p', e''⟩, hrun, heq⟩ := Option.map_eq_some_iff.1 hnext
          cases heq
          exact h.find hpc hrun
      | _ => cases hnext

/-! ## The spare thread -/

omit [Fintype T] [DecidableEq T] in
theorem nextFind_racing [DecidableEq K] {i : FindPC N} {p : PC N K V}
    (hrun : nextFind cfg m t k i = some (p, e)) : p.racing = false := by
  have hsearch : ∀ {current : ℤ}, searchAt t k current = some (p, e) → p.racing = false := by
    intro current h
    unfold searchAt at h
    split at h
    case isTrue =>
      cases h
      rfl
    case isFalse =>
      obtain ⟨n, -, heq⟩ := Option.map_eq_some_iff.1 h
      cases heq
      rfl
  cases i with
  | load =>
      rw [nextFind_load] at hrun
      obtain ⟨current, -, hrun⟩ := Option.bind_eq_some_iff.1 hrun
      exact hsearch hrun
  | compare n =>
      simp only [nextFind, Option.some.injEq] at hrun
      split at hrun <;> cases hrun <;> rfl
  | next n => exact hsearch hrun

omit [Fintype T] [DecidableEq T] in
/-- What a step does to the race for slots: nobody enters it once the table is full, and who has
    something to tell, such as a slot that was assigned, is out of it. -/
theorem next_racing [DecidableEq K] {move : Move K V} {p : PC N K V}
    (hnext : next cfg s.mem t (s.pc t) move = some (m', p, e)) :
    (p.racing = true → (s.pc t).racing = true ∨ s.mem.currentElementCount < N) ∧
      (e = none ∨ p.racing = false) := by
  have hout : ∀ p : PC N K V, p.racing = false →
      (p.racing = true → (s.pc t).racing = true ∨ s.mem.currentElementCount < N) ∧
        (e = none ∨ p.racing = false) :=
    fun p hp => ⟨fun h => absurd (hp.symm.trans h) Bool.false_ne_true, Or.inr hp⟩
  cases hpc : s.pc t with
  | idle =>
      rw [hpc] at hnext hout
      cases move with
      | go fails => cases hnext
      | _ =>
          cases hnext
          exact hout _ rfl
  | find k i =>
      rw [hpc] at hnext hout
      cases move with
      | go fails =>
          obtain ⟨⟨p', e'⟩, hrun, heq⟩ := Option.map_eq_some_iff.1 hnext
          cases heq
          exact hout _ (nextFind_racing hrun)
      | _ => cases hnext
  | insert k v i =>
      rw [hpc] at hnext hout
      cases move with
      | go fails =>
          cases i with
          | check =>
              simp only [next, nextInsert, Option.some.injEq] at hnext
              split at hnext <;> cases hnext
              · exact hout _ rfl
              · exact ⟨fun _ => Or.inr (by omega), Or.inl rfl⟩
          | reserve =>
              simp only [next, nextInsert] at hnext
              split at hnext
              case isTrue =>
                cases hnext
                exact ⟨fun _ => Or.inl rfl, Or.inl rfl⟩
              case isFalse =>
                obtain ⟨n, -, heq⟩ := Option.map_eq_some_iff.1 hnext
                cases heq
                exact hout _ rfl
          | load n =>
              rw [next, nextInsert_load] at hnext
              obtain ⟨current, -, heq⟩ := Option.map_eq_some_iff.1 hnext
              cases heq
              exact hout _ rfl
          | publish n q =>
              rw [next, nextInsert_publish] at hnext
              obtain ⟨current, -, heq⟩ := Option.map_eq_some_iff.1 hnext
              split at heq <;> cases heq <;> exact hout _ rfl
          | _ =>
              cases hnext
              exact hout _ rfl
      | _ => cases hnext

theorem Spare.step [DecidableEq K] {move : Move K V} (hspare : Spare s trace) (h : Inv cfg s trace)
    (hstep : step cfg s t move = some (s', e)) : Spare s' (trace ++ e.toList) := by
  obtain ⟨⟨m', p, e'⟩, hnext, heq⟩ := Option.map_eq_some_iff.1 hstep
  cases heq
  obtain ⟨henter, hleave⟩ := next_racing hnext
  intro hfull
  rcases hleave with rfl | hleft
  · rw [Option.toList_none, List.append_nil] at hfull
    obtain ⟨u, hu⟩ := hspare hfull
    refine ⟨u, ?_⟩
    show (Function.update s.pc t p u).racing = false
    by_cases hut : u = t
    · subst hut
      rw [Function.update_self]
      have hcount := h.count
      refine Bool.eq_false_iff.2 fun hp => ?_
      rcases henter hp with hracing | hroom
      · rw [hracing] at hu
        cases hu
      · omega
    · rwa [Function.update_of_ne hut]
  · refine ⟨t, ?_⟩
    show (Function.update s.pc t p t).racing = false
    rwa [Function.update_self]

end DeferredLru.HashFixed
