import DeferredLru.HashFixed.Machine
import DeferredLru.Lib.Chain
import DeferredLru.Lib.Tally
import DeferredLru.Lib.Trace
import Mathlib.Data.List.Range

set_option autoImplicit false

/-! # The invariant of `HashFixed`

The element count is the number of slots assigned so far plus the number of threads that are about to
take an increment back, and there is such a thread only once all slots are assigned. So a slot number
is never drawn twice (`Inv.numbered`), as long as there are so few threads that the count stays below
`2^32` and its cast to an index does not come round to zero.

An assigned slot belongs to its thread until it is published, and published elements never change.
What `Standing` says of a thread at its program counter is therefore kept by the steps of all others
(`Standing.stable`). -/

namespace DeferredLru.HashFixed

open Intrusive

variable {N : ℕ} {K V T : Type} {cfg : Config N K} {s : State N K V T} {m m' : Mem N K V}
  {trace trace' : List (Event N K V T)} {t u : T} {n : Fin N} {k : K} {v : V}

/-! ## What a trace tells -/

/-- The slots assigned so far, in this order: to which thread, and for which pair. -/
def reservations (trace : List (Event N K V T)) : List (T × Fin N × K × V) :=
  trace.filterMap fun e => match e with
    | .reserved t n k v => some (t, n, k, v)
    | _ => none

/-- The element was published, with the key `k`. -/
def Published (trace : List (Event N K V T)) (n : Fin N) (k : K) : Prop :=
  ∃ t, .published t n k ∈ trace

/-- The thread is in a call of `find(k)` that it made after an element with the key `k` had been
    published. -/
def Asked (t : T) (k : K) (trace : List (Event N K V T)) : Prop :=
  Since (fun past e => e = .called t k ∧ ∃ n, Published past n k)
    (fun e => ∃ k r, e = .returned t k r) trace

/-- The slot was assigned to the thread for this pair, and is not published yet. -/
def Owns (trace : List (Event N K V T)) (t : T) (n : Fin N) (k : K) (v : V) : Prop :=
  (t, n, k, v) ∈ reservations trace ∧ ∀ k, ¬ Published trace n k

theorem mem_reservations {r : T × Fin N × K × V} :
    r ∈ reservations trace ↔ .reserved r.1 r.2.1 r.2.2.1 r.2.2.2 ∈ trace := by
  obtain ⟨t, n, k, v⟩ := r
  rw [reservations, List.mem_filterMap]
  constructor
  · rintro ⟨e, he, heq⟩
    cases e <;> simp at heq
    obtain ⟨rfl, rfl, rfl, rfl⟩ := heq
    exact he
  · exact fun he => ⟨_, he, rfl⟩

theorem reservations_append :
    reservations (trace ++ trace') = reservations trace ++ reservations trace' :=
  List.filterMap_append

theorem reservations_concat_reserved :
    reservations (trace ++ [.reserved t n k v]) = reservations trace ++ [(t, n, k, v)] :=
  reservations_append

theorem published_concat {e : Event N K V T} :
    Published (trace ++ [e]) n k ↔ Published trace n k ∨ ∃ t, e = .published t n k := by
  unfold Published
  simp only [List.mem_append, List.mem_singleton, exists_or, eq_comm]

theorem Published.mono (h : Published trace n k) : Published (trace ++ trace') n k :=
  h.imp fun _ ht => List.mem_append_left _ ht

/-! ## The state -/

/-- The number of slots that can be assigned: larger indices are negative. -/
def limit (N : ℕ) : ℕ := min N (2 ^ 31)

/-- With how many assignable slots and threads together the cast of the count does not come round. One
    more thread can be spared where all slots are assignable: the one that gets the last of them. -/
def maxRacing (N : ℕ) : ℕ := if N ≤ 2 ^ 31 then 2 ^ 32 + 1 else 2 ^ 32

/-- The thread has raised the count and is about to take it back. -/
def PC.rolling : PC N K V → Bool
  | .insert _ _ .rollback => true
  | _ => false

/-- The thread is about to raise the count, or has raised it in vain. -/
def PC.racing : PC N K V → Bool
  | .insert _ _ .reserve => true
  | .insert _ _ .rollback => true
  | _ => false

/-- The slot that was assigned to the running `insert` and is not published yet. -/
def PC.slot : PC N K V → Option (Fin N)
  | .insert _ _ (.key n) => some n
  | .insert _ _ (.value n) => some n
  | .insert _ _ (.load n) => some n
  | .insert _ _ (.link n _) => some n
  | .insert _ _ (.publish n _) => some n
  | _ => none

/-- How many increments of the count are still to be taken back. -/
def rollbacks [Fintype T] (pc : T → PC N K V) : ℕ := tally (fun p => if p.rolling then 1 else 0) pc

/-- What a `find(k)` of the thread has ahead of it from the element `n` on: published elements of the
    key's bucket, among them one with the key if one was published before the call. -/
def Ahead (cfg : Config N K) (m : Mem N K V) (trace : List (Event N K V T)) (t : T) (k : K)
    (n : Fin N) : Prop :=
  ∃ l, Chain m.bucketNext index (index n) l (-1) ∧
    (∀ x ∈ l, ∃ k', Published trace x k' ∧ cfg.whichBucket k' = cfg.whichBucket k) ∧
    (Asked t k trace → ∃ x ∈ l, m.key x = k)

/-- What holds of a thread at its program counter. -/
def Standing (cfg : Config N K) (m : Mem N K V) (trace : List (Event N K V T)) (t : T) :
    PC N K V → Prop
  | .idle => True
  | .insert _ _ .check => True
  | .insert _ _ .reserve => True
  | .insert _ _ .rollback => limit N ≤ (reservations trace).length
  | .insert k v (.key n) => Owns trace t n k v
  | .insert k v (.value n) => Owns trace t n k v ∧ m.key n = k
  | .insert k v (.load n) => Owns trace t n k v ∧ m.key n = k ∧ m.value n = v
  | .insert k v (.link n _) => Owns trace t n k v ∧ m.key n = k ∧ m.value n = v
  | .insert k v (.publish n next) =>
      Owns trace t n k v ∧ m.key n = k ∧ m.value n = v ∧ m.bucketNext n = next
  | .find _ .load => True
  | .find k (.compare n) => Ahead cfg m trace t k n
  | .find k (.next n) => Ahead cfg m trace t k n ∧ m.key n ≠ k

/-- The invariant. -/
structure Inv [Fintype T] (cfg : Config N K) (s : State N K V T) (trace : List (Event N K V T)) :
    Prop where
  numbered : (reservations trace).map (fun r => r.2.1.val) = List.range (reservations trace).length
  bounded : (reservations trace).length ≤ limit N
  count : s.mem.currentElementCount = (reservations trace).length + rollbacks s.pc
  standing : ∀ t, Standing cfg s.mem trace t (s.pc t)
  pending : ∀ t n k v, (t, n, k, v) ∈ reservations trace →
    (∃ k', Published trace n k') ∨ (s.pc t).slot = some n
  stored : ∀ n k, Published trace n k → s.mem.key n = k ∧
    ∃ t v, (t, n, k, v) ∈ reservations trace ∧ s.mem.value n = v
  chains : ∀ b, ∃ l, Chain s.mem.bucketNext index (s.mem.bucket b) l (-1) ∧
    ∀ n, n ∈ l ↔ ∃ k, Published trace n k ∧ cfg.whichBucket k = b
  answered : ∀ past t k r rest, trace = past ++ .returned t k r :: rest → Asked t k past → r ≠ none
  delivered : ∀ t k n, .returned t k (some n) ∈ trace → Published trace n k

/-- Once all slots are assigned, not all threads raise the count in vain. -/
def Spare (s : State N K V T) (trace : List (Event N K V T)) : Prop :=
  N ≤ (reservations trace).length → ∃ t, (s.pc t).racing = false

/-! ## Threads that do not move -/

/-- What the step of another thread leaves alone: published elements and the thread's own one. -/
structure Undisturbed (t : T) (m m' : Mem N K V) (trace trace' : List (Event N K V T)) : Prop where
  published : ∀ n k, Published trace n k → m'.key n = m.key n ∧ m'.bucketNext n = m.bucketNext n
  own : ∀ n k v, Owns trace t n k v → Owns trace' t n k v ∧ m'.key n = m.key n ∧
    m'.value n = m.value n ∧ m'.bucketNext n = m.bucketNext n
  mono : ∀ n k, Published trace n k → Published trace' n k
  length : (reservations trace).length ≤ (reservations trace').length
  asked : ∀ k, Asked t k trace' → Asked t k trace

theorem Ahead.stable (h : Ahead cfg m trace t k n) (hu : Undisturbed t m m' trace trace') :
    Ahead cfg m' trace' t k n := by
  obtain ⟨l, hl, hpub, hask⟩ := h
  refine ⟨l, hl.congr (fun x hx => ?_), fun x hx => ?_, fun hask' => ?_⟩
  · obtain ⟨k', hk', -⟩ := hpub x hx
    exact (hu.published x k' hk').2
  · obtain ⟨k', hk', hb⟩ := hpub x hx
    exact ⟨k', hu.mono x k' hk', hb⟩
  · obtain ⟨x, hx, hkx⟩ := hask (hu.asked k hask')
    obtain ⟨k', hk', -⟩ := hpub x hx
    exact ⟨x, hx, (hu.published x k' hk').1.trans hkx⟩

/-- The element a `find` stands on is published. -/
theorem Ahead.published (h : Ahead cfg m trace t k n) : ∃ k', Published trace n k' := by
  obtain ⟨l, hl, hpub, -⟩ := h
  cases l with
  | nil => exact absurd hl (index_ne_end n)
  | cons x l =>
      obtain rfl := index_injective hl.1
      obtain ⟨k', hk', -⟩ := hpub n (by simp)
      exact ⟨k', hk'⟩

theorem Ahead.key_eq (h : Ahead cfg m trace t k n) (hu : Undisturbed t m m' trace trace') :
    m'.key n = m.key n := by
  obtain ⟨k', hk'⟩ := h.published
  exact (hu.published n k' hk').1

theorem Standing.stable {pc : PC N K V} (h : Standing cfg m trace t pc)
    (hu : Undisturbed t m m' trace trace') : Standing cfg m' trace' t pc := by
  cases pc with
  | idle => trivial
  | insert k v p =>
      cases p with
      | check => trivial
      | reserve => trivial
      | rollback => exact le_trans h hu.length
      | key n => exact (hu.own n k v h).1
      | value n =>
          obtain ⟨hown, hkey, -, -⟩ := hu.own n k v h.1
          exact ⟨hown, hkey.trans h.2⟩
      | load n =>
          obtain ⟨hown, hkey, hvalue, -⟩ := hu.own n k v h.1
          exact ⟨hown, hkey.trans h.2.1, hvalue.trans h.2.2⟩
      | link n next =>
          obtain ⟨hown, hkey, hvalue, -⟩ := hu.own n k v h.1
          exact ⟨hown, hkey.trans h.2.1, hvalue.trans h.2.2⟩
      | publish n next =>
          obtain ⟨hown, hkey, hvalue, hnext⟩ := hu.own n k v h.1
          exact ⟨hown, hkey.trans h.2.1, hvalue.trans h.2.2.1, hnext.trans h.2.2.2⟩
  | find k p =>
      cases p with
      | load => trivial
      | compare n => exact Ahead.stable h hu
      | next n =>
          refine ⟨Ahead.stable h.1 hu, ?_⟩
          rw [Ahead.key_eq h.1 hu]
          exact h.2

/-! ## The counter -/

section Counter

variable [Fintype T] {pc : T → PC N K V}

theorem rollbacks_lt_card (ht : (pc t).rolling = false) : rollbacks pc < Fintype.card T :=
  tally_lt_card (t := t) (fun p => by split <;> simp) (by rw [ht]; rfl)

theorem rollbacks_le_card : rollbacks pc ≤ Fintype.card T :=
  tally_le_card fun p => by split <;> simp

theorem rollbacks_eq_zero (h : ∀ t, (pc t).rolling = false) : rollbacks pc = 0 :=
  tally_eq_zero fun t => by rw [h t]; rfl

variable [DecidableEq T]

theorem rollbacks_update (p : PC N K V) :
    rollbacks (Function.update pc t p) + (if (pc t).rolling then 1 else 0) =
      rollbacks pc + if p.rolling then 1 else 0 :=
  tally_update (fun p => if p.rolling then 1 else 0) pc t p

end Counter

theorem toSize_toIndex {c : ℕ} (hc : c < 2 ^ 31) : toSize (toIndex c) = c := by
  rw [toIndex_of_lt hc, toSize]
  omega

/-- Past the limit, and before the cast comes round, no slot is assigned. -/
theorem le_toSize {c : ℕ} (hN : N < 2 ^ 63) (hlimit : limit N ≤ c) (hc : c < 2 ^ 32) :
    N ≤ toSize (toIndex c) := by
  unfold toSize toIndex
  unfold limit at hlimit
  split <;> omega

/-! ## One step -/

section Steps

variable {e : Option (Event N K V T)}

/-- A new last event of the trace. -/
theorem answered_append
    (h : ∀ past t k r rest, trace = past ++ .returned t k r :: rest → Asked t k past → r ≠ none)
    (he : ∀ t k r, .returned t k r ∈ e → Asked t k trace → r ≠ none) :
    ∀ past t k r rest, trace ++ e.toList = past ++ .returned t k r :: rest → Asked t k past →
      r ≠ none := by
  intro past t k r rest heq hask
  cases e with
  | none => exact h past t k r rest (by simpa using heq) hask
  | some x =>
      rcases concat_split heq with ⟨rfl, rfl, -⟩ | ⟨rest', rfl, -⟩
      · exact he t k r rfl hask
      · exact h past t k r rest' rfl hask

/-- The event assigns no slot and publishes nothing. -/
def Quiet (e : Option (Event N K V T)) : Prop :=
  ∀ x ∈ e, (∀ t n k v, x ≠ .reserved t n k v) ∧ ∀ t n k, x ≠ .published t n k

theorem Quiet.reservations (he : Quiet e) :
    HashFixed.reservations (trace ++ e.toList) = HashFixed.reservations trace := by
  rw [reservations_append]
  cases e with
  | none => exact List.append_nil _
  | some x =>
      have hx := (he x rfl).1
      cases x with
      | reserved t n k v => exact absurd rfl (hx t n k v)
      | _ => exact List.append_nil _

theorem Quiet.published (he : Quiet e) : Published (trace ++ e.toList) n k ↔ Published trace n k := by
  refine ⟨fun ⟨t, ht⟩ => ⟨t, ?_⟩, fun h => h.mono⟩
  rcases List.mem_append.1 ht with ht | ht
  · exact ht
  · exact absurd rfl ((he _ (Option.mem_toList.1 ht)).2 t n k)

variable [Fintype T]

/-- A slot is assigned once. -/
theorem Inv.owner_unique (h : Inv cfg s trace) {k' : K} {v' : V}
    (ht : (t, n, k, v) ∈ reservations trace) (hu : (u, n, k', v') ∈ reservations trace) :
    t = u ∧ k = k' ∧ v = v' := by
  have hdup : ((reservations trace).map (fun r => r.2.1.val)).Nodup := by
    rw [h.numbered]
    exact List.nodup_range
  have heq := List.inj_on_of_nodup_map hdup ht hu rfl
  simpa using heq

theorem Inv.lt_of_reserved (h : Inv cfg s trace) (ht : (t, n, k, v) ∈ reservations trace) :
    n.val < (reservations trace).length := by
  have hmem : n.val ∈ (reservations trace).map (fun r => r.2.1.val) :=
    List.mem_map.2 ⟨_, ht, rfl⟩
  rw [h.numbered] at hmem
  exact List.mem_range.1 hmem

/-- A step writes to elements its thread owns only, and publishes none but those. -/
structure Tame (t : T) (m m' : Mem N K V) (trace : List (Event N K V T))
    (e : Option (Event N K V T)) : Prop where
  thread : ∀ x ∈ e, x.thread = t
  writes : ∀ n, (m'.key n = m.key n ∧ m'.value n = m.value n ∧ m'.bucketNext n = m.bucketNext n) ∨
    ∃ k v, Owns trace t n k v
  publishes : ∀ u n k, .published u n k ∈ e → ∃ k' v, Owns trace t n k' v

theorem Tame.undisturbed (h : Inv cfg s trace) (hm : Tame t s.mem m' trace e) (hut : u ≠ t) :
    Undisturbed u s.mem m' trace (trace ++ e.toList) := by
  refine ⟨fun n k hn => ?_, fun n k v hn => ?_, fun n k hn => hn.mono, ?_, fun k hk => ?_⟩
  · rcases hm.writes n with hsame | ⟨k', v', hown⟩
    · exact ⟨hsame.1, hsame.2.2⟩
    · exact absurd hn (hown.2 k)
  · have hother : ∀ k' v', ¬ Owns trace t n k' v' := fun k' v' hown =>
      hut (h.owner_unique hn.1 hown.1).1
    refine ⟨⟨?_, fun k' hk' => ?_⟩,
      (hm.writes n).resolve_right (fun ⟨k', v', hown⟩ => hother k' v' hown)⟩
    · rw [reservations_append]
      exact List.mem_append_left _ hn.1
    · obtain ⟨w, hw⟩ := hk'
      rcases List.mem_append.1 hw with hw | hw
      · exact hn.2 k' ⟨w, hw⟩
      · obtain ⟨k'', v'', hown⟩ := hm.publishes w n k' (Option.mem_toList.1 hw)
        exact hother k'' v'' hown
  · rw [reservations_append, List.length_append]
    omega
  · cases e with
    | none => simpa using hk
    | some x =>
        rcases since_concat.1 hk with ⟨rfl, -⟩ | ⟨hk, -⟩
        · exact absurd (hm.thread _ rfl) hut
        · exact hk

theorem Inv.others [DecidableEq T] (h : Inv cfg s trace) (hm : Tame t s.mem m' trace e)
    {p : PC N K V} (hp : Standing cfg m' (trace ++ e.toList) t p) (u : T) :
    Standing cfg m' (trace ++ e.toList) u (Function.update s.pc t p u) := by
  by_cases hut : u = t
  · subst hut
    rwa [Function.update_self]
  · rw [Function.update_of_ne hut]
    exact (h.standing u).stable (hm.undisturbed h hut)

/-- **Steps that assign and publish nothing**: at most the counter changes, or an element of the
    thread's own. -/
theorem Inv.quiet [DecidableEq T] (h : Inv cfg s trace) (hm : Tame t s.mem m' trace e) (he : Quiet e)
    {p : PC N K V} (hp : Standing cfg m' (trace ++ e.toList) t p)
    (hcount : m'.currentElementCount =
      (reservations trace).length + rollbacks (Function.update s.pc t p))
    (hslot : p.slot = (s.pc t).slot) (hbucket : m'.bucket = s.mem.bucket)
    (hret : ∀ u k r, .returned u k r ∈ e → (Asked u k trace → r ≠ none) ∧
      ∀ n, r = some n → Published trace n k) :
    Inv cfg ⟨m', Function.update s.pc t p⟩ (trace ++ e.toList) := by
  have hres : reservations (trace ++ e.toList) = reservations trace := he.reservations
  -- published elements are not written to
  have hsame : ∀ n k, Published trace n k → m'.key n = s.mem.key n ∧ m'.value n = s.mem.value n ∧
      m'.bucketNext n = s.mem.bucketNext n := fun n k hn =>
    (hm.writes n).resolve_right (fun ⟨k', v', hown⟩ => hown.2 k hn)
  refine ⟨by rw [hres]; exact h.numbered, by rw [hres]; exact h.bounded, by rw [hres]; exact hcount,
    h.others hm hp, fun u n k v hn => ?_, fun n k hn => ?_, fun b => ?_,
    answered_append h.answered (fun u k r hr => (hret u k r hr).1), fun u k n hn => ?_⟩
  · rw [hres] at hn
    refine (h.pending u n k v hn).imp (fun ⟨k', hk'⟩ => ⟨k', hk'.mono⟩) (fun hpc => ?_)
    by_cases hut : u = t
    · subst hut
      show (Function.update s.pc u p u).slot = _
      rw [Function.update_self, hslot, hpc]
    · show (Function.update s.pc t p u).slot = _
      rw [Function.update_of_ne hut, hpc]
  · rw [he.published] at hn
    obtain ⟨hkey, u, v, hmem, hvalue⟩ := h.stored n k hn
    obtain ⟨hkey', hvalue', -⟩ := hsame n k hn
    rw [hres]
    exact ⟨hkey'.trans hkey, u, v, hmem, hvalue'.trans hvalue⟩
  · obtain ⟨l, hl, hmem⟩ := h.chains b
    refine ⟨l, ?_, fun n => ?_⟩
    · show Chain m'.bucketNext index (m'.bucket b) l (-1)
      rw [hbucket]
      refine hl.congr (fun x hx => ?_)
      obtain ⟨k, hk, -⟩ := (hmem x).1 hx
      exact (hsame x k hk).2.2
    · rw [hmem n]
      exact exists_congr fun k => and_congr_left fun _ => he.published.symm
  · rw [he.published]
    rcases List.mem_append.1 hn with hn | hn
    · exact h.delivered u k n hn
    · exact (hret u k _ (Option.mem_toList.1 hn)).2 n rfl

theorem Inv.count_update [DecidableEq T] (h : Inv cfg s trace) {p : PC N K V}
    (hroll : p.rolling = (s.pc t).rolling) :
    s.mem.currentElementCount = (reservations trace).length + rollbacks (Function.update s.pc t p) := by
  have hrollbacks := @rollbacks_update N K V T t _ s.pc _ p
  rw [hroll] at hrollbacks
  have := h.count
  omega

end Steps

end DeferredLru.HashFixed
