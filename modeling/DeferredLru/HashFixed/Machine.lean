import DeferredLru.Lib.Indices
import DeferredLru.Lib.Schedule
import DeferredLru.Lib.Trace

set_option autoImplicit false

/-! # `HashFixed` under threads

The lock-free table of `benchmark/src/containers/hash_fixed.h`, cut into its single shared accesses,
all sequentially consistent. A bucket is a chain of indices into `storage_` that ends in -1.

The element count is a 64-bit counter and an index a 32-bit integer, so `insert` numbers its element
by `static_cast<index_t>(current_element_count_++)`; both the wrap of the counter and the cast are
part of the model, since threads that find the table full raise the counter above the capacity until
they take it back. -/

namespace DeferredLru.HashFixed

open Intrusive

variable {N : ℕ} {K V T : Type}

/-! ## Indices -/

/-- The `size_t` that an `index_t` is converted to when it is compared with one. -/
def toSize (i : ℤ) : ℕ := (i % 2 ^ 64).toNat

/-! ## The table -/

/-- The template and constructor arguments of a table for `N` elements. The array `storage_` of `N`
    elements exists, so `N` fits an object size. -/
structure Arguments (N : ℕ) (K : Type) where
  hasher : K → ℕ
  loadFactor : ℕ
  loadFactor_pos : 1 ≤ loadFactor
  capacity_lt : N < 2 ^ 63

namespace Arguments

/-- `bucket_count_`. The load factor is a `double`, and so is the quotient that is rounded down; below
    2^53 elements this is the quotient of the integers. -/
def bucketCount (cfg : Arguments N K) : ℕ := N / cfg.loadFactor

/-- `whichBucket`, which returns an `int`; there is no remainder of a division by zero. -/
def whichBucket (cfg : Arguments N K) (k : K) : Option ℤ :=
  if cfg.bucketCount = 0 then none else some (toIndex (cfg.hasher k % cfg.bucketCount))

end Arguments

/-- Arguments that leave the table a bucket. -/
structure Config (N : ℕ) (K : Type) extends Arguments N K where
  loadFactor_le : loadFactor ≤ N

instance : CoeOut (Config N K) (Arguments N K) := ⟨Config.toArguments⟩

namespace Config

/-- What `whichBucket` returns. -/
def whichBucket (cfg : Config N K) (k : K) : ℤ := toIndex (cfg.hasher k % cfg.bucketCount)

theorem bucketCount_pos (cfg : Config N K) : 0 < cfg.bucketCount :=
  Nat.div_pos cfg.loadFactor_le cfg.loadFactor_pos

@[simp] theorem whichBucket_eq (cfg : Config N K) (k : K) :
    cfg.toArguments.whichBucket k = some (cfg.whichBucket k) :=
  if_neg cfg.bucketCount_pos.ne'

end Config

/-! ## Program counters -/

/-- `insert(k, v)`. -/
inductive InsertPC (N : ℕ) where
  | check
  | reserve
  | rollback
  | key (newelem : Fin N)
  | value (newelem : Fin N)
  | load (newelem : Fin N)
  | link (newelem : Fin N) (next : ℤ)
  | publish (newelem : Fin N) (next : ℤ)

/-- `find(k)`. -/
inductive FindPC (N : ℕ) where
  | load
  | compare (current : Fin N)
  | next (current : Fin N)

/-- Where a thread stands. -/
inductive PC (N : ℕ) (K V : Type) where
  | idle
  | insert (k : K) (v : V) (p : InsertPC N)
  | find (k : K) (p : FindPC N)

/-- The members of the table, with those of its slots. -/
structure Mem (N : ℕ) (K V : Type) where
  bucketNext : Fin N → ℤ
  key : Fin N → K
  value : Fin N → V
  bucket : ℤ → ℤ
  currentElementCount : ℕ

/-- `bucket_[b]`; there is nothing outside the array. -/
def Mem.bucketAt (m : Mem N K V) (cfg : Arguments N K) (b : ℤ) : Option ℤ :=
  if 0 ≤ b ∧ b < cfg.bucketCount then some (m.bucket b) else none

/-- The shared memory with the program counters of the threads. -/
structure State (N : ℕ) (K V T : Type) where
  mem : Mem N K V
  pc : T → PC N K V

/-- What a step of a thread tells about its call. -/
inductive Event (N : ℕ) (K V T : Type) where
  /-- A call of `find(k)`. -/
  | called (t : T) (k : K)
  /-- `find(k)` returned the element, or null. -/
  | returned (t : T) (k : K) (r : Option (Fin N))
  /-- `insert(k, v)` was assigned the slot. -/
  | reserved (t : T) (n : Fin N) (k : K) (v : V)
  /-- `insert` returned without storing anything. -/
  | full (t : T)
  /-- `insert` published the element, whose key is `k`, in its bucket. -/
  | published (t : T) (n : Fin N) (k : K)

/-- The thread whose call it is. -/
def Event.thread : Event N K V T → T
  | .called t _ => t
  | .returned t _ _ => t
  | .reserved t _ _ _ => t
  | .full t => t
  | .published t _ _ => t

/-! ## The steps of one thread -/

/-- The loop of `find`, with `current` just loaded. -/
def searchAt (t : T) (k : K) (current : ℤ) : Option (PC N K V × Option (Event N K V T)) :=
  if current = -1 then some (.idle, some (.returned t k none))
  else (slot current).map fun n => (.find k (.compare n), none)

/-- `fails`: the `compare_exchange_weak` fails spuriously. -/
def nextInsert (cfg : Arguments N K) (m : Mem N K V) (t : T) (fails : Bool) (k : K) (v : V) :
    InsertPC N → Option (Mem N K V × PC N K V × Option (Event N K V T))
  | .check =>
      some (if N ≤ m.currentElementCount then (m, .idle, some (.full t))
        else (m, .insert k v .reserve, none))
  | .reserve =>
      let newelem := toIndex m.currentElementCount
      let m := { m with currentElementCount := (m.currentElementCount + 1) % 2 ^ 64 }
      if N ≤ toSize newelem then some (m, .insert k v .rollback, none)
      else (slot newelem).map fun n => (m, .insert k v (.key n), some (.reserved t n k v))
  | .rollback =>
      some ({ m with currentElementCount := (m.currentElementCount + (2 ^ 64 - 1)) % 2 ^ 64 }, .idle,
        some (.full t))
  | .key n => some ({ m with key := Function.update m.key n k }, .insert k v (.value n), none)
  | .value n => some ({ m with value := Function.update m.value n v }, .insert k v (.load n), none)
  | .load n => do
      let wbuck ← cfg.whichBucket k
      let next ← m.bucketAt cfg wbuck
      some (m, .insert k v (.link n next), none)
  | .link n next =>
      some ({ m with bucketNext := Function.update m.bucketNext n next },
        .insert k v (.publish n next), none)
  | .publish n next => do
      let wbuck ← cfg.whichBucket k
      let current ← m.bucketAt cfg wbuck
      some (if current = next ∧ fails = false then
          ({ m with bucket := Function.update m.bucket wbuck (index n) }, .idle,
            some (.published t n k))
        else (m, .insert k v (.link n current), none))

/-- One access of `find(k)`; the last one tells what it returns. -/
def nextFind [DecidableEq K] (cfg : Arguments N K) (m : Mem N K V) (t : T) (k : K) :
    FindPC N → Option (PC N K V × Option (Event N K V T))
  | .load => do
      let wbuck ← cfg.whichBucket k
      let current ← m.bucketAt cfg wbuck
      searchAt t k current
  | .compare n =>
      some (if m.key n = k then (.idle, some (.returned t k (some n))) else (.find k (.next n), none))
  | .next n => searchAt t k (m.bucketNext n)

/-- What the scheduler chooses for a thread: the call it makes next, or one access of the running
    call. -/
inductive Move (K V : Type) where
  | insert (k : K) (v : V)
  | find (k : K)
  | go (fails : Bool)

variable [DecidableEq K]

/-- The call that an idle thread makes, or the next access of the running one. -/
def next (cfg : Arguments N K) (m : Mem N K V) (t : T) :
    PC N K V → Move K V → Option (Mem N K V × PC N K V × Option (Event N K V T))
  | .idle, .insert k v => some (m, .insert k v .check, none)
  | .idle, .find k => some (m, .find k .load, some (.called t k))
  | .insert k v p, .go fails => nextInsert cfg m t fails k v p
  | .find k p, .go _ => (nextFind cfg m t k p).map fun (pc, e) => (m, pc, e)
  | _, _ => none

variable [DecidableEq T]

/-- One step of thread `t`. -/
def step (cfg : Arguments N K) (s : State N K V T) (t : T) (move : Move K V) :
    Option (State N K V T × Option (Event N K V T)) :=
  (next cfg s.mem t (s.pc t) move).map fun (m, pc, e) => (⟨m, Function.update s.pc t pc⟩, e)

/-- `allocateMemory`, and threads that have not called anything. -/
def initial (N : ℕ) (K V T : Type) [Inhabited K] [Inhabited V] : State N K V T where
  mem := ⟨fun _ => 0, fun _ => default, fun _ => default, fun _ => -1, 0⟩
  pc _ := .idle

/-- The reachable states, with what happened so far, oldest first. -/
inductive Run [Inhabited K] [Inhabited V] (cfg : Arguments N K) :
    State N K V T → List (Event N K V T) → Prop
  | start : Run cfg (initial N K V T) []
  | step {s s' : State N K V T} {trace : List (Event N K V T)} {t : T} {move : Move K V}
      {e : Option (Event N K V T)} : Run cfg s trace → step cfg s t move = some (s', e) →
      Run cfg s' (trace ++ e.toList)

/-- The step of a schedule. -/
def labelled (cfg : Arguments N K) (s : State N K V T) (move : T × Move K V) :
    Option (Option (Event N K V T) × State N K V T) :=
  (step cfg s move.1 move.2).map Prod.swap

theorem Run.of_play [Inhabited K] [Inhabited V] (cfg : Arguments N K) (moves : List (T × Move K V))
    (good : State N K V T → List (Event N K V T) → Bool)
    (h : (play (labelled cfg) (fun _ _ => true) (initial N K V T) moves).any
      (fun r => good r.1 (r.2.filterMap id)) = true) :
    ∃ s trace, Run cfg s trace ∧ good s trace = true := by
  have hkept : ∀ (s : State N K V T) trace move e s', Run cfg s (trace.filterMap id) →
      labelled cfg s move = some (e, s') → true = true →
      Run cfg s' ((trace ++ [e]).filterMap id) := by
    intro s trace move e s' hrun hstep _
    obtain ⟨⟨s₁, e₁⟩, hnext, heq⟩ := Option.map_eq_some_iff.1 hstep
    cases heq
    rw [filterMap_concat]
    exact hrun.step hnext
  obtain ⟨s, trace, hrun, hgood⟩ := exists_of_play
    (P := fun s trace => Run cfg s (trace.filterMap id)) hkept Run.start moves
    (fun s trace => good s (trace.filterMap id)) h
  exact ⟨s, _, hrun, hgood⟩

omit [DecidableEq K] [DecidableEq T] in
/-- The `n` next accesses of the thread. -/
def goes (t : T) (n : ℕ) : List (T × Move K V) := List.replicate n (t, .go false)

end DeferredLru.HashFixed
