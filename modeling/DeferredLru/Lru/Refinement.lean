import DeferredLru.Lib.Recency
import DeferredLru.Lru.Operations

set_option autoImplicit false

/-! # `LRUCache` is the textbook cache

`Represents cfg s c`: the state `s` holds the textbook cache `c`. Its LRU list has the elements in the
order of the entries of `c` and its buckets have them newest first, so `find` meets the newest entry
with its key first. Every call does on the state what the textbook operation does on the cache
(`call_represents`), so a sequence of calls delivers and deletes the same (`exec_refines`,
`serve_eq`). -/

namespace DeferredLru.LruCache

open Intrusive Recency

variable {N : ℕ} {K V : Type} {cfg : Config N K} {s s' : State N K V} {a : Lists N} {c : Cache K V}

/-- The state `s` represents the textbook cache `c`: the lists are intact, they share all slots, and
    they hold the entries of `c`. -/
def Represents (cfg : Config N K) (s : State N K V) (c : Cache K V) : Prop :=
  ∃ a stamp, Rep cfg s a ∧ Stores c a.lru stamp s.key s.value cfg.whichBucket a.bucket

theorem Represents.length_le (h : Represents cfg s c) : c.order.length ≤ N := by
  obtain ⟨a, stamp, hrep, hstores⟩ := h
  rw [hstores.length]
  exact hrep.length_le

/-! ## The initial state -/

theorem initialState_empty [Inhabited K] [Inhabited V] (d i : ℕ) (hd : i + d = N) :
    Chain (initialState N K V).listNext index (if i < N then (i : ℤ) else -1)
      ((List.finRange N).drop i) (-1) := by
  induction d generalizing i with
  | zero =>
      rw [if_neg (by omega), List.drop_eq_nil_of_le (by rw [List.length_finRange]; omega)]
      rfl
  | succ d ih =>
      have hi : i < N := by omega
      rw [if_pos hi, List.drop_eq_getElem_cons (by rw [List.length_finRange]; exact hi),
        List.getElem_finRange]
      refine ⟨by simp [index], ?_⟩
      have hgo := ih (i + 1) (by omega)
      simpa [initialState] using hgo

theorem initialState_represents [Inhabited K] [Inhabited V] (cfg : Config N K) :
    Represents cfg (initialState N K V) Cache.empty := by
  refine ⟨⟨[], List.finRange N, fun _ => []⟩, fun _ => 0, ⟨⟨⟨⟨rfl, trivial⟩, rfl, ?_, ?_⟩,
    fun _ _ => ⟨rfl, trivial⟩, by simp⟩, rfl, rfl⟩, ⟨rfl, List.nodup_nil, by simp, by simp, by simp,
    by simp⟩⟩
  · have hN := cfg.two_le
    have hchain := initialState_empty (K := K) (V := V) N 0 (Nat.zero_add N)
    simpa [initialState, show 0 < N by omega] using hchain
  · exact List.Perm.refl _

theorem allocateMemory_eq [Inhabited K] [Inhabited V] (cfg : Config N K) :
    allocateMemory cfg = some (initialState N K V, checked cfg true) := by
  obtain ⟨a, stamp, hrep, -⟩ := initialState_represents (V := V) cfg
  have hcheck := assertCoherent_spec hrep.toLinks
  rw [hrep.coherent] at hcheck
  rw [allocateMemory, if_pos ⟨cfg.capacity_lt.le, cfg.bucketCount_lt⟩, hcheck]
  rfl

/-! ## One call -/

/-- A call of one of the two functions that take the lock. -/
inductive Call (K V : Type) where
  | find (k : K)
  | insert (k : K) (v : V)

/-- What the consumer is assigned, and what is handed to `onDelete`. -/
structure Result (K V : Type) where
  delivered : Option V
  deleted : List (K × V)

/-- The pairs handed to `onDelete`. -/
def deletions (events : List (Event K V)) : List (K × V) :=
  events.filterMap fun e => match e with
    | .onDelete k v => some (k, v)
    | _ => none

@[simp] theorem deletions_append (events events' : List (Event K V)) :
    deletions (events ++ events') = deletions events ++ deletions events' :=
  List.filterMap_append

@[simp] theorem deletions_checked (ok : Bool) : deletions (K := K) (V := V) (checked cfg ok) = [] := by
  unfold checked
  split <;> rfl

@[simp] theorem deletions_assert (ok : Bool) :
    deletions (K := K) (V := V) (assert cfg.toArguments ok) = [] := by
  unfold assert
  split <;> rfl

/-- No `assert(coherent())` failed. -/
def AllCoherent (events : List (Event K V)) : Prop := ∀ ok, .coherent ok ∈ events → ok = true

@[simp] theorem allCoherent_append {events events' : List (Event K V)} :
    AllCoherent (events ++ events') ↔ AllCoherent events ∧ AllCoherent events' := by
  simp only [AllCoherent, List.mem_append, or_imp, forall_and]

theorem allCoherent_of {events : List (Event K V)}
    (h : ∀ e ∈ events, e = .assertion true ∨ e = .coherent true) : AllCoherent events := by
  intro ok hok
  rcases h _ hok with he | he
  · cases he
  · simpa using he

theorem deletions_of {events : List (Event K V)} {ok : Bool}
    (h : ∀ e ∈ events, e = .assertion true ∨ e = .coherent ok) : deletions events = [] := by
  refine List.filterMap_eq_nil_iff.2 (fun e he => ?_)
  rcases h e he with rfl | rfl <;> rfl

@[simp] theorem allCoherent_nil : AllCoherent ([] : List (Event K V)) := fun _ hok => by cases hok

@[simp] theorem allCoherent_onDelete {k : K} {v : V} {events : List (Event K V)} :
    AllCoherent (.onDelete k v :: events) ↔ AllCoherent events := by
  simp [AllCoherent]

@[simp] theorem allCoherent_assert (ok : Bool) :
    AllCoherent (K := K) (V := V) (assert cfg.toArguments ok) :=
  fun _ hok => by cases mem_assert hok

theorem allCoherent_checked {ok : Bool} (hdebug : cfg.enableDebug = true) :
    AllCoherent (K := K) (V := V) (checked cfg ok) ↔ ok = true := by
  simp [AllCoherent, checked, hdebug]

@[simp] theorem deletions_onDelete {k : K} {v : V} {events : List (Event K V)} :
    deletions (.onDelete k v :: events) = (k, v) :: deletions events := rfl

@[simp] theorem deletions_nil : deletions ([] : List (Event K V)) = [] := rfl

theorem insert_represents {fuel : ℕ} (h : Represents cfg s c) (hfuel : N < fuel) (k : K) (v : V) :
    ∃ s' events, insert cfg fuel s k v = some (s', events) ∧ Represents cfg s' (c.insert N k v) ∧
      deletions events = (c.dropped N).map Recency.Entry.pair ∧ (cfg.enableDebug = true →
        (AllCoherent events ↔ (N ≤ s.currentElementCount → s.lruListHead = N - 1))) := by
  obtain ⟨a, stamp, hrep, hstores⟩ := h
  have hN := cfg.two_le
  have hlen := hstores.length
  have hpos : 0 < fuel := by omega
  have hone : 1 < fuel := by omega
  rcases lt_or_eq_of_le hrep.length_le with hroom | hfull
  · obtain ⟨x, s', hx, hrun, hrep', hkey, hvalue⟩ := insert_room hrep hroom hpos k v
    have hdrop : c.drop N = c := if_neg (by omega)
    refine ⟨s', _, hrun, ⟨_, Function.update stamp x c.clock, hrep', ?_⟩, ?_,
      fun _ => iff_of_true ?_ (fun hle => ?_)⟩
    · rw [hkey, hvalue, Cache.insert, hdrop]
      exact hstores.push hx k v
    · rw [Cache.dropped, if_neg (by omega)]
      simp
    · have hcheck : AllCoherent (K := K) (V := V) (checked cfg true) := fun ok hok => by
        simpa using mem_checked hok
      simp [hcheck]
    · have := hrep.count
      omega
  · obtain ⟨x, lru, hlru⟩ : ∃ x lru, a.lru = x :: lru :=
      List.exists_cons_of_ne_nil (fun hnil => by rw [hnil, List.length_nil] at hfull; omega)
    obtain ⟨s', hrun, hrep', hkey, hvalue⟩ := insert_full hrep hlru hfull hone k v
    have hlen' : lru.length + 1 = N := by
      rw [hlru, List.length_cons] at hfull
      exact hfull
    have hxnot : x ∉ lru := by
      have := hrep.lists.lru_nodup
      rw [hlru] at this
      exact (List.nodup_cons.1 this).1
    rw [hlru] at hstores
    refine ⟨s', _, hrun, ⟨_, Function.update stamp x (c.drop N).clock, hrep', ?_⟩, ?_,
      fun hdebug => ?_⟩
    · rw [hkey, hvalue]
      show Stores _ (a.lru.tail ++ [x]) _ _ _ _ _
      rw [hlru, List.tail_cons]
      exact (hstores.drop (by omega)).push hxnot k v
    · rw [hstores.dropped (by omega)]
      simp
    · -- the one check that can fail is the one between the eviction and the insertion
      have hlast := coherentAt_evicted hrep hlru hfull
      have hcount : N ≤ s.currentElementCount := by rw [hrep.count, hfull]
      have hhead : s.lruListHead = index x := by
        have := hrep.lists.order.forward
        rw [hlru] at this
        exact this.1
      have hindex : index x = (N : ℤ) - 1 ↔ x.val = N - 1 := by
        unfold index
        omega
      simp only [allCoherent_append, allCoherent_onDelete, allCoherent_assert, allCoherent_nil,
        allCoherent_checked hdebug, and_true, true_and]
      rw [hlast, hhead, hindex]
      exact ⟨fun hx _ => hx, fun hx => hx hcount⟩

variable [DecidableEq K]

theorem find_represents [DecidableEq V] {fuel : ℕ} (h : Represents cfg s c) (hfuel : N < fuel) (k : K) :
    ∃ s' events, find cfg fuel s k = some ((c.lookup k).1, s', events) ∧
      Represents cfg s' (c.lookup k).2 ∧ deletions events = [] ∧ AllCoherent events ∧
      ((c.lookup k).1 = none → s' = s) := by
  obtain ⟨a, stamp, hrep, hstores⟩ := h
  have hnewest := hstores.newest k
  cases hk : (a.bucket (cfg.whichBucket k)).find? (fun n => s.key n = k) with
  | none =>
      rw [hk, Option.map_none] at hnewest
      have hrun := find_miss hrep.toLinks hfuel hk
      rw [hrep.coherent] at hrun
      have hevents : ∀ e ∈ assert cfg.toArguments true ++ checked (K := K) (V := V) cfg true,
          e = .assertion true ∨ e = .coherent true :=
        fun e he => (List.mem_append.1 he).imp mem_assert mem_checked
      refine ⟨s, _, ?_, ?_, deletions_of hevents, allCoherent_of hevents, fun _ => rfl⟩
      · rw [hrun, Cache.lookup, hnewest]
      · rw [Cache.lookup, hnewest]
        exact ⟨a, stamp, hrep, hstores⟩
  | some n =>
      rw [hk, Option.map_some] at hnewest
      obtain ⟨s', events, hrun, hlinks, hkey, hvalue, hcount, hevents⟩ :=
        find_hit hrep.toLinks hfuel hk
      rw [hrep.coherent] at hevents
      have hn : n ∈ a.lru := ((hrep.mem_bucket _ n).1 (List.mem_of_find?_eq_some hk)).1
      have hlen : (a.touch n).lru.length = a.lru.length :=
        ((List.perm_append_singleton n _).trans (List.perm_cons_erase hn).symm).length_eq
      refine ⟨s', events, ?_, ?_, deletions_of hevents, allCoherent_of hevents, fun hnone => ?_⟩
      · rw [hrun, Cache.lookup, hnewest]
      · rw [Cache.lookup, hnewest]
        -- a hit reorders the LRU list, and the stamps of the insertions stay
        refine ⟨a.touch n, stamp, ⟨hlinks, ?_, ?_⟩, ?_⟩
        · rw [hcount, hrep.count, hlen]
        · rw [hlen]
          exact hrep.filling
        · rw [hkey, hvalue]
          exact hstores.touch hn
      · rw [Cache.lookup, hnewest] at hnone
        cases hnone

/-! ## Sequences of calls -/

/-- One call, with its result and the events on the way. -/
def call (cfg : Arguments N K) (fuel : ℕ) (s : State N K V) :
    Call K V → Option (Result K V × State N K V × List (Event K V))
  | .find k => do
      let (delivered, s, events) ← find cfg fuel s k
      some (⟨delivered, deletions events⟩, s, events)
  | .insert k v => do
      let (s, events) ← insert cfg fuel s k v
      some (⟨none, deletions events⟩, s, events)

/-- The same call of the textbook cache. -/
def textbook [DecidableEq V] (N : ℕ) (c : Cache K V) : Call K V → Result K V × Cache K V
  | .find k => (⟨(c.lookup k).1, []⟩, (c.lookup k).2)
  | .insert k v => (⟨none, (c.dropped N).map Recency.Entry.pair⟩, c.insert N k v)

theorem call_represents [DecidableEq V] {fuel : ℕ} (h : Represents cfg s c) (hfuel : N < fuel)
    (op : Call K V) : ∃ s' events, call cfg fuel s op = some ((textbook N c op).1, s', events) ∧
      Represents cfg s' (textbook N c op).2 := by
  cases op with
  | find k =>
      obtain ⟨s', events, hrun, hrep, hdel, -⟩ := find_represents h hfuel k
      refine ⟨s', events, ?_, hrep⟩
      rw [call, hrun]
      simp [textbook, hdel]
  | insert k v =>
      obtain ⟨s', events, hrun, hrep, hdel, -⟩ := insert_represents h hfuel k v
      refine ⟨s', events, ?_, hrep⟩
      rw [call, hrun]
      simp [textbook, hdel]

/-- Calls, one after the other. -/
def calls (cfg : Arguments N K) (fuel : ℕ) : State N K V → List (Call K V) →
    Option (List (Result K V) × State N K V)
  | s, [] => some ([], s)
  | s, op :: ops => do
      let (r, s, _) ← call cfg fuel s op
      let (rs, s) ← calls cfg fuel s ops
      some (r :: rs, s)

/-- A fresh cache and then the calls. -/
def exec [Inhabited K] [Inhabited V] (cfg : Arguments N K) (fuel : ℕ) (ops : List (Call K V)) :
    Option (List (Result K V) × State N K V) := do
  let (s, _) ← allocateMemory cfg
  calls cfg fuel s ops

/-- The same calls of the textbook cache. -/
def textbookCalls [DecidableEq V] (N : ℕ) : Cache K V → List (Call K V) →
    List (Result K V) × Cache K V
  | c, [] => ([], c)
  | c, op :: ops =>
      ((textbook N c op).1 :: (textbookCalls N (textbook N c op).2 ops).1,
        (textbookCalls N (textbook N c op).2 ops).2)

theorem calls_represents [DecidableEq V] {fuel : ℕ} (h : Represents cfg s c) (hfuel : N < fuel)
    (ops : List (Call K V)) : ∃ s', calls cfg fuel s ops = some ((textbookCalls N c ops).1, s') ∧
      Represents cfg s' (textbookCalls N c ops).2 := by
  induction ops generalizing s c with
  | nil => exact ⟨s, rfl, h⟩
  | cons op ops ih =>
      obtain ⟨s₁, events, hrun, hrep⟩ := call_represents h hfuel op
      obtain ⟨s₂, hrest, hrep₂⟩ := ih hrep
      refine ⟨s₂, ?_, hrep₂⟩
      rw [calls, hrun]
      simp only [Option.bind_eq_bind, Option.bind_some, hrest, textbookCalls]

/-- **Refinement.** Whatever the calls, the cache returns from each of them, delivers and deletes what
    the textbook cache does, and represents it afterwards; that has at most `N` entries. -/
theorem exec_refines [Inhabited K] [Inhabited V] [DecidableEq V] (cfg : Config N K)
    (ops : List (Call K V)) {fuel : ℕ} (hfuel : N < fuel) :
    ∃ s, exec cfg fuel ops = some ((textbookCalls N Cache.empty ops).1, s) ∧
      Represents cfg s (textbookCalls N Cache.empty ops).2 ∧
      (textbookCalls N (Cache.empty : Cache K V) ops).2.order.length ≤ N := by
  obtain ⟨s, hrun, hrep⟩ := calls_represents (initialState_represents cfg) hfuel ops
  refine ⟨s, ?_, hrep, hrep.length_le⟩
  rw [exec, allocateMemory_eq]
  exact hrun

/-- Two elements, one bucket. -/
def twoElements : Config 2 ℕ where
  hasher := id
  ignoreBitsInHash := 0
  hashTableLoadFactor := 2
  enableDebug := true
  two_le := by decide
  loadFactor_pos := Nat.two_pos
  loadFactor_le := by decide
  capacity_lt := by decide

theorem exec_refines_twoElements : ∃ s : State 2 ℕ ℕ,
    exec twoElements 3 [.insert 1 10, .insert 1 11, .find 1, .insert 2 20] =
      some ((textbookCalls 2 Cache.empty [.insert 1 10, .insert 1 11, .find 1, .insert 2 20]).1, s) ∧
    Represents twoElements s
      (textbookCalls 2 Cache.empty [.insert 1 10, .insert 1 11, .find 1, .insert 2 20]).2 ∧
    (textbookCalls 2 (Cache.empty : Cache ℕ ℕ)
      [.insert 1 10, .insert 1 11, .find 1, .insert 2 20]).2.order.length ≤ 2 :=
  exec_refines twoElements _ (by decide)

theorem one_le_beyondInt : 1 ≤ 2 ^ 31 + 1 := Nat.le_add_left 1 _

/-- More elements than an `int` numbers, and as many buckets. -/
def beyondInt : Arguments (2 ^ 31 + 1) ℕ := ⟨id, 0, 1, false, Nat.one_pos⟩

theorem bucketCount_beyondInt : beyondInt.bucketCount = 2 ^ 31 + 1 := Nat.div_one _

/-- The loop over `storage_` overflows. -/
theorem allocateMemory_beyondInt : allocateMemory (V := ℕ) beyondInt = none :=
  if_neg fun h => Nat.not_succ_le_self _ h.1

theorem whichBucket_beyondInt : beyondInt.whichBucket (2 ^ 31) = some (-2 ^ 31) := by
  have hhash : beyondInt.hasher (2 ^ 31) >>> beyondInt.ignoreBitsInHash = 2 ^ 31 := rfl
  rw [Arguments.whichBucket, bucketCount_beyondInt,
    if_neg (Nat.one_le_iff_ne_zero.1 one_le_beyondInt), hhash,
    Nat.mod_eq_of_lt (Nat.lt_succ_self _), toIndex_two_pow]

/-- Whatever the state, the access to the bucket leaves the array. -/
theorem find_beyondInt (fuel : ℕ) (s : State (2 ^ 31 + 1) ℕ ℕ) :
    find beyondInt fuel s (2 ^ 31) = none := by
  have hout : beyondInt.bucketSlot (-2 ^ 31) = none := if_neg fun h => absurd h.1 (by decide)
  simp only [find, whichBucket_beyondInt, hout, Option.bind_eq_bind, Option.bind_some,
    Option.bind_none]

/-- **Without the bound on the elements** there is a cache that never starts; and if it did, it could
    not find all keys. -/
theorem exec_not_refines : 1 ≤ beyondInt.bucketCount ∧ ∀ fuel,
    exec (V := ℕ) beyondInt fuel [.find (2 ^ 31)] = none ∧
      ∀ s : State (2 ^ 31 + 1) ℕ ℕ, find beyondInt fuel s (2 ^ 31) = none := by
  refine ⟨?_, fun fuel => ⟨?_, find_beyondInt fuel⟩⟩
  · rw [bucketCount_beyondInt]
    exact one_le_beyondInt
  · rw [exec, allocateMemory_beyondInt]
    rfl

/-! ## Memoized calls -/

theorem consumeCachedOrCompute_represents [DecidableEq V] {fuel : ℕ} (h : Represents cfg s c)
    (hfuel : N < fuel) (k : K) (x : V) :
    ∃ s' events, consumeCachedOrCompute cfg fuel s k x =
        some ((c.consume N k x).1.hit, (c.consume N k x).1.delivered, s', events) ∧
      Represents cfg s' (c.consume N k x).2 ∧ deletions events = (c.consume N k x).1.deleted := by
  obtain ⟨s₁, events₁, hfind, hrep₁, hdel₁, -⟩ := find_represents h hfuel k
  cases hlookup : c.lookup k with
  | mk r c₁ =>
      rw [hlookup] at hfind hrep₁
      cases r with
      | some v =>
          refine ⟨s₁, events₁, ?_, ?_, ?_⟩
          · rw [consumeCachedOrCompute, hfind, Cache.consume, hlookup]
            rfl
          · rw [Cache.consume, hlookup]
            exact hrep₁
          · rw [Cache.consume, hlookup]
            exact hdel₁
      | none =>
          obtain ⟨s₂, events₂, hinsert, hrep₂, hdel₂, -⟩ := insert_represents hrep₁ hfuel k x
          refine ⟨s₂, events₁ ++ events₂, ?_, ?_, ?_⟩
          · rw [consumeCachedOrCompute, hfind, Cache.consume, hlookup]
            simp [hinsert]
          · rw [Cache.consume, hlookup]
            exact hrep₂
          · rw [Cache.consume, hlookup, deletions_append, hdel₁, hdel₂]
            rfl

/-- What the callers and the deletion policy see of memoized calls, one after the other. -/
def serve (cfg : Arguments N K) (fuel : ℕ) : State N K V → List (K × V) → Option (List (Served K V))
  | _, [] => some []
  | s, (k, x) :: rest => do
      let (hit, delivered, s, events) ← consumeCachedOrCompute cfg fuel s k x
      let served ← serve cfg fuel s rest
      some (⟨hit, delivered, deletions events⟩ :: served)

theorem serve_eq [DecidableEq V] {fuel : ℕ} (h : Represents cfg s c) (hfuel : N < fuel)
    (requests : List (K × V)) : serve cfg fuel s requests = some (c.serve N requests) := by
  induction requests generalizing s c with
  | nil => rfl
  | cons request requests ih =>
      obtain ⟨k, x⟩ := request
      obtain ⟨s', events, hrun, hrep, hdel⟩ := consumeCachedOrCompute_represents h hfuel k x
      rw [serve, hrun, Cache.serve]
      simp only [Option.bind_eq_bind, Option.bind_some, ih hrep, hdel]

theorem serve_beyondInt (fuel : ℕ) (s : State (2 ^ 31 + 1) ℕ ℕ) :
    serve beyondInt fuel s [(2 ^ 31, 10)] = none := by
  rw [serve, consumeCachedOrCompute, find_beyondInt]
  rfl

end DeferredLru.LruCache
