import Mathlib.Data.List.MinMax
import Mathlib.Data.List.Nodup

set_option autoImplicit false

/-! # The textbook LRU cache

A cache is a list of entries, least recently used first. An entry carries the stamp of its insertion,
so that of several entries with one key there is a newest. A lookup returns the newest entry with its
key and moves it to the end; an insertion appends an entry, after the first one is dropped if the
cache is full.

`Stores` says how a data structure made of nodes holds such a cache: the nodes stand in the order of
their entries, and those of each hash value form a chain, newest entry first. Its lemmas are the ways
in which an operation on the nodes follows the operation on the entries; `Stores.newest` is the
lookup, a search of one chain. -/

namespace Recency

/-- A pair with the stamp of its insertion. -/
structure Entry (K V : Type*) where
  stamp : ℕ
  key : K
  value : V
  deriving DecidableEq

variable {K V ι : Type*}

/-- The key and the value. -/
def Entry.pair (e : Entry K V) : K × V := (e.key, e.value)

/-- The entries, least recently used first, and the stamp of the next one. -/
structure Cache (K V : Type*) where
  order : List (Entry K V)
  clock : ℕ

namespace Cache

/-- A cache with no entries. -/
def empty : Cache K V := ⟨[], 0⟩

/-- The most recently inserted entry with the key `k`. -/
def newest [DecidableEq K] (c : Cache K V) (k : K) : Option (Entry K V) :=
  (c.order.filter (fun e => e.key = k)).argmax Entry.stamp

/-- Move an entry to the end. -/
def touch [DecidableEq K] [DecidableEq V] (c : Cache K V) (e : Entry K V) : Cache K V :=
  { c with order := c.order.erase e ++ [e] }

/-- The value of the newest entry with the key, which becomes the most recently used one. -/
def lookup [DecidableEq K] [DecidableEq V] (c : Cache K V) (k : K) : Option V × Cache K V :=
  match c.newest k with
  | none => (none, c)
  | some e => (some e.value, c.touch e)

/-- What an insertion into a cache with room for `capacity` entries drops. -/
def dropped (capacity : ℕ) (c : Cache K V) : List (Entry K V) :=
  if capacity ≤ c.order.length then c.order.take 1 else []

/-- Drop the least recently used entry if there is no room. -/
def drop (capacity : ℕ) (c : Cache K V) : Cache K V :=
  if capacity ≤ c.order.length then { c with order := c.order.tail } else c

/-- Append a new entry. -/
def push (c : Cache K V) (k : K) (v : V) : Cache K V :=
  ⟨c.order ++ [⟨c.clock, k, v⟩], c.clock + 1⟩

/-- Make room and append a new entry. -/
def insert (capacity : ℕ) (c : Cache K V) (k : K) (v : V) : Cache K V := (c.drop capacity).push k v

end Cache

/-! ## What a cache holds -/

namespace Cache

/-- A lookup moves an entry. -/
theorem lookup_perm [DecidableEq K] [DecidableEq V] (c : Cache K V) (k : K) :
    (c.lookup k).2.order.Perm c.order := by
  cases hk : c.newest k with
  | none =>
      rw [lookup, hk]
  | some e =>
      have he : e ∈ c.order := by
        rw [newest] at hk
        exact List.mem_of_mem_filter (List.argmax_mem hk)
      rw [lookup, hk]
      exact (List.perm_append_singleton e _).trans (List.perm_cons_erase he).symm

/-- An insertion appends a pair and drops those it returns from the front. -/
theorem insert_pairs (capacity : ℕ) (c : Cache K V) (k : K) (v : V) :
    (c.dropped capacity ++ (c.insert capacity k v).order).map Entry.pair =
      c.order.map Entry.pair ++ [(k, v)] := by
  have hdrop : c.dropped capacity ++ (c.drop capacity).order = c.order := by
    rw [dropped, drop]
    split
    · show c.order.take 1 ++ c.order.tail = c.order
      rw [← List.drop_one, List.take_append_drop]
    · rfl
  rw [insert, push, ← List.append_assoc, hdrop, List.map_append]
  rfl

end Cache

/-- What the caller and the deletion policy see of one memoized call. -/
structure Served (K V : Type*) where
  hit : Bool
  delivered : V
  deleted : List (K × V)
  deriving DecidableEq

namespace Cache

variable [DecidableEq K] [DecidableEq V]

/-- A memoized call for the key `k`; its producer, if it is asked, returns `x`. -/
def consume (capacity : ℕ) (c : Cache K V) (k : K) (x : V) : Served K V × Cache K V :=
  match c.lookup k with
  | (some v, c) => (⟨true, v, []⟩, c)
  | (none, c) => (⟨false, x, (c.dropped capacity).map Entry.pair⟩, c.insert capacity k x)

theorem consume_hit {capacity : ℕ} {c : Cache K V} {k : K} {v : V} (x : V)
    (h : (c.lookup k).1 = some v) :
    c.consume capacity k x = (⟨true, v, []⟩, (c.lookup k).2) := by
  cases hlookup : c.lookup k with
  | mk r c' =>
      rw [hlookup] at h
      obtain rfl : r = some v := h
      rw [consume, hlookup]

theorem consume_miss {capacity : ℕ} {c : Cache K V} {k : K} (x : V) (h : (c.lookup k).1 = none) :
    c.consume capacity k x =
      (⟨false, x, (c.dropped capacity).map Entry.pair⟩, c.insert capacity k x) := by
  cases hnew : c.newest k with
  | none => rw [consume, lookup, hnew]
  | some e => simp [lookup, hnew] at h

/-- The pair a memoized call inserts. -/
def made (request : K × V) (served : Served K V) : List (K × V) :=
  if served.hit then [] else [request]

/-- **The balance of a memoized call.** -/
theorem consume_pairs (capacity : ℕ) (c : Cache K V) (k : K) (x : V) :
    ((c.consume capacity k x).1.deleted ++
        (c.consume capacity k x).2.order.map Entry.pair).Perm
      (c.order.map Entry.pair ++ made (k, x) (c.consume capacity k x).1) := by
  cases hlookup : (c.lookup k).1 with
  | some v =>
      rw [consume_hit x hlookup]
      simpa [made] using (c.lookup_perm k).map Entry.pair
  | none =>
      rw [consume_miss x hlookup]
      have hpairs := c.insert_pairs capacity k x
      rw [List.map_append] at hpairs
      exact .of_eq hpairs

/-- Memoized calls, one after the other. -/
def serve (capacity : ℕ) : Cache K V → List (K × V) → List (Served K V)
  | _, [] => []
  | c, (k, x) :: calls =>
      (c.consume capacity k x).1 :: serve capacity (c.consume capacity k x).2 calls

end Cache

/-! ## Caches made of nodes -/

variable {c : Cache K V} {l : List ι} {stamp : ι → ℕ} {key : ι → K} {value : ι → V} {hash : K → ℕ}
  {chain : ℕ → List ι} {i j : ι}

/-- The nodes `l`, with their keys and values, hold the cache `c`: in its order, and chained by the
    hash values of their keys, newest first. -/
structure Stores (c : Cache K V) (l : List ι) (stamp : ι → ℕ) (key : ι → K) (value : ι → V)
    (hash : K → ℕ) (chain : ℕ → List ι) : Prop where
  order : c.order = l.map (fun i => ⟨stamp i, key i, value i⟩)
  nodup : l.Nodup
  stamp_lt : ∀ i ∈ l, stamp i < c.clock
  stamp_inj : ∀ i ∈ l, ∀ j ∈ l, stamp i = stamp j → i = j
  mem_chain : ∀ b i, i ∈ chain b ↔ i ∈ l ∧ hash (key i) = b
  newestFirst : ∀ b, (chain b).Pairwise (fun i j => stamp j < stamp i)

/-- The first match in a list with falling stamps is the match with the largest stamp. -/
theorem find?_max {l : List ι} {p : ι → Bool} (hl : l.Pairwise (fun i j => stamp j < stamp i))
    (hi : l.find? p = some i) (hj : j ∈ l) (hpj : p j = true) : stamp j ≤ stamp i := by
  obtain ⟨-, l₁, l₂, rfl, hl₁⟩ := List.find?_eq_some_iff_append.1 hi
  rcases List.mem_append.1 hj with hj | hj
  · exact absurd hpj (by simpa using hl₁ j hj)
  · rcases List.mem_cons.1 hj with rfl | hj
    · exact le_rfl
    · exact le_of_lt (List.rel_of_pairwise_cons (List.pairwise_append.1 hl).2.1 hj)

namespace Stores

theorem length (h : Stores c l stamp key value hash chain) : c.order.length = l.length := by
  rw [h.order, List.length_map]

/-- The contents of other nodes do not matter. -/
theorem congr {key' : ι → K} {value' : ι → V} (h : Stores c l stamp key value hash chain)
    (hkey : ∀ i ∈ l, key' i = key i) (hvalue : ∀ i ∈ l, value' i = value i) :
    Stores c l stamp key' value' hash chain := by
  refine ⟨?_, h.nodup, h.stamp_lt, h.stamp_inj, fun b i => ?_, h.newestFirst⟩
  · rw [h.order]
    refine List.map_congr_left (fun i hi => ?_)
    rw [hkey i hi, hvalue i hi]
  · rw [h.mem_chain]
    exact and_congr_right (fun hi => by rw [hkey i hi])

/-- **Lookup** is a search of the chain of the key's hash value. -/
theorem newest [DecidableEq K] (h : Stores c l stamp key value hash chain) (k : K) :
    c.newest k = ((chain (hash k)).find? (fun i => key i = k)).map
      (fun i => ⟨stamp i, key i, value i⟩) := by
  cases hfind : (chain (hash k)).find? (fun i => key i = k) with
  | none =>
      rw [List.find?_eq_none] at hfind
      rw [Cache.newest, Option.map_none, List.argmax_eq_none, List.filter_eq_nil_iff, h.order]
      intro e he hk
      obtain ⟨i, hi, rfl⟩ := List.mem_map.1 he
      have hkey : key i = k := by simpa using hk
      exact hfind i ((h.mem_chain _ i).2 ⟨hi, by rw [hkey]⟩) (by simpa using hkey)
  | some i =>
      have hkey : key i = k := by simpa using List.find?_some hfind
      have hi := (h.mem_chain _ i).1 (List.mem_of_find?_eq_some hfind)
      -- every other entry with the key is in the same chain, behind `i`
      have hmax : ∀ j ∈ l, key j = k → stamp j ≤ stamp i := fun j hj hk =>
        find?_max (h.newestFirst _) hfind ((h.mem_chain _ j).2 ⟨hj, by rw [hk]⟩) (by simpa using hk)
      rw [Cache.newest, Option.map_some]
      cases hnew : (c.order.filter (fun e => e.key = k)).argmax Entry.stamp with
      | none =>
          rw [List.argmax_eq_none, List.filter_eq_nil_iff, h.order] at hnew
          exact absurd (by simpa using hkey) (hnew _ (List.mem_map_of_mem hi.1))
      | some e =>
          have he := List.argmax_mem (Option.mem_def.2 hnew)
          rw [List.mem_filter, h.order] at he
          obtain ⟨hel, hek⟩ := he
          obtain ⟨j, hj, rfl⟩ := List.mem_map.1 hel
          have hle : stamp i ≤ stamp j := by
            refine List.le_of_mem_argmax (f := Entry.stamp) (a := ⟨stamp i, key i, value i⟩) ?_
              (Option.mem_def.2 hnew)
            rw [List.mem_filter, h.order]
            exact ⟨List.mem_map_of_mem hi.1, by simpa using hkey⟩
          obtain rfl := h.stamp_inj i hi.1 j hj
            (le_antisymm hle (hmax j hj (by simpa using hek)))
          rfl

/-- **A hit** moves the node of the entry to the end. -/
theorem touch [DecidableEq K] [DecidableEq V] [DecidableEq ι]
    (h : Stores c l stamp key value hash chain) (hi : i ∈ l) :
    Stores (c.touch ⟨stamp i, key i, value i⟩) (l.erase i ++ [i]) stamp key value hash chain := by
  have hmem : ∀ j, j ∈ l.erase i ++ [i] ↔ j ∈ l := by
    intro j
    rw [List.mem_append, List.mem_singleton, h.nodup.mem_erase_iff]
    by_cases hji : j = i
    · simp [hji, hi]
    · simp [hji]
  refine ⟨?_, ?_, ?_, ?_, ?_, h.newestFirst⟩
  · obtain ⟨l₁, l₂, rfl, hl₁⟩ := List.eq_append_cons_of_mem hi
    have hnot : (⟨stamp i, key i, value i⟩ : Entry K V) ∉
        l₁.map (fun j => ⟨stamp j, key j, value j⟩) := by
      intro hmem
      obtain ⟨j, hj, heq⟩ := List.mem_map.1 hmem
      have hji : j = i := h.stamp_inj j (List.mem_append_left _ hj) i hi (congrArg Entry.stamp heq)
      exact hl₁ (hji ▸ hj)
    show c.order.erase _ ++ [_] = _
    rw [h.order, List.map_append, List.map_cons, List.erase_append_right _ hnot,
      List.erase_cons_head, List.erase_append_right _ hl₁, List.erase_cons_head]
    simp
  · refine List.nodup_append.2 ⟨h.nodup.erase i, List.nodup_singleton i, ?_⟩
    rintro j hj _ hi' rfl
    rw [List.mem_singleton.1 hi', h.nodup.mem_erase_iff] at hj
    exact hj.1 rfl
  · exact fun j hj => h.stamp_lt j ((hmem j).1 hj)
  · exact fun j hj j' hj' => h.stamp_inj j ((hmem j).1 hj) j' ((hmem j').1 hj')
  · intro b j
    rw [h.mem_chain, hmem]

/-- **A drop** takes the first node out of the order and out of its chain. -/
theorem drop [DecidableEq ι] {capacity : ℕ} (h : Stores c (i :: l) stamp key value hash chain)
    (hfull : capacity ≤ l.length + 1) :
    Stores (c.drop capacity) l stamp key value hash (fun b => (chain b).filter (fun j => j ≠ i)) := by
  have hil : i ∉ l := (List.nodup_cons.1 h.nodup).1
  have hdrop : c.drop capacity = { c with order := c.order.tail } :=
    if_pos (by rw [h.length]; exact hfull)
  rw [hdrop]
  refine ⟨?_, (List.nodup_cons.1 h.nodup).2, fun j hj => h.stamp_lt j (List.mem_cons_of_mem _ hj),
    fun j hj j' hj' => h.stamp_inj j (List.mem_cons_of_mem _ hj) j' (List.mem_cons_of_mem _ hj'),
    ?_, fun b => (h.newestFirst b).filter _⟩
  · show c.order.tail = _
    rw [h.order]
    rfl
  · intro b j
    rw [List.mem_filter, h.mem_chain, List.mem_cons]
    by_cases hji : j = i
    · simp [hji, hil]
    · simp [hji]

theorem dropped {capacity : ℕ} (h : Stores c (i :: l) stamp key value hash chain)
    (hfull : capacity ≤ l.length + 1) :
    (c.dropped capacity).map Entry.pair = [(key i, value i)] := by
  rw [Cache.dropped, if_pos (by rw [h.length]; exact hfull), h.order]
  rfl

/-- **An insertion** puts a free node at the end of the order and at the head of its chain. -/
theorem push [DecidableEq ι] (h : Stores c l stamp key value hash chain) (hi : i ∉ l) (k : K) (v : V) :
    Stores (c.push k v) (l ++ [i]) (Function.update stamp i c.clock) (Function.update key i k)
      (Function.update value i v) hash
      (Function.update chain (hash k) (i :: chain (hash k))) := by
  have hne : ∀ j ∈ l, j ≠ i := fun j hj hji => hi (hji ▸ hj)
  have hnot : ∀ b, i ∉ chain b := fun b hib => hi ((h.mem_chain b i).1 hib).1
  have hstamp : ∀ j ∈ l, Function.update stamp i c.clock j = stamp j := fun j hj =>
    Function.update_of_ne (hne j hj) _ _
  refine ⟨?_, ?_, ?_, ?_, ?_, ?_⟩
  · -- the order
    show c.order ++ [_] = _
    rw [h.order, List.map_append, List.map_singleton, Function.update_self, Function.update_self,
      Function.update_self]
    congr 1
    refine List.map_congr_left (fun j hj => ?_)
    rw [Function.update_of_ne (hne j hj), Function.update_of_ne (hne j hj),
      Function.update_of_ne (hne j hj)]
  · refine List.nodup_append.2 ⟨h.nodup, List.nodup_singleton i, ?_⟩
    rintro j hj _ hi' rfl
    exact hi (List.mem_singleton.1 hi' ▸ hj)
  · intro j hj
    show _ < c.clock + 1
    rcases List.mem_append.1 hj with hj | hj
    · rw [hstamp j hj]
      exact Nat.lt_succ_of_lt (h.stamp_lt j hj)
    · rw [List.mem_singleton.1 hj, Function.update_self]
      exact Nat.lt_succ_self _
  · -- the new stamp is the clock, above all old ones
    intro j hj j' hj' heq
    rcases List.mem_append.1 hj with hj | hj <;> rcases List.mem_append.1 hj' with hj' | hj'
    · rw [hstamp j hj, hstamp j' hj'] at heq
      exact h.stamp_inj j hj j' hj' heq
    · rw [hstamp j hj, List.mem_singleton.1 hj', Function.update_self] at heq
      exact absurd (h.stamp_lt j hj) (by omega)
    · rw [hstamp j' hj', List.mem_singleton.1 hj, Function.update_self] at heq
      exact absurd (h.stamp_lt j' hj') (by omega)
    · rw [List.mem_singleton.1 hj, List.mem_singleton.1 hj']
  · -- the members of a chain: the new node is in the one of its own key only
    intro b j
    rw [List.mem_append, List.mem_singleton]
    have hold : ∀ b, j ∈ chain b ↔ j ∈ l ∧ hash (Function.update key i k j) = b := by
      intro b
      rw [h.mem_chain]
      refine and_congr_right (fun hj => ?_)
      rw [Function.update_of_ne (hne j hj)]
    by_cases hji : j = i
    · subst hji
      rw [Function.update_self]
      by_cases hb : b = hash k
      · simp [hb]
      · rw [Function.update_of_ne hb]
        simp [hnot b, Ne.symm hb]
    · by_cases hb : b = hash k
      · subst hb
        rw [Function.update_self, List.mem_cons, hold]
        simp [hji]
      · rw [Function.update_of_ne hb, hold]
        simp [hji]
  · intro b
    -- at the head of its chain the newest node is where it belongs
    have hold : ∀ b, (chain b).Pairwise (fun j j' =>
        Function.update stamp i c.clock j' < Function.update stamp i c.clock j) := by
      intro b
      refine (h.newestFirst b).imp_of_mem (fun hj hj' hlt => ?_)
      rwa [hstamp _ ((h.mem_chain b _).1 hj).1, hstamp _ ((h.mem_chain b _).1 hj').1]
    by_cases hb : b = hash k
    · subst hb
      rw [Function.update_self]
      refine List.pairwise_cons.2 ⟨fun j hj => ?_, hold _⟩
      have hjl := ((h.mem_chain _ j).1 hj).1
      rw [hstamp j hjl, Function.update_self]
      exact h.stamp_lt j hjl
    · rw [Function.update_of_ne hb]
      exact hold b

end Stores

end Recency
