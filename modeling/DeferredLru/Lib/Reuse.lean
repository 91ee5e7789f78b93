import DeferredLru.Lib.Recency
import Mathlib.Data.Finset.Card

set_option autoImplicit false

/-! # Reuse distances

The reuse distance of a request is the number of distinct keys requested since the last request for
its key. Which requests an LRU cache serves depends on nothing else: it hits if the key was requested
before and fewer keys than it has room for have been requested since (`Cache.serve_hit`). So another
cache can be compared with it request by request, without a simulation of its order.

A history has the latest request first. `ranked` lists its keys by their last request; an LRU cache
holds a prefix of that list. -/

namespace Recency

variable {K V : Type*} [DecidableEq K]

/-! ## Since the last request -/

/-- The requests since the last one for `k`, and all of them if there is none. -/
def since (k : K) (history : List K) : List K := history.takeWhile fun x => x ≠ k

/-- The reuse distance of a request for `k`, if there was one before. -/
def distance (k : K) (history : List K) : ℕ := (since k history).toFinset.card

/-- The key was requested, and fewer than `capacity` others have been since. -/
def Within (capacity : ℕ) (history : List K) (k : K) : Prop :=
  k ∈ history ∧ distance k history < capacity

instance (capacity : ℕ) (history : List K) (k : K) : Decidable (Within capacity history k) :=
  inferInstanceAs (Decidable (_ ∧ _))

example : Within 2 [3, 3, 1, 2] 1 ∧ ¬ Within 2 [3, 3, 1, 2] 2 := by decide

variable {k k' : K} {history : List K}

@[simp] theorem since_self (k : K) (history : List K) : since k (k :: history) = [] := by
  simp [since]

theorem since_cons_of_ne (h : k' ≠ k) : since k (k' :: history) = k' :: since k history := by
  simp [since, h]

theorem since_subset_cons (h : k' ≠ k) {x : K} (hx : x ∈ since k history) :
    x ∈ since k (k' :: history) := by
  rw [since_cons_of_ne h]
  exact List.mem_cons_of_mem _ hx

theorem distance_le_cons (history : List K) (h : k' ≠ k) :
    distance k history ≤ distance k (k' :: history) := by
  refine Finset.card_le_card fun x hx => ?_
  rw [List.mem_toFinset] at hx ⊢
  exact since_subset_cons h hx

/-! ## The keys by their last request -/

/-- The keys of a history, latest requested first. -/
def ranked : List K → List K
  | [] => []
  | k :: history => k :: (ranked history).filter fun x => x ≠ k

theorem ranked_nodup (history : List K) : (ranked history).Nodup := by
  induction history with
  | nil => exact List.nodup_nil
  | cons k history ih => exact List.nodup_cons.2 ⟨by simp, ih.filter _⟩

theorem mem_ranked : k ∈ ranked history ↔ k ∈ history := by
  induction history with
  | nil => rfl
  | cons k' history ih =>
      rw [ranked, List.mem_cons, List.mem_cons, List.mem_filter, ih]
      by_cases hk : k = k' <;> simp [hk]

/-- The keys before `k` are those requested since. -/
theorem mem_takeWhile_ranked {x : K} :
    x ∈ (ranked history).takeWhile (fun x => x ≠ k) ↔ x ∈ since k history := by
  induction history with
  | nil => rfl
  | cons k' history ih =>
      by_cases hk : k' = k
      · subst hk
        simp [ranked]
      · -- the filter only takes out the key that is now before all others
        have hfilter : ((ranked history).filter fun x => x ≠ k').takeWhile (fun x => x ≠ k) =
            ((ranked history).takeWhile fun x => x ≠ k).filter fun x => x ≠ k' := by
          rw [List.takeWhile_filter]
          congr 2
          funext x
          by_cases hx : x = k'
          · simp [hx, hk]
          · simp [hx]
        rw [since_cons_of_ne hk, ranked, List.takeWhile_cons_of_pos (by simpa using hk), hfilter,
          List.mem_cons, List.mem_cons, List.mem_filter, ih]
        by_cases hx : x = k' <;> simp [hx]

theorem length_takeWhile_ranked (k : K) (history : List K) :
    ((ranked history).takeWhile fun x => x ≠ k).length = distance k history := by
  have hnodup := (ranked_nodup history).sublist (List.takeWhile_sublist fun x => x ≠ k)
  rw [← List.toFinset_card_of_nodup hnodup, distance]
  congr 1
  ext x
  rw [List.mem_toFinset, List.mem_toFinset, mem_takeWhile_ranked]

theorem mem_take_iff {l : List K} {n : ℕ} :
    k ∈ l.take n ↔ k ∈ l ∧ (l.takeWhile fun x => x ≠ k).length < n := by
  induction l generalizing n with
  | nil => simp
  | cons x l ih =>
      cases n with
      | zero => simp
      | succ n =>
          rw [List.take_succ_cons, List.mem_cons, List.mem_cons, ih]
          by_cases hx : x = k
          · simp [hx]
          · simp [hx, Ne.symm hx]

/-- The first keys of the ranking are those with a small reuse distance. -/
theorem mem_take_ranked {capacity : ℕ} :
    k ∈ (ranked history).take capacity ↔ Within capacity history k := by
  rw [mem_take_iff, mem_ranked, length_takeWhile_ranked, Within]

theorem filter_take_drop (l : List K) (n : ℕ) (k : K) : (l.filter fun x => x ≠ k) =
    ((l.take n).filter fun x => x ≠ k) ++ (l.drop n).filter fun x => x ≠ k := by
  rw [← List.filter_append, List.take_append_drop]

/-- Behind the first `n` the filter changes nothing in them. -/
theorem take_filter_of_not_mem {l : List K} {n : ℕ} (h : k ∉ l.take n) :
    (l.filter fun x => x ≠ k).take n = l.take n := by
  have hself : (l.take n).filter (fun x => x ≠ k) = l.take n :=
    List.filter_eq_self.2 fun x hx => by simpa using fun heq : x = k => h (heq ▸ hx)
  rw [filter_take_drop l n k, hself]
  rcases Nat.le_total n l.length with hle | hle
  · rw [List.take_append_of_le_length (by simp [hle]), List.take_take, Nat.min_self]
  · rw [List.drop_eq_nil_of_le hle, List.filter_nil, List.append_nil, List.take_take, Nat.min_self]

theorem take_filter_of_mem {l : List K} {n : ℕ} (hnodup : l.Nodup) (h : k ∈ l.take n) :
    (l.filter fun x => x ≠ k).take (n - 1) = (l.take n).filter fun x => x ≠ k := by
  have hlen : ((l.take n).filter fun x => x ≠ k).length = (l.take n).length - 1 := by
    rw [← List.length_erase_of_mem h, (hnodup.sublist (List.take_sublist n l)).erase_eq_filter]
    congr 1
    exact List.filter_congr fun x _ => by by_cases hx : x = k <;> simp [hx]
  rw [List.length_take] at hlen
  rw [filter_take_drop l n k]
  rcases Nat.le_total n l.length with hle | hle
  · rw [List.take_append_of_le_length (by omega), List.take_of_length_le (by omega)]
  · rw [List.drop_eq_nil_of_le hle, List.filter_nil, List.append_nil,
      List.take_of_length_le (by omega)]

/-! ## What an LRU cache holds -/

namespace Cache

/-- The keys of a cache, most recently used first. -/
def keys (c : Cache K V) : List K := (c.order.map Entry.key).reverse

omit [DecidableEq K] in
theorem mem_keys {c : Cache K V} : k ∈ c.keys ↔ ∃ e ∈ c.order, e.key = k := by
  rw [keys, List.mem_reverse, List.mem_map]

theorem newest_isSome {c : Cache K V} : (c.newest k).isSome = true ↔ k ∈ c.keys := by
  rw [mem_keys, Option.isSome_iff_ne_none, newest, Ne, List.argmax_eq_none,
    List.filter_eq_nil_iff]
  simp

variable [DecidableEq V] {capacity : ℕ} {c : Cache K V}

theorem consume_hit_iff (x : V) : (c.consume capacity k x).1.hit = true ↔ k ∈ c.keys := by
  rw [← newest_isSome]
  cases hk : c.newest k with
  | none => simp [consume, lookup, hk]
  | some e => simp [consume, lookup, hk]

/-- A hit takes its key to the front. -/
theorem keys_touch {e : Entry K V} (hnodup : c.keys.Nodup) (he : e ∈ c.order) :
    (c.touch e).keys = e.key :: c.keys.filter fun x => x ≠ e.key := by
  have hkeys : (c.order.map Entry.key).Nodup := List.nodup_reverse.1 hnodup
  have herase : (c.order.erase e).map Entry.key =
      (c.order.map Entry.key).filter fun x => x ≠ e.key := by
    rw [hkeys.of_map.erase_eq_filter, List.filter_map]
    congr 1
    refine List.filter_congr fun e' he' => ?_
    have hinj : e'.key = e.key ↔ e' = e :=
      ⟨fun heq => List.inj_on_of_nodup_map hkeys he' he heq, fun heq => by rw [heq]⟩
    by_cases heq : e' = e <;> simp [hinj, heq]
  rw [keys, touch]
  simp only [List.map_append, List.reverse_append, herase]
  rw [keys, List.filter_reverse]
  rfl

omit [DecidableEq K] [DecidableEq V] in
/-- An insertion puts its key to the front, and the last key is dropped if there is no room. -/
theorem keys_insert (hpos : 0 < capacity) (hlen : c.keys.length ≤ capacity) (v : V) :
    (c.insert capacity k v).keys = k :: c.keys.take (capacity - 1) := by
  have hlength : c.keys.length = c.order.length := by rw [keys, List.length_reverse, List.length_map]
  have hdrop : (c.drop capacity).keys = c.keys.take (capacity - 1) := by
    rw [drop]
    split
    case isTrue hfull =>
      obtain rfl : capacity = c.keys.length := by omega
      rw [← List.dropLast_eq_take]
      simp [keys, List.dropLast_reverse, List.map_tail]
    case isFalse hroom => exact (List.take_of_length_le (by omega)).symm
  rw [insert, push, keys, List.map_append, List.reverse_append]
  exact congrArg (k :: ·) hdrop

/-- **An LRU cache holds the keys of the last requests.** -/
theorem keys_consume (hpos : 0 < capacity) (h : c.keys = (ranked history).take capacity) (x : V) :
    (c.consume capacity k x).2.keys = (ranked (k :: history)).take capacity := by
  obtain ⟨room, rfl⟩ := Nat.exists_eq_add_one.2 hpos
  have hnodup : c.keys.Nodup := h ▸ (ranked_nodup history).sublist (List.take_sublist _ _)
  have hlen : c.keys.length ≤ room + 1 := by
    rw [h, List.length_take]
    exact Nat.min_le_left ..
  rw [ranked, List.take_succ_cons]
  cases hk : c.newest k with
  | some e =>
      have hmem := List.mem_filter.1 (List.argmax_mem hk)
      have hkey : e.key = k := by simpa using hmem.2
      have hin : k ∈ c.keys := mem_keys.2 ⟨e, hmem.1, hkey⟩
      have htake := take_filter_of_mem (ranked_nodup history) (h ▸ hin)
      rw [Nat.add_sub_cancel, ← h] at htake
      rw [htake, consume, lookup, hk]
      show (c.touch e).keys = _
      rw [keys_touch hnodup hmem.1, hkey]
  | none =>
      have hnot : k ∉ c.keys := by
        rw [← newest_isSome, hk]
        exact Bool.false_ne_true
      have htake : k ∉ (ranked history).take room := fun hmem =>
        hnot (h ▸ List.take_subset_take_left _ (Nat.le_succ room) hmem)
      rw [take_filter_of_not_mem htake, consume, lookup, hk]
      show (c.insert (room + 1) k x).keys = _
      rw [keys_insert hpos hlen, Nat.add_sub_cancel, h, List.take_take,
        Nat.min_eq_left (Nat.le_succ room)]

theorem getElem?_serve_hit (hpos : 0 < capacity) (h : c.keys = (ranked history).take capacity)
    {requests : List (K × V)} {i : ℕ} {request : K × V} (hi : requests[i]? = some request) :
    ∃ s, (c.serve capacity requests)[i]? = some s ∧ (s.hit = true ↔
      Within capacity (((requests.take i).map Prod.fst).reverse ++ history) request.1) := by
  induction requests generalizing c history i with
  | nil => cases hi
  | cons first requests ih =>
      obtain ⟨k, x⟩ := first
      cases i with
      | zero =>
          cases hi
          refine ⟨_, rfl, ?_⟩
          rw [consume_hit_iff, h, mem_take_ranked]
          rfl
      | succ i =>
          obtain ⟨s, hs, hhit⟩ := ih (keys_consume hpos h x) hi
          refine ⟨s, hs, ?_⟩
          rw [hhit, List.take_succ_cons, List.map_cons, List.reverse_cons, List.append_assoc]
          rfl

/-- **An LRU cache hits within its capacity.** A request hits if and only if its key was requested
    before and fewer keys than the cache has room for have been requested since. -/
theorem serve_hit (hpos : 0 < capacity) {requests : List (K × V)} {i : ℕ} {request : K × V}
    (hi : requests[i]? = some request) :
    ∃ s, ((empty : Cache K V).serve capacity requests)[i]? = some s ∧
      (s.hit = true ↔ Within capacity ((requests.take i).map Prod.fst).reverse request.1) := by
  have hkeys : (empty : Cache K V).keys = (ranked []).take capacity := by
    rw [ranked, List.take_nil]
    rfl
  obtain ⟨s, hs, hhit⟩ := getElem?_serve_hit hpos hkeys hi
  rw [List.append_nil] at hhit
  exact ⟨s, hs, hhit⟩

end Cache

end Recency
