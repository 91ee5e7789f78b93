import DeferredLru.Lib.Reuse
import DeferredLru.Lru.Refinement

set_option autoImplicit false

/-! # Which requests an `LRUCache` hits

The refinement of the textbook cache settles it: a request hits exactly within the capacity, by its
reuse distance (`serve_hit_iff`). Buckets, hash functions and slots do not matter, and an `LRUCache`
with more elements hits on all requests on which one with fewer does (`serve_includes`). -/

namespace DeferredLru.LruCache

open Recency

variable {N N' : ℕ} {K V : Type} [DecidableEq K] [DecidableEq V] [Inhabited K] [Inhabited V]

/-- The requests are served by a fresh cache as by the textbook cache. -/
theorem serve_fresh (cfg : Config N K) {fuel : ℕ} (hfuel : N < fuel) (requests : List (K × V)) :
    (allocateMemory cfg).bind (fun s => serve cfg.toArguments fuel s.1 requests) =
      some (Cache.empty.serve N requests) := by
  rw [allocateMemory_eq, Option.bind_some]
  exact serve_eq (initialState_represents cfg) hfuel requests

/-- **Hits of an `LRUCache`.** It serves all requests, and one of them hits if and only if its key was
    requested before and fewer than `N` distinct keys have been requested since. -/
theorem serve_hit_iff (cfg : Config N K) {fuel : ℕ} (hfuel : N < fuel) (requests : List (K × V)) :
    ∃ served, (allocateMemory cfg).bind (fun s => serve cfg.toArguments fuel s.1 requests) = some served ∧
      ∀ i request, requests[i]? = some request → ∃ s, served[i]? = some s ∧
        (s.hit = true ↔ Within N ((requests.take i).map Prod.fst).reverse request.1) := by
  refine ⟨_, serve_fresh cfg hfuel requests, fun i request hi => ?_⟩
  exact Cache.serve_hit (lt_of_lt_of_le Nat.two_pos cfg.two_le) hi

theorem serve_hit_iff_twoElements : ∃ served : List (Served ℕ ℕ),
    (allocateMemory twoElements).bind (fun s => serve twoElements.toArguments 3 s.1
      [(1, 10), (2, 20), (1, 11), (3, 30), (2, 21)]) = some served ∧
    ∀ i request, [(1, 10), (2, 20), (1, 11), (3, 30), (2, 21)][i]? = some request →
      ∃ s, served[i]? = some s ∧ (s.hit = true ↔ Within 2
        ((([(1, 10), (2, 20), (1, 11), (3, 30), (2, 21)] : List (ℕ × ℕ)).take i).map Prod.fst).reverse
        request.1) :=
  serve_hit_iff twoElements (Nat.lt_succ_self 2) _

omit [Inhabited K] [Inhabited V] in
theorem length_serve (c : Cache K V) (capacity : ℕ) (requests : List (K × V)) :
    (c.serve capacity requests).length = requests.length := by
  induction requests generalizing c with
  | nil => rfl
  | cons request requests ih => exact congrArg (· + 1) (ih _)

/-- **Inclusion.** Whatever the requests, the larger of two caches hits on every request on which the
    smaller one hits. -/
theorem serve_includes (small : Config N K) (large : Config N' K) (hle : N ≤ N') {fuel : ℕ}
    (hfuel : N' < fuel) (requests : List (K × V)) :
    ∃ served served',
      (allocateMemory small).bind (fun s => serve small.toArguments fuel s.1 requests) = some served ∧
      (allocateMemory large).bind (fun s => serve large.toArguments fuel s.1 requests) = some served' ∧
      List.Forall₂ (fun s s' : Served K V => s.hit = true → s'.hit = true) served served' := by
  refine ⟨_, _, serve_fresh small (lt_of_le_of_lt hle hfuel) requests, serve_fresh large hfuel requests,
    List.forall₂_iff_get.2 ⟨by rw [length_serve, length_serve], fun i hi hi' hhit => ?_⟩⟩
  have hlt : i < requests.length := by rwa [length_serve] at hi
  have hrequest : requests[i]? = some requests[i] := List.getElem?_eq_getElem hlt
  obtain ⟨s, hs, hiff⟩ := Cache.serve_hit (lt_of_lt_of_le Nat.two_pos small.two_le) hrequest
  obtain ⟨s', hs', hiff'⟩ := Cache.serve_hit (lt_of_lt_of_le Nat.two_pos large.two_le) hrequest
  obtain ⟨_, rfl⟩ := List.getElem?_eq_some_iff.1 hs
  obtain ⟨_, rfl⟩ := List.getElem?_eq_some_iff.1 hs'
  obtain ⟨hrequested, hnear⟩ := hiff.1 hhit
  exact hiff'.2 ⟨hrequested, lt_of_lt_of_le hnear hle⟩

theorem three_lt : 3 < 2 ^ 31 := by decide

/-- Three elements, one bucket. -/
def threeInOneBucket : Config 3 ℕ where
  hasher := id
  ignoreBitsInHash := 1
  hashTableLoadFactor := 2
  enableDebug := false
  two_le := Nat.le_succ 2
  loadFactor_pos := Nat.two_pos
  loadFactor_le := Nat.le_succ 2
  capacity_lt := three_lt

theorem serve_includes_threeInOneBucket : ∃ served served' : List (Served ℕ ℕ),
    (allocateMemory twoElements).bind (fun s => serve twoElements.toArguments 4 s.1
      [(1, 10), (2, 20), (1, 11), (3, 30), (2, 21)]) = some served ∧
    (allocateMemory threeInOneBucket).bind (fun s => serve threeInOneBucket.toArguments 4 s.1
      [(1, 10), (2, 20), (1, 11), (3, 30), (2, 21)]) = some served' ∧
    List.Forall₂ (fun s s' : Served ℕ ℕ => s.hit = true → s'.hit = true) served served' :=
  serve_includes twoElements threeInOneBucket (Nat.le_succ 2) (Nat.lt_succ_self 3) _

end DeferredLru.LruCache
