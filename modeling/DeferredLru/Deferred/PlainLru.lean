import DeferredLru.Deferred.History
import DeferredLru.Lru.Refinement

set_option autoImplicit false

/-! # With both thresholds at one, `DeferredLRU` is the textbook cache

A pull then follows every hit, so between two calls nothing is marked and the LRU list is the order of
the textbook cache backwards: a hit takes its node to the front (`pull_mark_lru`), whether or not it
was the front node, which a pull skips. A purge frees one node, and of a full cache this is the last
one of the list. Since `LRUCache` represents the textbook cache as well, the two serve the same
requests alike (`serve_agrees`). -/

namespace DeferredLru

open Intrusive Recency

variable {N : ℕ} {K V : Type} {cfg : Config N K} {m m' : Mem N K V} {a : Lists N} {n : Fin N}
  {c : Cache K V}

/-- The lists hold the textbook cache, its most recently used entry first. -/
def Represents (cfg : Config N K) (m : Mem N K V) (c : Cache K V) : Prop :=
  ∃ a stamp, Rep cfg m a ∧ Stores c a.lru.reverse stamp m.key m.value cfg.keyToBucketNr a.bucket

theorem allocateMemory_represents [Inhabited K] [Inhabited V] (cfg : Config N K) :
    Represents cfg (allocateMemory N K V) Cache.empty :=
  ⟨.initial N, fun _ => 0, allocateMemory_rep cfg, rfl, List.nodup_nil, by simp [Lists.initial],
    by simp [Lists.initial], by simp [Lists.initial], by simp [Lists.initial]⟩

/-- With a pull threshold of one nothing stays marked. -/
theorem Rep.recent_nil (h : Rep cfg m a) (hP : cfg.pullThreshold = 1) : a.recent = [] := by
  have := h.belowThreshold
  exact List.eq_nil_of_length_eq_zero (by omega)

/-- A hit, pulled at once, takes its node to the front. -/
theorem pull_mark_lru (hrecent : a.recent = []) (hdup : a.lru.Nodup) (hn : n ∈ a.lru) :
    (a.mark n).pull.lru = n :: a.lru.erase n := by
  have hmark : a.mark n = { a with recent := [n] } := by
    rw [Lists.mark, hrecent, if_neg (by simp)]
  rw [hmark]
  show [n].filter (fun x => !a.isFront x) ++ a.lru.filter (fun x => x ∉ [n] || a.isFront x) = _
  by_cases hfront : a.isFront n = true
  · -- the front node is skipped, and is at the front
    have hhead : a.lru.head? = some n := by simpa [Lists.isFront] using hfront
    obtain ⟨l, hl⟩ : ∃ l, a.lru = n :: l := by
      cases hlru : a.lru with
      | nil => rw [hlru] at hn; cases hn
      | cons x l =>
          rw [hlru, List.head?_cons] at hhead
          cases hhead
          exact ⟨l, rfl⟩
    have hall : a.lru.filter (fun x => x ∉ [n] || a.isFront x) = a.lru := by
      refine List.filter_eq_self.2 (fun x _ => ?_)
      by_cases hx : x = n
      · simp [hx, hfront]
      · simp [hx]
    rw [hall, List.filter_cons_of_neg (by simpa using hfront), List.filter_nil, List.nil_append, hl,
      List.erase_cons_head]
  · have hothers : a.lru.filter (fun x => x ∉ [n] || a.isFront x) = a.lru.erase n := by
      rw [hdup.erase_eq_filter]
      refine List.filter_congr (fun x _ => ?_)
      by_cases hx : x = n
      · simp [hx, hfront]
      · simp [hx]
    rw [hothers, List.filter_cons_of_pos (by simpa using hfront), List.filter_nil]
    rfl

theorem erase_reverse {l : List (Fin N)} (h : l.Nodup) : l.reverse.erase n = (l.erase n).reverse := by
  rw [h.erase_eq_filter, (List.nodup_reverse.2 h).erase_eq_filter, List.filter_reverse]

/-- Whether the trace of a call has a hit. -/
def hasHit (trace : List (Event N K V)) : Bool :=
  trace.any fun e => match e with
    | .hit _ => true
    | _ => false

/-- The one node that a full cache purges is the last of the LRU list. -/
theorem displaced_eq (hrep : Rep cfg m a) (hP : cfg.pullThreshold = 1) (hQ : cfg.purgeThreshold = 1)
    (hN : 2 ≤ N) (hpool : a.pool = []) :
    ∃ w l, a.lru.reverse = w :: l ∧ a.displaced cfg = [w] ∧ l.length + 1 = N := by
  have hlen : a.lru.length = N := by
    have hall : ∀ x : Fin N, x ∈ a.lru := fun x => (hrep.total x).resolve_left (by simp [hpool])
    have hperm : a.lru.Perm (List.finRange N) :=
      (List.perm_ext_iff_of_nodup hrep.lru_nodup (List.nodup_finRange N)).2 (fun x => by simp [hall x])
    simpa using hperm.length_eq
  cases hlru : a.lru with
  | nil =>
      rw [hlru, List.length_nil] at hlen
      omega
  | cons z t =>
      rw [hlru, List.length_cons] at hlen
      obtain ⟨w, l, hl⟩ : ∃ w l, t.reverse = w :: l := by
        refine List.exists_cons_of_ne_nil (fun hnil => ?_)
        rw [List.reverse_eq_nil_iff.1 hnil, List.length_nil] at hlen
        omega
      have hev : a.evictable = w :: l := by
        rw [Lists.evictable, hrep.recent_nil hP, hlru, List.tail_cons, hl]
        simp
      refine ⟨w, l ++ [z], by rw [List.reverse_cons, hl, List.cons_append], ?_, ?_⟩
      · rw [Lists.displaced, if_pos hpool, hev, hQ]
        rfl
      · have := congrArg List.length hl
        simp only [List.length_reverse, List.length_cons] at this
        rw [List.length_append, List.length_singleton]
        omega

theorem insert_represents {fuel : ℕ} (h : Represents cfg m c) (hP : cfg.pullThreshold = 1)
    (hQ : cfg.purgeThreshold = 1) (hN : 2 ≤ N) (hfuel : N < fuel) (k : K) (v : V) :
    ∃ m' trace, insert cfg fuel m k v = .returned () m' trace ∧ Represents cfg m' (c.insert N k v) ∧
      onDeletes trace = (c.dropped N).map Recency.Entry.pair ∧ hasHit trace = false := by
  obtain ⟨a, stamp, hrep, hstores⟩ := h
  have hlen : c.order.length = a.lru.length := by rw [hstores.length, List.length_reverse]
  have havail : a.pool ≠ [] ∨ a.evictable ≠ [] := by
    by_cases hpool : a.pool = []
    · obtain ⟨w, l, -, hdis, -⟩ := displaced_eq hrep hP hQ hN hpool
      right
      intro hev
      rw [Lists.displaced, hev, List.take_nil, ite_self] at hdis
      cases hdis
    · exact Or.inl hpool
  obtain ⟨a₁, n, p, m', events, hrun, hp, hn, halloc, hrep', hkey, hvalue, hdel⟩ :=
    insert_spec hrep havail hfuel k v
  have ha₁ : a₁ = a.evict (a.displaced cfg) := halloc.lists (by simp [hp])
  have hhit : hasHit (events ++ [.inserted n k v]) = false := by cases halloc <;> rfl
  have hdel' : onDeletes (events ++ [.inserted n k v]) =
      (a.displaced cfg).map (fun x => (m.key x, m.value x)) := by
    rw [onDeletes_append, hdel]
    exact List.append_nil _
  -- the textbook cache after the drop is what the lists hold after the purge
  have hstores₁ : Stores (c.drop N) a₁.lru.reverse stamp m.key m.value cfg.keyToBucketNr a₁.bucket ∧
      (c.dropped N).map Recency.Entry.pair = (a.displaced cfg).map (fun x => (m.key x, m.value x)) := by
    by_cases hpool : a.pool = []
    · obtain ⟨w, l, hlru, hdis, hl⟩ := displaced_eq hrep hP hQ hN hpool
      rw [hlru] at hstores
      have hwnot := (List.nodup_cons.1 hstores.nodup).1
      have hrev : (a.evict [w]).lru.reverse = l := by
        show (a.lru.filter (fun x => x ∉ [w])).reverse = l
        rw [← List.filter_reverse, hlru, List.filter_cons_of_neg (by simp), List.filter_eq_self]
        exact fun x hx => by simpa using fun heq : x = w => hwnot (heq ▸ hx)
      have hbucket : (a.evict [w]).bucket = fun b => (a.bucket b).filter (fun x => x ≠ w) := by
        funext b
        exact List.filter_congr (fun x _ => by simp)
      rw [ha₁, hdis, hrev, hbucket]
      exact ⟨hstores.drop (by omega), hstores.dropped (by omega)⟩
    · have hroom : ¬ N ≤ c.order.length := by
        intro hfull
        rw [hlen] at hfull
        obtain ⟨x, q, hx⟩ := List.exists_cons_of_ne_nil hpool
        have hnodup : (x :: a.lru).Nodup :=
          List.nodup_cons.2 ⟨hrep.pool_disjoint x (by simp [hx]), hrep.lru_nodup⟩
        have := length_le_capacity hnodup
        rw [List.length_cons] at this
        omega
      have hdis : a.displaced cfg = [] := if_neg hpool
      rw [ha₁, hdis, Lists.evict_nil, Cache.drop, Cache.dropped, if_neg hroom, if_neg hroom]
      exact ⟨hstores, rfl⟩
  refine ⟨m', _, hrun, ⟨_, Function.update stamp n (c.drop N).clock, hrep', ?_⟩,
    hdel'.trans hstores₁.2.symm, hhit⟩
  rw [hkey, hvalue]
  show Stores _ (n :: a₁.lru).reverse _ _ _ _ _
  rw [List.reverse_cons]
  exact hstores₁.1.push (by simpa using hn) k v

section Calls

variable [DecidableEq K] [DecidableEq V] {fuel : ℕ}

theorem find_represents (h : Represents cfg m c) (hP : cfg.pullThreshold = 1) (hfuel : N < fuel)
    (k : K) : ∃ m' trace, find cfg fuel m k = .returned (c.lookup k).1 m' trace ∧
      Represents cfg m' (c.lookup k).2 ∧ onDeletes trace = [] ∧
      hasHit trace = (c.lookup k).1.isSome := by
  obtain ⟨a, stamp, hrep, hstores⟩ := h
  have hnewest := hstores.newest k
  cases hk : a.lookup cfg m k with
  | none =>
      rw [← Lists.lookup, hk, Option.map_none] at hnewest
      refine ⟨m, [], ?_, ?_, rfl, ?_⟩
      · rw [find_miss hrep hk hfuel, Cache.lookup, hnewest]
      · rw [Cache.lookup, hnewest]
        exact ⟨a, stamp, hrep, hstores⟩
      · rw [Cache.lookup, hnewest]
        rfl
  | some n =>
      rw [← Lists.lookup, hk, Option.map_some] at hnewest
      have hn := (Lists.lookup_spec hrep.toLinks hk).1
      have hrecent := hrep.recent_nil hP
      obtain ⟨m', a', events, hrun, hrep', hkey, hvalue, hcase⟩ := find_hit hrep hk hfuel
      have hlen : (a.mark n).recent.length = 1 := by
        rw [Lists.mark, hrecent, if_neg (by simp)]
        rfl
      rcases hcase with ⟨-, -, hlt⟩ | ⟨rfl, rfl, -⟩
      · omega
      · refine ⟨m', [.hit n, .pull], ?_, ?_, rfl, ?_⟩
        · rw [hrun, Cache.lookup, hnewest]
        · rw [Cache.lookup, hnewest]
          refine ⟨(a.mark n).pull, stamp, hrep', ?_⟩
          rw [hkey, hvalue, pull_mark_lru hrecent hrep.lru_nodup hn, List.reverse_cons,
            ← erase_reverse hrep.lru_nodup]
          have hbucket : (a.mark n).pull.bucket = a.bucket := by
            unfold Lists.mark
            split <;> rfl
          rw [hbucket]
          exact hstores.touch (List.mem_reverse.2 hn)
        · rw [Cache.lookup, hnewest]
          rfl

/-- What the callers and the deletion policy see of memoized calls, one after the other. -/
def serve (cfg : Config N K) (fuel : ℕ) : Mem N K V → List (K × V) → Option (List (Served K V))
  | _, [] => some []
  | m, (k, x) :: rest =>
      match consumeCachedOrCompute cfg fuel m k x with
      | .returned delivered m trace => do
          let served ← serve cfg fuel m rest
          some (⟨hasHit trace, delivered, onDeletes trace⟩ :: served)
      | _ => none

theorem consumeCachedOrCompute_represents (h : Represents cfg m c) (hP : cfg.pullThreshold = 1)
    (hQ : cfg.purgeThreshold = 1) (hN : 2 ≤ N) (hfuel : N < fuel) (k : K) (x : V) :
    ∃ m' trace, consumeCachedOrCompute cfg fuel m k x =
        .returned (c.consume N k x).1.delivered m' trace ∧ Represents cfg m' (c.consume N k x).2 ∧
      (c.consume N k x).1 = ⟨hasHit trace, (c.consume N k x).1.delivered, onDeletes trace⟩ := by
  obtain ⟨m₁, trace₁, hfind, hrep₁, hdel₁, hhit₁⟩ := find_represents h hP hfuel k
  cases hlookup : c.lookup k with
  | mk r c₁ =>
      rw [hlookup] at hfind hrep₁ hhit₁
      rw [consumeCachedOrCompute, hfind, Cache.consume, hlookup]
      cases r with
      | some v => exact ⟨m₁, trace₁, rfl, hrep₁, by rw [hdel₁, hhit₁]; rfl⟩
      | none =>
          obtain ⟨m₂, trace₂, hinsert, hrep₂, hdel₂, hhit₂⟩ :=
            insert_represents hrep₁ hP hQ hN hfuel k x
          refine ⟨m₂, trace₁ ++ trace₂, by simp only [hinsert], hrep₂, ?_⟩
          have hhit : hasHit (trace₁ ++ trace₂) = false := by
            unfold hasHit at hhit₁ hhit₂ ⊢
            rw [List.any_append, hhit₁, hhit₂]
            rfl
          rw [hhit, onDeletes_append, hdel₁, hdel₂]
          rfl

theorem serve_eq (h : Represents cfg m c) (hP : cfg.pullThreshold = 1)
    (hQ : cfg.purgeThreshold = 1) (hN : 2 ≤ N) (hfuel : N < fuel) (requests : List (K × V)) :
    serve cfg fuel m requests = some (c.serve N requests) := by
  induction requests generalizing m c with
  | nil => rfl
  | cons request requests ih =>
      obtain ⟨k, x⟩ := request
      obtain ⟨m', trace, hrun, hrep, hserved⟩ :=
        consumeCachedOrCompute_represents h hP hQ hN hfuel k x
      rw [serve, hrun, Cache.serve, hserved]
      simp only [Option.bind_eq_bind, ih hrep, Option.bind_some]

/-- **`DeferredLRU` with both thresholds at one is the plain LRU cache.** On any requests, whatever
    the two hash functions, it and a fresh `LRUCache` with the same room serve every request, hit on
    the same ones, deliver the same values and delete the same pairs in the same order. -/
theorem serve_agrees [Inhabited K] [Inhabited V] (cfg : Config N K) (plain : LruCache.Config N K)
    (hP : cfg.pullThreshold = 1) (hQ : cfg.purgeThreshold = 1) (hfuel : N < fuel)
    (requests : List (K × V)) :
    ∃ served, serve cfg fuel (allocateMemory N K V) requests = some served ∧
      (LruCache.allocateMemory (V := V) plain).bind
        (fun s => LruCache.serve plain.toArguments fuel s.1 requests) = some served := by
  refine ⟨Cache.empty.serve N requests, ?_, ?_⟩
  · exact serve_eq (allocateMemory_represents cfg) hP hQ plain.two_le hfuel requests
  · rw [LruCache.allocateMemory_eq, Option.bind_some]
    exact LruCache.serve_eq (LruCache.initialState_represents plain) hfuel requests

theorem serve_agrees_twoNodes : ∃ served : List (Served ℕ ℕ),
    serve twoNodes 3 (allocateMemory 2 ℕ ℕ) [(1, 10), (2, 20), (1, 11), (3, 30), (2, 21)] =
        some served ∧
      (LruCache.allocateMemory (V := ℕ) LruCache.twoElements).bind
        (fun s => LruCache.serve LruCache.twoElements.toArguments 3 s.1
          [(1, 10), (2, 20), (1, 11), (3, 30), (2, 21)]) = some served :=
  serve_agrees twoNodes LruCache.twoElements rfl rfl (by decide) _

/-- The `DeferredLRU` of the size at which `LRUCache` runs out of numbers. -/
def beyondInt : Config (2 ^ 31 + 1) ℕ where
  pullThreshold := 1
  purgeThreshold := 1
  hasher := id
  bucketCount := 2 ^ 31 + 1
  capacity_pos := LruCache.one_le_beyondInt
  pullThreshold_pos := Nat.one_pos
  purgeThreshold_pos := Nat.one_pos
  bucketCount_pos := LruCache.one_le_beyondInt

/-- **Without the bound on the elements** `DeferredLRU` serves what `LRUCache` does not. -/
theorem not_serve_agrees :
    (∃ served, serve beyondInt (2 ^ 31 + 2) (allocateMemory (2 ^ 31 + 1) ℕ ℕ) [(2 ^ 31, 10)] =
      some served) ∧
    ∀ fuel, (LruCache.allocateMemory (V := ℕ) LruCache.beyondInt).bind
        (fun s => LruCache.serve LruCache.beyondInt fuel s.1 [(2 ^ 31, 10)]) = none ∧
      ∀ s, LruCache.serve (V := ℕ) LruCache.beyondInt fuel s [(2 ^ 31, 10)] = none := by
  refine ⟨⟨_, serve_eq (allocateMemory_represents beyondInt) rfl rfl (by omega)
    (Nat.lt_succ_self _) _⟩, fun fuel => ⟨?_, LruCache.serve_beyondInt fuel⟩⟩
  rw [LruCache.allocateMemory_beyondInt, Option.bind_none]

end Calls

end DeferredLru
