import DeferredLru.Deferred.Consolidation
import DeferredLru.Deferred.PlainLru
import DeferredLru.Deferred.Termination
import DeferredLru.Lru.Locality

set_option autoImplicit false

/-! # `DeferredLRU` keeps what a slightly smaller LRU cache keeps

Neither of the two lists is in the order of the requests. But what can come before a node in the LRU
list without having been requested after it is only what was marked when the node was requested: its
*guests*, fewer than the pull threshold. And what a purge takes behind a node is less than the purge
threshold. So by the time a node is evicted almost all others have been requested since
(`Retained.distance_victim`), and a key cannot be missing before its reuse distance is that large
(`serve_retained`). An `LRUCache` with that many elements hits only on requests on which the
`DeferredLRU` hits as well (`serve_covers`). -/

namespace DeferredLru

open Intrusive Recency

variable {N : ℕ} {K V : Type} [DecidableEq K] {cfg : Config N K} {m m' : Mem N K V} {a : Lists N}
  {key : Fin N → K} {history : List K} {guests : Fin N → Finset (Fin N)} {k : K} {x y n : Fin N}

/-! ## Guests -/

/-- The key of `y` was requested after the last request for that of `x`, or `y` is a guest of `x`. -/
def Later (key : Fin N → K) (history : List K) (guests : Fin N → Finset (Fin N)) (y x : Fin N) :
    Prop :=
  key y ∈ since (key x) history ∨ y ∈ guests x

/-- What the requests so far left in the lists. -/
structure Retained (cfg : Config N K) (key : Fin N → K) (a : Lists N) (history : List K)
    (guests : Fin N → Finset (Fin N)) : Prop where
  requested : ∀ x ∈ a.lru, key x ∈ history
  distinct : ∀ x ∈ a.lru, ∀ y ∈ a.lru, key x = key y → x = y
  few : ∀ x, (guests x).card < cfg.pullThreshold
  /-- A marked node may come to stand before any other. -/
  marked : ∀ x ∈ a.lru, ∀ y ∈ a.recent, y ≠ x → Later key history guests y x
  ahead : a.lru.Pairwise fun y x => x ∉ a.recent → Later key history guests y x
  /-- The keys that are not there any more have not been requested for long. -/
  gone : ∀ k ∈ history, (∀ x ∈ a.lru, key x ≠ k) →
    N + 2 ≤ distance k history + cfg.pullThreshold + cfg.purgeThreshold

/-- A request for the key `k`, which the node `n` holds afterwards. -/
theorem Later.request {g : Finset (Fin N)} (hxn : x ≠ n) (hx : key x ≠ k)
    (hy : y = n ∨ Later key history guests y x) :
    Later (Function.update key n k) (k :: history) (Function.update guests n g) y x := by
  have hsince : since (key x) (k :: history) = k :: since (key x) history :=
    since_cons_of_ne (Ne.symm hx)
  rw [Later, Function.update_of_ne hxn, Function.update_of_ne hxn, hsince, List.mem_cons]
  by_cases hyn : y = n
  · subst hyn
    rw [Function.update_self]
    exact Or.inl (Or.inl rfl)
  · rw [Function.update_of_ne hyn]
    exact (hy.resolve_left hyn).imp Or.inr id

namespace Retained

theorem initial : Retained cfg key (.initial N) [] fun _ => ∅ where
  requested _ hx := absurd hx (by simp [Lists.initial])
  distinct _ hx := absurd hx (by simp [Lists.initial])
  few _ := cfg.pullThreshold_pos
  marked _ hx := absurd hx (by simp [Lists.initial])
  ahead := List.Pairwise.nil
  gone _ hk := absurd hk (by simp)

/-- **A hit** makes all that is marked a guest of its node. -/
theorem mark (h : Retained cfg key a history guests) (hn : n ∈ a.lru)
    (hfew : (a.mark n).recent.length ≤ cfg.pullThreshold) :
    Retained cfg key (a.mark n) (key n :: history)
      (Function.update guests n ((a.mark n).recent.toFinset.erase n)) := by
  have hrecent : n ∈ (a.mark n).recent ∧ (∀ y, y ∈ (a.mark n).recent → y = n ∨ y ∈ a.recent) ∧
      ∀ y, y ∈ a.recent → y ∈ (a.mark n).recent := by
    unfold Lists.mark
    split
    case isTrue hmark => exact ⟨hmark, fun y hy => Or.inr hy, fun y hy => hy⟩
    case isFalse =>
      exact ⟨List.mem_cons_self, fun y hy => List.mem_cons.1 hy, fun y hy => List.mem_cons_of_mem _ hy⟩
  obtain ⟨hself, hold, hmono⟩ := hrecent
  have hkey : ∀ x ∈ a.lru, x ≠ n → key x ≠ key n := fun x hx hxn heq =>
    hxn (h.distinct x hx n hn heq)
  have hlater : ∀ x ∈ a.lru, x ≠ n → ∀ y, y = n ∨ Later key history guests y x →
      Later key (key n :: history)
        (Function.update guests n ((a.mark n).recent.toFinset.erase n)) y x := by
    intro x hx hxn y hy
    have hgo := Later.request (g := (a.mark n).recent.toFinset.erase n) hxn (hkey x hx hxn) hy
    rwa [Function.update_eq_self] at hgo
  refine ⟨?_, ?_, ?_, ?_, ?_, ?_⟩
  · rw [Lists.mark_lru]
    exact fun x hx => List.mem_cons_of_mem _ (h.requested x hx)
  · rw [Lists.mark_lru]
    exact h.distinct
  · intro x
    by_cases hx : x = n
    · subst hx
      rw [Function.update_self]
      have herase := Finset.card_erase_lt_of_mem (List.mem_toFinset.2 hself)
      have hlen := (a.mark x).recent.toFinset_card_le
      omega
    · rw [Function.update_of_ne hx]
      exact h.few x
  · intro x hx y hy hyx
    rw [Lists.mark_lru] at hx
    by_cases hxn : x = n
    · subst hxn
      right
      rw [Function.update_self]
      exact Finset.mem_erase.2 ⟨hyx, List.mem_toFinset.2 hy⟩
    · exact hlater x hx hxn y ((hold y hy).imp id fun hy => h.marked x hx y hy hyx)
  · rw [Lists.mark_lru]
    refine h.ahead.imp_of_mem fun {y x} _ hx hyx hunmarked => ?_
    have hxn : x ≠ n := fun heq => hunmarked (heq ▸ hself)
    exact hlater x hx hxn y (Or.inr (hyx fun hmark => hunmarked (hmono x hmark)))
  · intro k hk hgone
    rw [Lists.mark_lru] at hgone
    have hkn : key n ≠ k := hgone n hn
    have hfar := h.gone k ((List.mem_cons.1 hk).resolve_left (Ne.symm hkn)) hgone
    have := distance_le_cons history hkn
    omega

omit [DecidableEq K] in
/-- Only the front node has nothing before it. -/
theorem pairwise_not_front (hdup : a.lru.Nodup) : a.lru.Pairwise fun _ x => a.isFront x = false := by
  have hfront : ∀ x, a.isFront x = decide (a.lru.head? = some x) := fun _ => rfl
  simp only [hfront]
  cases hl : a.lru with
  | nil => exact List.Pairwise.nil
  | cons f l =>
      rw [hl] at hdup
      obtain ⟨hf, hdup⟩ := List.nodup_cons.1 hdup
      have hne : ∀ x ∈ l, decide ((f :: l).head? = some x) = false := fun x hx => by
        simpa using fun heq : f = x => hf (heq ▸ hx)
      exact List.pairwise_cons.2 ⟨hne, List.pairwise_of_forall_mem_list fun _ _ x hx => hne x hx⟩

/-- **A pull** moves only nodes that may stand before any other. -/
theorem pull (h : Retained cfg key a history guests) (hlinks : Links cfg m a) :
    Retained cfg key a.pull history guests := by
  have hmem := Lists.mem_pull_lru hlinks.recent_sub
  refine ⟨fun x hx => h.requested x ((hmem x).1 hx),
    fun x hx y hy => h.distinct x ((hmem x).1 hx) y ((hmem y).1 hy), h.few, ?_, ?_,
    fun k hk hgone => h.gone k hk fun x hx => hgone x ((hmem x).2 hx)⟩
  · intro x _ y hy
    cases hy
  · show (a.recent.filter _ ++ a.lru.filter _).Pairwise _
    refine List.pairwise_append.2 ⟨?_, ?_, ?_⟩
    · refine (hlinks.recent_nodup.filter _).pairwise_of_forall_ne fun y hy x hx hyx _ => ?_
      have hxl := hlinks.recent_sub x (List.mem_of_mem_filter hx)
      exact h.marked x hxl y (List.mem_of_mem_filter hy) hyx
    · -- of the nodes that stay, a marked one is the front node
      refine ((h.ahead.and (pairwise_not_front hlinks.lru_nodup)).filter _).imp_of_mem ?_
      rintro y x - hx ⟨hyx, hfront⟩ -
      have hstays : x ∉ a.recent ∨ a.isFront x = true := by simpa using (List.mem_filter.1 hx).2
      exact hyx (hstays.resolve_right (by simp [hfront]))
    · rintro y hy x hx -
      have hmoved : y ∈ a.recent ∧ a.isFront y = false := by simpa using List.mem_filter.1 hy
      have hstays : x ∈ a.lru ∧ (x ∉ a.recent ∨ a.isFront x = true) := by
        simpa using List.mem_filter.1 hx
      refine h.marked x hstays.1 y hmoved.1 ?_
      rintro rfl
      exact hstays.2.elim (fun hunmarked => hunmarked hmoved.1) (by simp [hmoved.2])

/-! ## Evictions -/

/-- **What a purge of the full cache takes**: nodes since whose last request almost all others have
    been requested. -/
theorem distance_victim (h : Retained cfg key a history guests) (hdup : a.lru.Nodup)
    (hfull : ∀ y, y ∈ a.lru) (hx : x ∈ a.evictable.take cfg.purgeThreshold) :
    ∃ s : Finset (Fin N), (∀ y ∈ s, key y ∈ since (key x) history) ∧
      N + 1 ≤ s.card + cfg.pullThreshold + cfg.purgeThreshold := by
  obtain ⟨hxl, hunmarked⟩ := Lists.evictable_sub (List.mem_of_mem_take hx)
  obtain ⟨l₁, l₂, hl⟩ := List.append_of_mem hxl
  have hahead := h.ahead
  rw [hl] at hdup hahead
  obtain ⟨-, hbehind, hdisjoint⟩ := List.nodup_append.1 hdup
  -- the nodes behind `x` that the purge meets first
  have hevictable : a.evictable =
      (l₂.reverse.filter fun y => y ∉ a.recent) ++
        x :: (l₁.tail.reverse.filter fun y => y ∉ a.recent) := by
    have hne : l₁ ≠ [] := by
      rintro rfl
      have hmem : x ∈ a.evictable := List.mem_of_mem_take hx
      rw [Lists.evictable, hl] at hmem
      exact (List.nodup_cons.1 hbehind).1 (by simpa using List.mem_of_mem_filter hmem)
    rw [Lists.evictable, hl, List.tail_append_of_ne_nil hne, List.reverse_append, List.reverse_cons,
      List.filter_append, List.filter_append, List.append_assoc]
    simp [hunmarked]
  have hfew : (l₂.reverse.filter fun y => y ∉ a.recent).length < cfg.purgeThreshold := by
    by_contra hmany
    rw [hevictable, List.take_append_of_le_length (not_lt.1 hmany)] at hx
    have hmem := List.mem_of_mem_filter (List.mem_of_mem_take hx)
    exact (List.nodup_cons.1 hbehind).1 (List.mem_reverse.1 hmem)
  refine ⟨Finset.univ.filter fun y => key y ∈ since (key x) history, by simp, ?_⟩
  have hcover : Finset.univ.erase x ⊆ (Finset.univ.filter fun y => key y ∈ since (key x) history) ∪
      (guests x ∪ (l₂.reverse.filter fun y => y ∉ a.recent).toFinset) := by
    intro y hy
    have hyx : y ≠ x := (Finset.mem_erase.1 hy).1
    have hlater : Later key history guests y x → y ∈ (Finset.univ.filter fun y =>
        key y ∈ since (key x) history) ∪
        (guests x ∪ (l₂.reverse.filter fun y => y ∉ a.recent).toFinset) := by
      rintro (hsince | hguest)
      · exact Finset.mem_union_left _ (by simpa using hsince)
      · exact Finset.mem_union_right _ (Finset.mem_union_left _ hguest)
    have hcase : y ∈ l₁ ∨ y ∈ l₂ := by
      have := hfull y
      rw [hl, List.mem_append, List.mem_cons] at this
      tauto
    rcases hcase with hy₁ | hy₂
    · exact hlater ((List.pairwise_append.1 hahead).2.2 y hy₁ x List.mem_cons_self hunmarked)
    · by_cases hmark : y ∈ a.recent
      · exact hlater (h.marked x hxl y hmark hyx)
      · exact Finset.mem_union_right _ (Finset.mem_union_right _ (by simp [hy₂, hmark]))
  have hcard := Finset.card_le_card hcover
  rw [Finset.card_erase_of_mem (Finset.mem_univ x), Finset.card_univ, Fintype.card_fin] at hcard
  have hunion := Finset.card_union_le (Finset.univ.filter fun y => key y ∈ since (key x) history)
    (guests x ∪ (l₂.reverse.filter fun y => y ∉ a.recent).toFinset)
  have hunion' := Finset.card_union_le (guests x) (l₂.reverse.filter fun y => y ∉ a.recent).toFinset
  have hlist := (l₂.reverse.filter fun y => y ∉ a.recent).toFinset_card_le
  have hguests := h.few x
  omega

/-- **A miss** evicts if the pool is empty, and its node gets the marked nodes as guests. -/
theorem insert {a₁ : Lists N} {p : List (Fin N)} {b : ℕ} (h : Retained cfg key a history guests)
    (hrep : Rep cfg m a) (hk : ∀ x ∈ a.lru, key x ≠ k) (ha₁ : a₁ = a.evict (a.displaced cfg))
    (hn : n ∉ a₁.lru) :
    Retained cfg (Function.update key n k) ({ a₁ with pool := p }.link n b) (k :: history)
      (Function.update guests n a.recent.toFinset) := by
  have hlru : a₁.lru = a.lru.filter fun x => x ∉ a.displaced cfg := by rw [ha₁]; rfl
  have hrecent : a₁.recent = a.recent := by rw [ha₁]; rfl
  have hsub : ∀ x ∈ a₁.lru, x ∈ a.lru := fun x hx => List.mem_of_mem_filter (hlru ▸ hx)
  have hne : ∀ x ∈ a₁.lru, x ≠ n := fun x hx heq => hn (heq ▸ hx)
  have hunmarked : ∀ x ∈ a.displaced cfg, x ∉ a.recent := by
    intro x hx
    rw [Lists.displaced] at hx
    split at hx
    · exact (Lists.evictable_sub (List.mem_of_mem_take hx)).2
    · cases hx
  have hmarked : ∀ y ∈ a.recent, y ∈ a₁.lru := fun y hy => by
    rw [hlru]
    exact List.mem_filter.2 ⟨hrep.recent_sub y hy, by simpa using fun hv => hunmarked y hv hy⟩
  have hupdate : ∀ x ∈ a₁.lru, Function.update key n k x = key x := fun x hx =>
    Function.update_of_ne (hne x hx) _ _
  refine ⟨?_, ?_, ?_, ?_, ?_, ?_⟩
  · intro x hx
    rcases List.mem_cons.1 hx with rfl | hx
    · rw [Function.update_self]
      exact List.mem_cons_self
    · rw [hupdate x hx]
      exact List.mem_cons_of_mem _ (h.requested x (hsub x hx))
  · intro x hx y hy heq
    rcases List.mem_cons.1 hx with rfl | hx₁
    · rcases List.mem_cons.1 hy with rfl | hy₁
      · rfl
      · rw [Function.update_self, hupdate y hy₁] at heq
        exact absurd heq.symm (hk y (hsub y hy₁))
    · rcases List.mem_cons.1 hy with rfl | hy₁
      · rw [Function.update_self, hupdate x hx₁] at heq
        exact absurd heq (hk x (hsub x hx₁))
      · rw [hupdate x hx₁, hupdate y hy₁] at heq
        exact h.distinct x (hsub x hx₁) y (hsub y hy₁) heq
  · intro x
    by_cases hx : x = n
    · subst hx
      rw [Function.update_self]
      exact lt_of_le_of_lt a.recent.toFinset_card_le hrep.belowThreshold
    · rw [Function.update_of_ne hx]
      exact h.few x
  · intro x hx y hy hyx
    have hy' : y ∈ a.recent := hrecent ▸ hy
    rcases List.mem_cons.1 hx with rfl | hx
    · right
      rw [Function.update_self]
      exact List.mem_toFinset.2 hy'
    · exact Later.request (hne x hx) (hk x (hsub x hx)) (Or.inr (h.marked x (hsub x hx) y hy' hyx))
  · refine List.pairwise_cons.2 ⟨fun x hx _ => ?_, ?_⟩
    · exact Later.request (hne x hx) (hk x (hsub x hx)) (Or.inl rfl)
    · have hsublist : a₁.lru.Sublist a.lru := hlru ▸ List.filter_sublist
      refine (h.ahead.sublist hsublist).imp_of_mem fun {y x} _ hx hyx hmark => ?_
      exact Later.request (hne x hx) (hk x (hsub x hx)) (Or.inr (hyx (hrecent ▸ hmark)))
  · intro k' hk' hgone
    have hkk' : k ≠ k' := by
      have := hgone n List.mem_cons_self
      rwa [Function.update_self] at this
    have hrequested := (List.mem_cons.1 hk').resolve_left (Ne.symm hkk')
    by_cases hwas : ∀ x ∈ a.lru, key x ≠ k'
    · have hfar := h.gone k' hrequested hwas
      have := distance_le_cons history hkk'
      omega
    · -- its node has just been evicted, and the request is for yet another key
      push Not at hwas
      obtain ⟨x, hx, rfl⟩ := hwas
      have hvictim : x ∈ a.displaced cfg := by
        by_contra hstays
        have hx₁ : x ∈ a₁.lru := hlru ▸ List.mem_filter.2 ⟨hx, by simpa using hstays⟩
        exact hgone x (List.mem_cons_of_mem _ hx₁) (hupdate x hx₁)
      rw [Lists.displaced] at hvictim
      split at hvictim
      case isFalse => cases hvictim
      case isTrue hpool =>
        have hfull : ∀ y, y ∈ a.lru := fun y => (hrep.total y).resolve_left (by simp [hpool])
        obtain ⟨s, hs, hcard⟩ := h.distance_victim hrep.lru_nodup hfull hvictim
        have hinj : Set.InjOn key s := fun y _ z _ heq => h.distinct y (hfull y) z (hfull z) heq
        have hnew : k ∉ s.image key := by
          rw [Finset.mem_image]
          rintro ⟨y, -, heq⟩
          exact hk y (hfull y) heq
        have hsub' : Insert.insert k (s.image key) ⊆ (since (key x) (k :: history)).toFinset := by
          intro k'' hk''
          rw [since_cons_of_ne hkk', List.mem_toFinset, List.mem_cons]
          rcases Finset.mem_insert.1 hk'' with rfl | hk''
          · exact Or.inl rfl
          · obtain ⟨y, hy, rfl⟩ := Finset.mem_image.1 hk''
            exact Or.inr (hs y hy)
        have hle := Finset.card_le_card hsub'
        rw [Finset.card_insert_of_notMem hnew, Finset.card_image_of_injOn hinj] at hle
        show N + 2 ≤ (since (key x) (k :: history)).toFinset.card + _ + _
        omega

end Retained

/-! ## Sequences of memoized calls -/

/-- **A memoized call** misses only if no node has its key. -/
theorem consume_retained {fuel : ℕ} (hrep : Rep cfg m a) (h : Retained cfg m.key a history guests)
    (hlt : cfg.pullThreshold < N) (hfuel : N < fuel) (k : K) (x : V) :
    ∃ r m' trace a' guests', consumeCachedOrCompute cfg fuel m k x = .returned r m' trace ∧
      Rep cfg m' a' ∧ Retained cfg m'.key a' (k :: history) guests' ∧
      (hasHit trace = false → ∀ n ∈ a.lru, m.key n ≠ k) := by
  cases hk : a.lookup cfg m k with
  | some n =>
      obtain ⟨m', a', events, hrun, hrep', hkey, -, hcase⟩ := find_hit hrep hk hfuel
      obtain ⟨hn, rfl⟩ := Lists.lookup_spec hrep.toLinks hk
      have hfew : (a.mark n).recent.length ≤ cfg.pullThreshold := by
        have hbelow := hrep.belowThreshold
        unfold Lists.mark
        split
        case isTrue => exact hbelow.le
        case isFalse => exact hbelow
      have hmark := h.mark hn hfew
      have hafter : Retained cfg m'.key a' (m.key n :: history)
          (Function.update guests n ((a.mark n).recent.toFinset.erase n)) := by
        rw [hkey]
        rcases hcase with ⟨rfl, -, -⟩ | ⟨rfl, -, -⟩
        · exact hmark
        · exact hmark.pull (markNodeRecent_spec hrep.toLinks hn)
      refine ⟨m.value n, m', .hit n :: events, a', _, ?_, hrep', hafter, fun hmiss => ?_⟩
      · rw [consumeCachedOrCompute, hrun]
      · cases hmiss
  | none =>
      have hmissing : ∀ n ∈ a.lru, m.key n ≠ k := by
        intro n hn heq
        have hmem : n ∈ a.bucket (cfg.keyToBucketNr k) := (hrep.mem_bucket _ n).2 ⟨hn, by rw [heq]⟩
        exact List.find?_eq_none.1 hk n hmem (by simpa using heq)
      obtain ⟨a₁, n, p, m', events, hrun, hp, hn, halloc, hrep', hkey, -⟩ :=
        insert_spec hrep (hrep.available_of_threshold_lt hlt) hfuel k x
      have hafter := h.insert (b := cfg.keyToBucketNr k) (p := p) hrep hmissing
        (halloc.lists (by simp [hp])) hn
      rw [← hkey] at hafter
      refine ⟨x, m', events ++ [.inserted n k x], _, _, ?_, hrep', hafter, fun _ => hmissing⟩
      rw [consumeCachedOrCompute, find_miss hrep hk hfuel]
      simp only [hrun, List.nil_append]

theorem getElem?_serve_retained {fuel : ℕ} (hrep : Rep cfg m a)
    (h : Retained cfg m.key a history guests) (hlt : cfg.pullThreshold < N) (hfuel : N < fuel)
    (requests : List (K × V)) :
    ∃ served, serve cfg fuel m requests = some served ∧ served.length = requests.length ∧
      ∀ i request, requests[i]? = some request → ∃ s, served[i]? = some s ∧
        ∀ capacity, capacity + cfg.pullThreshold + cfg.purgeThreshold ≤ N + 2 →
          Within capacity (((requests.take i).map Prod.fst).reverse ++ history) request.1 →
          s.hit = true := by
  induction requests generalizing m a history guests with
  | nil => exact ⟨[], rfl, rfl, fun i request hi => by cases hi⟩
  | cons first requests ih =>
      obtain ⟨k, x⟩ := first
      obtain ⟨r, m', trace, a', guests', hrun, hrep', h', hmiss⟩ :=
        consume_retained hrep h hlt hfuel k x
      obtain ⟨served, hserve, hlen, hserved⟩ := ih hrep' h'
      have hall : serve cfg fuel m ((k, x) :: requests) =
          some (⟨hasHit trace, r, onDeletes trace⟩ :: served) := by
        rw [serve, hrun]
        simp [hserve]
      refine ⟨_, hall, congrArg (· + 1) hlen, fun i request hi => ?_⟩
      cases i with
      | zero =>
          cases hi
          refine ⟨_, rfl, fun capacity hroom hwithin => ?_⟩
          obtain ⟨hrequested, hnear⟩ := hwithin
          by_contra hnohit
          have hfar := h.gone k hrequested (hmiss (Bool.eq_false_iff.2 hnohit))
          have hnear' : distance k history < capacity := hnear
          omega
      | succ i =>
          obtain ⟨s, hs, hhit⟩ := hserved i request hi
          refine ⟨s, hs, fun capacity hroom hwithin => hhit capacity hroom ?_⟩
          rw [List.take_succ_cons, List.map_cons, List.reverse_cons, List.append_assoc] at hwithin
          exact hwithin

/-- **A `DeferredLRU` hits within its capacity less its thresholds.** Whatever the requests, one whose
    key was requested before hits unless its reuse distance is at least `N + 2` less both thresholds. -/
theorem serve_retained [Inhabited K] [Inhabited V] (cfg : Config N K)
    (hlt : cfg.pullThreshold < N) {fuel : ℕ} (hfuel : N < fuel) (requests : List (K × V)) :
    ∃ served, serve cfg fuel (allocateMemory N K V) requests = some served ∧
      served.length = requests.length ∧
      ∀ i request, requests[i]? = some request → ∃ s, served[i]? = some s ∧
        ∀ capacity, capacity + cfg.pullThreshold + cfg.purgeThreshold ≤ N + 2 →
          Within capacity ((requests.take i).map Prod.fst).reverse request.1 → s.hit = true := by
  obtain ⟨served, hserve, hlen, hserved⟩ :=
    getElem?_serve_retained (allocateMemory_rep cfg) Retained.initial hlt hfuel requests
  simp only [List.append_nil] at hserved
  exact ⟨served, hserve, hlen, hserved⟩

/-- **A `DeferredLRU` is no worse than an `LRUCache` with `N + 2` elements less both thresholds.**
    Whatever the requests, it hits on every one on which that cache hits. -/
theorem serve_covers [DecidableEq V] [Inhabited K] [Inhabited V] {capacity : ℕ} (cfg : Config N K)
    (plain : LruCache.Config capacity K) (hlt : cfg.pullThreshold < N)
    (hroom : capacity + cfg.pullThreshold + cfg.purgeThreshold ≤ N + 2) {fuel : ℕ} (hfuel : N < fuel)
    (requests : List (K × V)) :
    ∃ served served', serve cfg fuel (allocateMemory N K V) requests = some served ∧
      (LruCache.allocateMemory plain).bind (fun s => LruCache.serve plain.toArguments fuel s.1 requests) =
        some served' ∧
      List.Forall₂ (fun s s' : Served K V => s'.hit = true → s.hit = true) served served' := by
  obtain ⟨served, hserve, hlen, hserved⟩ := serve_retained (V := V) cfg hlt hfuel requests
  have hfuel' : capacity < fuel := by
    have hpull := cfg.pullThreshold_pos
    have hpurge := cfg.purgeThreshold_pos
    omega
  obtain ⟨served', hserve', hserved'⟩ := LruCache.serve_hit_iff plain hfuel' requests
  have hlen' : served'.length = requests.length := by
    rw [LruCache.serve_fresh plain hfuel' requests] at hserve'
    rw [← Option.some.inj hserve', LruCache.length_serve]
  refine ⟨served, served', hserve, hserve', List.forall₂_iff_get.2 ⟨hlen.trans hlen'.symm,
    fun i hi hi' hhit => ?_⟩⟩
  have hrequest : requests[i]? = some requests[i] := List.getElem?_eq_getElem (hlen ▸ hi)
  obtain ⟨s, hs, hwithin⟩ := hserved i _ hrequest
  obtain ⟨s', hs', hiff⟩ := hserved' i _ hrequest
  obtain ⟨_, rfl⟩ := List.getElem?_eq_some_iff.1 hs
  obtain ⟨_, rfl⟩ := List.getElem?_eq_some_iff.1 hs'
  exact hwithin capacity hroom (hiff.1 hhit)

theorem serve_covers_threeNodes : ∃ served served' : List (Served ℕ ℕ),
    serve threeNodes 4 (allocateMemory 3 ℕ ℕ)
        [(1, 10), (2, 20), (1, 11), (3, 30), (4, 40), (3, 31), (1, 12)] = some served ∧
      (LruCache.allocateMemory LruCache.twoElements).bind (fun s =>
        LruCache.serve LruCache.twoElements.toArguments 4 s.1
          [(1, 10), (2, 20), (1, 11), (3, 30), (4, 40), (3, 31), (1, 12)]) = some served' ∧
      List.Forall₂ (fun s s' : Served ℕ ℕ => s'.hit = true → s.hit = true) served served' :=
  serve_covers threeNodes LruCache.twoElements (Nat.lt_succ_self 2) (Nat.le_refl 5)
    (Nat.lt_succ_self 3) _

end DeferredLru
