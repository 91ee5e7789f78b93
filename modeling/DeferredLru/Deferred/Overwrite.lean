import DeferredLru.Deferred.History

set_option autoImplicit false

/-! # Two entries with one key

An `insert` does not look for an entry with its key, so after `insert(k, v)` and `insert(k, w)` two
entries with the key `k` are live. A `find(k)` returns the newer one, and marks it. But if the older
one carries a mark from before, the next pull takes it to the front, ahead of the newer one, and a
purge may then evict the newer one and leave the older (`not_latest`).

That is the only way an old value comes back: in a run that inserts no key of which a marked entry is
live, the older of two entries with one key is unmarked and stands behind the newer one in the LRU
list (`Superseded`), so it is evicted first. -/

namespace DeferredLru

open Intrusive

variable {N : ℕ} {K V : Type} {cfg : Config N K} {m m' : Mem N K V} {a a' : Lists N}
  {trace trace' : List (Event N K V)}

/-! ## One node before another -/

section Before

variable {α : Type*} {l l₁ l₂ : List α} {x y : α}

/-- A prefix that contains the later of two members contains the earlier one. -/
theorem mem_take_of_sublist (hdup : l.Nodup) (h : [y, x].Sublist l) {i : ℕ} (hx : x ∈ l.take i) :
    y ∈ l.take i := by
  rw [← List.take_append_drop i l] at h hdup
  obtain ⟨s₁, s₂, heq, h₁, h₂⟩ := List.sublist_append_iff.1 h
  have hdrop : x ∉ s₂ := fun hmem =>
    (List.nodup_append.1 hdup).2.2 x hx x (h₂.subset hmem) rfl
  cases s₁ with
  | nil =>
      obtain rfl : s₂ = [y, x] := by simpa using heq.symm
      exact absurd (by simp) hdrop
  | cons z s₁ =>
      obtain rfl : y = z := by simpa using congrArg List.head? heq
      exact h₁.subset (by simp)

/-- The first match of a search stands before every other match. -/
theorem sublist_of_find {p : α → Bool} (hx : l.find? p = some x) (hy : y ∈ l) (hpy : p y = true)
    (hne : y ≠ x) : [x, y].Sublist l := by
  obtain ⟨-, s, t, rfl, hs⟩ := List.find?_eq_some_iff_append.1 hx
  have hyt : y ∈ t := by
    rcases List.mem_append.1 hy with hys | hyt
    · exact absurd hpy (by simpa using hs y hys)
    · exact (List.mem_cons.1 hyt).resolve_left hne
  exact List.Sublist.trans ((List.singleton_sublist.2 hyt).cons_cons x)
    (List.sublist_append_right s _)

/-- What stands before the first match of a search does not match. -/
theorem not_sublist_find {p : α → Bool} (hdup : l.Nodup) (hy : l.find? p = some y) (hx : p x = true) :
    ¬ [x, y].Sublist l := by
  intro h
  obtain ⟨-, s, t, rfl, hs⟩ := List.find?_eq_some_iff_append.1 hy
  obtain ⟨-, hyt, hdisj⟩ := List.nodup_append.1 hdup
  obtain ⟨s₁, s₂, heq, h₁, h₂⟩ := List.sublist_append_iff.1 h
  cases s₁ with
  | nil =>
      obtain rfl : s₂ = [x, y] := by simpa using heq.symm
      cases h₂ with
      | cons _ h₂ => exact (List.nodup_cons.1 hyt).1 (h₂.subset (by simp))
      | cons_cons _ h₂ => exact (List.nodup_cons.1 hyt).1 (h₂.subset (by simp))
  | cons z s₁ =>
      obtain rfl : x = z := by simpa using congrArg List.head? heq
      have := hs x (h₁.subset (by simp))
      simp [hx] at this

theorem sublist_tail (hdup : l.Nodup) (h : [x, y].Sublist l) (hx : x ∈ l.tail) :
    [x, y].Sublist l.tail := by
  cases h with
  | cons _ h => exact h
  | cons_cons _ h => exact absurd hx (List.nodup_cons.1 hdup).1

end Before

/-! ## The latest insert -/

/-- The value of the latest `insert` with the key `k` among the calls, oldest first. -/
def latestInsert [DecidableEq K] (k : K) (ops : List (Op K V)) : Option V :=
  ops.reverse.findSome? fun op => match op with
    | .insert k' v => if k' = k then some v else none
    | _ => none

theorem latestInsert_find [DecidableEq K] (k k' : K) (ops : List (Op K V)) :
    latestInsert k (ops ++ [.find k']) = latestInsert k ops := by
  simp [latestInsert]

theorem latestInsert_insert [DecidableEq K] (k k' : K) (v : V) (ops : List (Op K V)) :
    latestInsert k (ops ++ [.insert k' v]) = if k' = k then some v else latestInsert k ops := by
  by_cases hk : k' = k
  · simp [latestInsert, hk]
  · simp [latestInsert, hk]

/-- The older of two entries with one key is unmarked and behind the newer one. -/
structure Superseded [DecidableEq K] (cfg : Config N K) (m : Mem N K V) (a : Lists N)
    (latest : K → Option V) : Prop where
  older : ∀ b x y, [x, y].Sublist (a.bucket b) → m.key x = m.key y →
    [x, y].Sublist a.lru ∧ y ∉ a.recent
  latest : ∀ k n, a.lookup cfg m k = some n → latest k = some (m.value n)

namespace Superseded

variable [DecidableEq K] {latest : K → Option V}

/-- A hit marks the newest entry with its key. -/
theorem mark {k : K} {n : Fin N} (h : Superseded cfg m a latest) (hlinks : Links cfg m a)
    (hn : a.lookup cfg m k = some n) : Superseded cfg m (a.mark n) latest := by
  have hkey := (Lists.lookup_spec hlinks hn).2
  have hbucket : (a.mark n).bucket = a.bucket := by unfold Lists.mark; split <;> rfl
  refine ⟨fun b x y hxy hk => ?_, fun k' n' hn' => h.latest k' n' ?_⟩
  · rw [hbucket] at hxy
    obtain ⟨hlru, hy⟩ := h.older b x y hxy hk
    refine ⟨by rwa [Lists.mark_lru], fun hym => ?_⟩
    have hyn : y = n := by
      unfold Lists.mark at hym
      split_ifs at hym with hmark
      · exact absurd hym hy
      · exact (List.mem_cons.1 hym).resolve_right hy
    subst hyn
    have hb : b = cfg.keyToBucketNr k := by
      rw [← hkey]
      exact (((hlinks.mem_bucket b y).1 (hxy.subset (by simp))).2).symm
    subst hb
    exact not_sublist_find (hlinks.bucket_nodup _) hn (by simpa using hk.trans hkey) hxy
  · unfold Lists.lookup at hn' ⊢
    rwa [hbucket] at hn'

/-- A pull keeps unmarked nodes behind those they were behind. -/
theorem pull (h : Superseded cfg m a latest) : Superseded cfg m a.pull latest := by
  refine ⟨fun b x y hxy hk => ⟨?_, by simp [Lists.pull]⟩, h.latest⟩
  obtain ⟨hlru, hy⟩ := h.older b x y hxy hk
  have hyrest : y ∈ a.lru.filter (fun n => n ∉ a.recent || a.isFront n) :=
    List.mem_filter.2 ⟨hlru.subset (by simp), by simp [hy]⟩
  show [x, y].Sublist (a.recent.filter _ ++ a.lru.filter _)
  by_cases hx : x ∈ a.recent ∧ a.isFront x = false
  · have hxmoved : x ∈ a.recent.filter (fun n => !a.isFront n) :=
      List.mem_filter.2 ⟨hx.1, by simp [hx.2]⟩
    exact (List.singleton_sublist.2 hxmoved).append (List.singleton_sublist.2 hyrest)
  · have hxrest : x ∉ a.recent ∨ a.isFront x = true := by
      by_cases hxr : x ∈ a.recent
      · right
        simpa [hxr] using hx
      · exact Or.inl hxr
    have hboth := hlru.filter (fun n => n ∉ a.recent || a.isFront n)
    have heq : [x, y].filter (fun n => n ∉ a.recent || a.isFront n) = [x, y] := by
      rw [List.filter_eq_self]
      simpa [hy] using hxrest
    rw [heq] at hboth
    exact hboth.trans (List.sublist_append_right _ _)

/-- A purge evicts an older entry before a newer one with the same key. -/
theorem evict (h : Superseded cfg m a latest) (hlinks : Links cfg m a) (required : ℕ) :
    Superseded cfg m (a.purge required) latest := by
  have hkept : ∀ {l : List (Fin N)} {x y : Fin N}, [x, y].Sublist l →
      x ∉ a.evictable.take required → y ∉ a.evictable.take required →
      [x, y].Sublist (l.filter (fun n => n ∉ a.evictable.take required)) := by
    intro l x y hxy hx hy
    have hboth := hxy.filter (fun n => decide (n ∉ a.evictable.take required))
    rwa [List.filter_cons_of_pos (by simpa using hx), List.filter_cons_of_pos (by simpa using hy),
      List.filter_nil] at hboth
  refine ⟨fun b x y hxy hk => ?_, fun k n hn => ?_⟩
  · have hxyb : [x, y].Sublist (a.bucket b) := hxy.trans List.filter_sublist
    obtain ⟨hlru, hy⟩ := h.older b x y hxyb hk
    have hout : ∀ z ∈ [x, y], z ∉ a.evictable.take required := fun z hz => by
      simpa using List.of_mem_filter (hxy.subset hz)
    exact ⟨hkept hlru (hout x (by simp)) (hout y (by simp)), hy⟩
  · have hn' : ((a.bucket (cfg.keyToBucketNr k)).filter
        (fun n => n ∉ a.evictable.take required)).find? (fun x => m.key x = k) = some n := hn
    obtain ⟨hnb, hnout⟩ := List.mem_filter.1 (List.mem_of_find?_eq_some hn')
    have hnk : m.key n = k := by simpa using List.find?_some hn'
    cases hx : a.lookup cfg m k with
    | none =>
        have := List.find?_eq_none.1 hx n hnb
        simp [hnk] at this
    | some x =>
        have hxk := (Lists.lookup_spec hlinks hx).2
        by_cases hxn : x = n
        · rw [← hxn]
          exact h.latest k x hx
        · -- the newer entry `x` was evicted, so the older `n` was, too
          exfalso
          have hbefore : [x, n].Sublist (a.bucket (cfg.keyToBucketNr k)) :=
            sublist_of_find hx hnb (by simpa using hnk) (Ne.symm hxn)
          have hnotin : n ∉ a.evictable.take required := by simpa using hnout
          have hxout : x ∈ a.evictable.take required := by
            by_contra hxin
            exact not_sublist_find ((hlinks.bucket_nodup _).filter _) hn' (by simpa using hxk)
              (hkept hbefore hxin hnotin)
          obtain ⟨hlru, hunmarked⟩ := h.older _ x n hbefore (hxk.trans hnk.symm)
          have hev : x ∈ a.lru.tail.reverse ∧ x ∉ a.recent := by
            simpa [Lists.evictable] using List.mem_of_mem_take hxout
          have htail : [x, n].Sublist a.lru.tail :=
            sublist_tail hlinks.lru_nodup hlru (List.mem_reverse.1 hev.1)
          have hrev : [n, x].Sublist a.evictable := by
            have hboth := htail.reverse.filter (fun y => y ∉ a.recent)
            rwa [show [x, n].reverse = [n, x] from rfl,
              List.filter_cons_of_pos (by simpa using hunmarked),
              List.filter_cons_of_pos (by simpa using hev.2), List.filter_nil] at hboth
          exact hnotin (mem_take_of_sublist hlinks.evictable_nodup hrev hxout)

/-- The new entry is the newest with its key, and no older one is marked. -/
theorem link {n : Fin N} {k : K} {v : V} {p : List (Fin N)} (h : Superseded cfg m a latest)
    (hmem : ∀ b x, x ∈ a.bucket b → x ∈ a.lru) (hn : n ∉ a.lru)
    (hkey : m'.key = Function.update m.key n k)
    (hvalue : m'.value = Function.update m.value n v)
    (hunmarked : ∀ x ∈ a.lru, m.key x = k → x ∉ a.recent) :
    Superseded cfg m' ({ a with pool := p }.link n (cfg.keyToBucketNr k))
      (fun k' => if k = k' then some v else latest k') := by
  have hother : ∀ b, ∀ x ∈ a.bucket b, x ≠ n ∧ m'.key x = m.key x ∧ m'.value x = m.value x := by
    intro b x hx
    have hne : x ≠ n := fun heq => hn (heq ▸ hmem b x hx)
    rw [hkey, hvalue, Function.update_of_ne hne, Function.update_of_ne hne]
    exact ⟨hne, rfl, rfl⟩
  have hself : m'.key n = k ∧ m'.value n = v := by simp [hkey, hvalue]
  have hold : ∀ b x y, [x, y].Sublist (a.bucket b) → m'.key x = m'.key y →
      [x, y].Sublist (n :: a.lru) ∧ y ∉ a.recent := by
    intro b x y hxy hk
    rw [(hother b x (hxy.subset (by simp))).2.1, (hother b y (hxy.subset (by simp))).2.1] at hk
    obtain ⟨hlru, hy⟩ := h.older b x y hxy hk
    exact ⟨hlru.cons n, hy⟩
  refine ⟨fun b x y hxy hk => ?_, fun k' x hx => ?_⟩
  · have hxy' : [x, y].Sublist
        (Function.update a.bucket (cfg.keyToBucketNr k) (n :: a.bucket (cfg.keyToBucketNr k)) b) := hxy
    by_cases hb : b = cfg.keyToBucketNr k
    · subst hb
      rw [Function.update_self] at hxy'
      cases hxy' with
      | cons _ hxy' => exact hold _ x y hxy' hk
      | cons_cons _ hy' =>
          -- the newer of the two is `n` itself, the new head of the LRU list
          have hyb := List.singleton_sublist.1 hy'
          have hylru := hmem _ y hyb
          rw [hself.1, (hother _ y hyb).2.1] at hk
          exact ⟨(List.singleton_sublist.2 hylru).cons_cons n, hunmarked y hylru hk.symm⟩
    · rw [Function.update_of_ne hb] at hxy'
      exact hold b x y hxy' hk
  · have hx' : (Function.update a.bucket (cfg.keyToBucketNr k)
        (n :: a.bucket (cfg.keyToBucketNr k)) (cfg.keyToBucketNr k')).find?
          (fun y => m'.key y = k') = some x := hx
    by_cases hk : k = k'
    · subst hk
      rw [Function.update_self, List.find?_cons_of_pos (by simpa using hself.1)] at hx'
      cases hx'
      rw [if_pos rfl, hself.2]
    · rw [if_neg hk]
      -- another key: `n` is passed over, or is in another bucket
      have hrest : (a.bucket (cfg.keyToBucketNr k')).find? (fun y => m'.key y = k') = some x := by
        by_cases hb : cfg.keyToBucketNr k' = cfg.keyToBucketNr k
        · rw [hb, Function.update_self, List.find?_cons_of_neg (by simpa [hself.1] using hk)] at hx'
          rwa [hb]
        · rwa [Function.update_of_ne hb] at hx'
      rw [List.find?_congr (fun y hy => by rw [(hother _ y hy).2.1])] at hrest
      rw [(hother _ x (List.mem_of_find?_eq_some hrest)).2.2]
      exact h.latest k' x hrest

theorem congr (h : Superseded cfg m a latest) (hkey : m'.key = m.key) (hvalue : m'.value = m.value) :
    Superseded cfg m' a latest := by
  refine ⟨fun b x y hxy hk => h.older b x y hxy ?_, fun k n hn => ?_⟩
  · rwa [hkey] at hk
  · rw [hvalue]
    refine h.latest k n ?_
    unfold Lists.lookup at hn ⊢
    rwa [hkey] at hn

/-- A completed `find`. -/
theorem find {fuel : ℕ} {k : K} {r : Option V} (h : Superseded cfg m a latest) (hrep : Rep cfg m a)
    (hrun : find cfg fuel m k = .returned r m' trace') :
    (∃ a', Rep cfg m' a' ∧ Superseded cfg m' a' latest) ∧ ∀ v, r = some v → latest k = some v := by
  rcases find_cases hrep hrun with ⟨-, rfl, rfl, -⟩ | ⟨n, a', hk, rfl, hrep', hkey, hvalue, hcase⟩
  · exact ⟨⟨a, hrep, h⟩, fun v hv => by cases hv⟩
  · have hmark := (h.mark hrep.toLinks hk).congr hkey hvalue
    refine ⟨⟨a', hrep', ?_⟩, fun v hv => ?_⟩
    · rcases hcase with ⟨rfl, -, -⟩ | ⟨rfl, -, -⟩
      · exact hmark
      · exact hmark.pull
    · cases hv
      exact h.latest k n hk

/-- A completed `insert` of a key of which no marked entry is live. -/
theorem insert {fuel : ℕ} {k : K} {v : V} (h : Superseded cfg m a latest) (hrep : Rep cfg m a)
    (hunmarked : ∀ x ∈ a.lru, m.key x = k → x ∉ a.recent)
    (hrun : insert cfg fuel m k v = .returned () m' trace') :
    ∃ a', Rep cfg m' a' ∧ Superseded cfg m' a' (fun k' => if k = k' then some v else latest k') := by
  obtain ⟨a₁, n, p, events, -, -, hn, ha₁, -, hrep', hkey, hvalue, -⟩ := insert_cases hrep hrun
  have hevict : Superseded cfg m a₁ latest := by
    rw [ha₁, Lists.displaced]
    split
    · exact h.evict hrep.toLinks cfg.purgeThreshold
    · rwa [Lists.evict_nil]
  have hsub : ∀ x ∈ a₁.lru, x ∈ a.lru := by
    rw [ha₁]
    exact fun x hx => List.mem_of_mem_filter hx
  have hmem : ∀ b x, x ∈ a₁.bucket b → x ∈ a₁.lru := by
    rw [ha₁]
    intro b x hx
    obtain ⟨hx, hout⟩ := List.mem_filter.1 hx
    exact List.mem_filter.2 ⟨((hrep.mem_bucket b x).1 hx).1, hout⟩
  have hrecent : a₁.recent = a.recent := by rw [ha₁]; rfl
  refine ⟨_, hrep', hevict.link hmem hn hkey hvalue (fun x hx hk => ?_)⟩
  rw [hrecent]
  exact hunmarked x (hsub x hx) hk

end Superseded

/-! ## Runs -/

/-- No live entry with the key `k` carries a Recent mark. With a pull threshold of one none is ever
    marked between two calls. -/
def FreshKey (cfg : Config N K) (m : Mem N K V) (k : K) : Prop :=
  cfg.pullThreshold = 1 ∨ ∀ n, m.Resident n → m.key n = k → m.markedRecent n = false

/-- With a pull threshold of one no mark survives the `find` that set it. -/
theorem Rep.unmarked {k : K} (h : Rep cfg m a) (hfresh : FreshKey cfg m k) :
    ∀ x ∈ a.lru, m.key x = k → x ∉ a.recent := by
  intro x hx hk hmark
  rcases hfresh with hP | hfresh
  · have hlt := h.belowThreshold
    have hpos := List.length_pos_of_mem hmark
    omega
  · have := hfresh x ((h.lru.resident_iff x).2 hx) hk
    rw [(h.markedRecent_iff x).2 hmark] at this
    cases this

variable [Inhabited K] [Inhabited V] [DecidableEq K]

/-- A run of `find` and `insert` calls in which every inserted key is fresh. -/
inductive FreshRun (cfg : Config N K) :
    List (Op K V) → Mem N K V → List (Event N K V) → Prop
  | start : FreshRun cfg [] (allocateMemory N K V) []
  | find {ops : List (Op K V)} {k : K} {m m' : Mem N K V} {trace trace' : List (Event N K V)} :
      FreshRun cfg ops m trace → Completes cfg m (.find k) m' trace' →
      FreshRun cfg (ops ++ [.find k]) m' (trace ++ trace')
  | insert {ops : List (Op K V)} {k : K} {v : V} {m m' : Mem N K V}
      {trace trace' : List (Event N K V)} :
      FreshRun cfg ops m trace → FreshKey cfg m k → Completes cfg m (.insert k v) m' trace' →
      FreshRun cfg (ops ++ [.insert k v]) m' (trace ++ trace')

theorem superseded_initial :
    Superseded cfg (allocateMemory N K V) (.initial N) (fun k => latestInsert k ([] : List (Op K V))) :=
  ⟨fun _ _ _ hxy => absurd hxy (by simp [Lists.initial]), fun _ _ hn => by cases hn⟩

theorem FreshRun.superseded {ops : List (Op K V)} (h : FreshRun cfg ops m trace) :
    ∃ a, Rep cfg m a ∧ Superseded cfg m a (fun k => latestInsert k ops) := by
  induction h with
  | start => exact ⟨_, allocateMemory_rep cfg, superseded_initial⟩
  | find _ hcall ih =>
      obtain ⟨a, hrep, hsup⟩ := ih
      cases hcall with
      | find hrun =>
          obtain ⟨⟨a', hrep', hsup'⟩, -⟩ := hsup.find hrep hrun
          refine ⟨a', hrep', ?_⟩
          simpa only [latestInsert_find] using hsup'
  | insert _ hfresh hcall ih =>
      obtain ⟨a, hrep, hsup⟩ := ih
      cases hcall with
      | insert hrun =>
          obtain ⟨a', hrep', hsup'⟩ := hsup.insert hrep (hrep.unmarked hfresh) hrun
          refine ⟨a', hrep', ?_⟩
          simpa only [latestInsert_insert] using hsup'

/-- **No overwritten value comes back** in a run that inserts no key of which a marked entry is live:
    a `find(k)` that succeeds delivers the value of the latest `insert` with the key `k`. -/
theorem FreshRun.latest {ops : List (Op K V)} (h : FreshRun cfg ops m trace) {fuel : ℕ} {k : K} {v : V}
    (hrun : DeferredLru.find cfg fuel m k = .returned (some v) m' trace') :
    latestInsert k ops = some v := by
  obtain ⟨a, hrep, hsup⟩ := h.superseded
  exact (hsup.find hrep hrun).2 v rfl

/-- Two nodes, one bucket, a pull after two marks. -/
def twoMarks : Config 2 ℕ := { twoNodes with
  pullThreshold := 2
  pullThreshold_pos := Nat.two_pos }

theorem FreshRun.latest_twoMarks : ∃ (m m' : Mem 2 ℕ ℕ) (trace trace' : List (Event 2 ℕ ℕ)),
    FreshRun twoMarks [.insert 1 10, .insert 1 20] m trace ∧
      DeferredLru.find twoMarks 3 m 1 = .returned (some 20) m' trace' ∧
      latestInsert 1 [Op.insert 1 10, .insert 1 20] = some 20 := by
  have hone : FreshRun twoMarks [.insert 1 10] _ _ :=
    FreshRun.start.insert (Or.inr (fun _ _ _ => rfl))
      (.insert (show DeferredLru.insert twoMarks 3 _ 1 10 = _ from rfl))
  have htwo : FreshRun twoMarks ([.insert 1 10] ++ [.insert 1 20]) _ _ :=
    hone.insert (Or.inr (fun n _ _ => by match n with | 0 => rfl | 1 => rfl))
      (.insert (show DeferredLru.insert twoMarks 3 _ 1 20 = _ from rfl))
  exact ⟨_, _, _, _, htwo, rfl,
    htwo.latest (show DeferredLru.find twoMarks 3 _ 1 = .returned (some 20) _ _ from rfl)⟩

/-- The older entry is marked when the newer one is inserted, and is pulled ahead of it; then the
    newer one is evicted. -/
theorem Run.not_latest : ∃ (m m' : Mem 2 ℕ ℕ) (trace trace' : List (Event 2 ℕ ℕ)),
    Run twoMarks [.insert 1 10, .find 1, .insert 1 20, .find 1, .insert 2 30] m trace ∧
      DeferredLru.find twoMarks 3 m 1 = .returned (some 10) m' trace' ∧
      latestInsert 1 [Op.insert 1 10, .find 1, .insert 1 20, .find 1, .insert 2 30] = some 20 := by
  have h : Run twoMarks [.insert 1 10, .find 1, .insert 1 20, .find 1, .insert 2 30] _ _ :=
    ((((Run.start.call (.insert (show DeferredLru.insert twoMarks 3 _ 1 10 = _ from rfl))).call
      (.find (show DeferredLru.find twoMarks 3 _ 1 = _ from rfl))).call
      (.insert (show DeferredLru.insert twoMarks 3 _ 1 20 = _ from rfl))).call
      (.find (show DeferredLru.find twoMarks 3 _ 1 = _ from rfl))).call
      (.insert (show DeferredLru.insert twoMarks 3 _ 2 30 = _ from rfl))
  exact ⟨_, _, _, _, h, rfl, rfl⟩

end DeferredLru
