import DeferredLru.Deferred.Represent

set_option autoImplicit false

/-! # `pullRecent` moves the marked nodes to the front

The loop of `pullRecent` takes nodes from three lists that share links: the slice of the Recent list
it consumes, the LRU list it extracts from and the temporary list behind the stack-allocated `head`.
`pullLoop_spec` follows the three through one induction over the slice; `pullRecent_spec` adds the
final splice: `pullRecent` refines `Lists.pull`. -/

namespace DeferredLru

open Intrusive

variable {N : ℕ} {K V : Type}

/-- The temporary list `t` behind the local `head`, whose last cell is `prev`. The link of `prev` is
    not part of it: nothing has been linked behind `prev` yet. -/
inductive TempList (m : Mem N K V) : List (Fin N) → Ptr N → Prop
  | nil : TempList m [] .localHead
  | snoc {t : List (Fin N)} {x : Fin N} : Linked m.lruNext .node .localHead t (.node x) →
      (∀ c, IsCell .node .localHead t c → m.lruPrev (m.lruNext c) = c) → x ∉ t →
      TempList m (t ++ [x]) (.node x)

namespace TempList

variable {m m' : Mem N K V} {t : List (Fin N)} {p : Ptr N} {n : Fin N}

/-- The last cell is the local head or the last node. -/
theorem last_isCell (h : TempList m t p) : IsCell .node .localHead t p := by
  cases h with
  | nil => exact isCell_head
  | snoc _ _ _ => exact isCell_node (by simp)

/-- The link of the last cell does not matter. -/
theorem congr (h : TempList m t p)
    (hnext : ∀ c, IsCell .node .localHead t c → c ≠ p → m'.lruNext c = m.lruNext c)
    (hprev : ∀ x ∈ t, m'.lruPrev (.node x) = m.lruPrev (.node x)) : TempList m' t p := by
  cases h with
  | nil => exact .nil
  | @snoc t x hlinked hback hx =>
      have hcell : ∀ c, IsCell .node .localHead t c → m'.lruNext c = m.lruNext c := by
        rintro c (rfl | ⟨y, hy, rfl⟩)
        · exact hnext _ isCell_head (by simp)
        · refine hnext _ (isCell_node (by simp [hy])) ?_
          rintro heq
          exact hx (Ptr.node_injective heq ▸ hy)
      refine .snoc (hlinked.congr (hcell _ isCell_head) fun y hy => hcell _ (isCell_node hy)) ?_ hx
      intro c hc
      have hb := hback c hc
      rw [hcell c hc]
      rcases hlinked.next_mem hc with hn | ⟨y, hy, hn⟩
      · rw [hn] at hb ⊢
        exact (hprev x (by simp)).trans hb
      · rw [hn] at hb ⊢
        exact (hprev y (by simp [hy])).trans hb

/-- A node linked behind the last cell, in both directions, is the new last one. -/
theorem append (h : TempList m t p) (hnext : m.lruNext p = .node n)
    (hprev : m.lruPrev (.node n) = p) (hn : n ∉ t) : TempList m (t ++ [n]) (.node n) := by
  cases h with
  | nil =>
      refine .snoc (t := []) hnext ?_ hn
      rintro c (rfl | ⟨x, hx, -⟩)
      · rw [hnext, hprev]
      · exact absurd hx (by simp)
  | @snoc t x hlinked hback hx =>
      refine .snoc (linked_append_cons.2 ⟨hlinked, hnext⟩) ?_ hn
      rintro c (rfl | ⟨y, hy, rfl⟩)
      · exact hback _ isCell_head
      · rcases List.mem_append.1 hy with hy | hy
        · exact hback _ (isCell_node hy)
        · rw [List.mem_singleton.1 hy, hnext, hprev]

end TempList

/-- The memories agree on everything but the LRU links and the Recent list. -/
structure SameContents (m m' : Mem N K V) : Prop where
  key : m'.key = m.key
  value : m'.value = m.value
  bucketNext : m'.bucketNext = m.bucketNext
  buckets : m'.buckets = m.buckets
  emptyHead : m'.emptyHead = m.emptyHead
  currentElementCount : m'.currentElementCount = m.currentElementCount
  pullRequest : m'.pullRequest = m.pullRequest
  purgeRequest : m'.purgeRequest = m.purgeRequest

/-- The state of the loop of `pullRecent`: `current` heads the rest `r` of the slice, `prev` ends the
    temporary list `t`, `l` is what is left of the LRU list. -/
structure PullState (m : Mem N K V) (current prev : Ptr N) (r t l : List (Fin N)) : Prop where
  lru : LruList m l
  slice : Chain m.recentNext .node current r .dummy
  temp : TempList m t prev
  slice_sub : ∀ n ∈ r, n ∈ l
  temp_disjoint : ∀ n ∈ t, n ∉ l
  /-- Only the rest of the slice is still marked. -/
  marked : ∀ n, m.recentNext n ≠ .null ↔ n ∈ r

/-- The memory after the loop has extracted `n`, appended it behind `prev` and cleared its mark. -/
def extracted (m : Mem N K V) (n : Fin N) (prev : Ptr N) : Mem N K V :=
  (((unlinked m n).setNext prev (.node n)).setPrev (.node n) prev).setRecent n .null

namespace PullState

variable {m : Mem N K V} {current prev : Ptr N} {r t l : List (Fin N)} {n : Fin N}

theorem slice_nodup (h : PullState m current prev r t l) : r.Nodup :=
  Chain.nodup Ptr.node_injective (by simp) h.slice

theorem prev_isBase (h : PullState m current prev r t l) : prev.isBase = true := by
  cases h.temp <;> rfl

/-- `prev` is a cell of the temporary list, which the LRU list does not meet. -/
theorem prev_not_cell (h : PullState m current prev r t l) {c : Ptr N}
    (hc : IsCell .node .lruHead l c) : c ≠ prev := by
  rcases hc with rfl | ⟨y, hy, rfl⟩
  · cases h.temp <;> simp
  · cases ht : h.temp with
    | nil => simp
    | snoc h₁ h₂ h₃ =>
        rintro heq
        obtain rfl := Ptr.node_injective heq
        exact h.temp_disjoint y (by simp) hy

theorem prev_ne (h : PullState m current prev r t l) {x : Fin N} (hx : x ∉ t) : .node x ≠ prev := by
  cases h.temp with
  | nil => simp
  | snoc h₁ h₂ h₃ =>
      intro heq
      exact hx (by simp [Ptr.node_injective heq])

/-- Skipping the front node only clears its mark. -/
theorem skip (h : PullState m current prev (n :: r) t l) :
    PullState (m.setRecent n .null) (m.recentNext n) prev r t l := by
  have hnr : n ∉ r := (List.nodup_cons.1 h.slice_nodup).1
  refine ⟨h.lru.congr (fun _ _ => rfl) (fun _ _ => rfl), Chain.update h.slice.2 hnr, ?_,
    fun x hx => h.slice_sub x (List.mem_cons_of_mem _ hx), h.temp_disjoint, fun x => ?_⟩
  · cases h.temp with
    | nil => exact TempList.nil
    | snoc h₁ h₂ h₃ => exact TempList.snoc h₁ h₂ h₃
  · simp only [Mem.setRecent_recentNext]
    by_cases hx : x = n
    · subst hx
      simp [hnr]
    · rw [Function.update_of_ne hx, h.marked x]
      simp [hx]

/-- Where the extraction of `n` writes an `lru_next` or `lru_prev`. -/
theorem extracted_lruNext {c : Ptr N} (hc : c ≠ m.lruPrev (.node n)) (hc' : c ≠ prev) :
    (extracted m n prev).lruNext c = m.lruNext c := by
  simp only [extracted, unlinked, Mem.setRecent_lruNext, Mem.setPrev_lruNext, Mem.setNext_lruNext]
  rw [Function.update_of_ne hc', Function.update_of_ne hc]

theorem extracted_lruPrev {c : Ptr N} (hc : c ≠ m.lruNext (.node n)) (hc' : c ≠ .node n) :
    (extracted m n prev).lruPrev c = m.lruPrev c := by
  simp only [extracted, unlinked, Mem.setRecent_lruPrev, Mem.setPrev_lruPrev, Mem.setNext_lruPrev]
  rw [Function.update_of_ne hc', Function.update_of_ne hc]

theorem extracted_link : (extracted m n prev).lruNext prev = .node n := by
  simp only [extracted, Mem.setRecent_lruNext, Mem.setPrev_lruNext, Mem.setNext_lruNext]
  exact Function.update_self ..

theorem extracted_back : (extracted m n prev).lruPrev (.node n) = prev := by
  simp only [extracted, Mem.setRecent_lruPrev, Mem.setPrev_lruPrev]
  exact Function.update_self ..

/-- The extraction keeps the rest of the LRU list linked. -/
theorem extract_lru (h : PullState m current prev (n :: r) t l) :
    LruList (extracted m n prev) (l.erase n) := by
  have hn : n ∈ l := h.slice_sub n (by simp)
  have hdup := h.lru.nodup
  have hu := h.lru.unlinked hn
  refine hu.congr (fun c hc => ?_) (fun c hc => ?_)
  · have hcl : IsCell Ptr.node .lruHead l c :=
      hc.imp id fun ⟨x, hx, hcx⟩ => ⟨x, List.mem_of_mem_erase hx, hcx⟩
    simp only [extracted, Mem.setRecent_lruNext, Mem.setPrev_lruNext, Mem.setNext_lruNext]
    exact Function.update_of_ne (h.prev_not_cell hcl) _ _
  · have hne : (unlinked m n).lruNext c ≠ .node n := by
      rcases hu.linked.next_mem hc with heq | ⟨y, hy, heq⟩
      · rw [heq]; simp
      · rw [heq]
        intro hyn
        obtain rfl := Ptr.node_injective hyn
        exact (List.Nodup.not_mem_erase hdup) hy
    simp only [extracted, Mem.setRecent_lruPrev, Mem.setPrev_lruPrev, Mem.setNext_lruPrev]
    exact Function.update_of_ne hne _ _

/-- The extracted node is the new end of the temporary list. -/
theorem extract_temp (h : PullState m current prev (n :: r) t l) :
    TempList (extracted m n prev) (t ++ [n]) (.node n) := by
  have hn : n ∈ l := h.slice_sub n (by simp)
  have hnt : n ∉ t := fun hm => h.temp_disjoint n hm hn
  have hcell := (h.lru.prev_spec hn).1
  refine TempList.append (h.temp.congr (fun c hc hcp => extracted_lruNext ?_ hcp) fun x hx =>
    extracted_lruPrev ?_ ?_) extracted_link extracted_back hnt
  · -- cells of the temporary list are not cells of the LRU list
    rintro heq
    rw [← heq] at hcell
    rcases hc with rfl | ⟨y, hy, rfl⟩
    · rcases hcell with hh | ⟨z, -, hz⟩
      · exact absurd hh (by simp)
      · exact absurd hz (by simp)
    · rcases hcell with hh | ⟨z, hz, hyz⟩
      · exact absurd hh (by simp)
      · obtain rfl := Ptr.node_injective hyz
        exact h.temp_disjoint y hy hz
  · rcases h.lru.linked.next_mem (isCell_node hn) with heq | ⟨y, hy, heq⟩
    · rw [heq]
      simp
    · rw [heq]
      intro hxy
      exact h.temp_disjoint x hx (Ptr.node_injective hxy ▸ hy)
  · intro hxn
    exact h.temp_disjoint x hx (Ptr.node_injective hxn ▸ hn)

/-- Extracting a node behind the front one moves it to the temporary list. -/
theorem extract (h : PullState m current prev (n :: r) t l) :
    PullState (extracted m n prev) (m.recentNext n) (.node n) r (t ++ [n]) (l.erase n) := by
  have hnr : n ∉ r := (List.nodup_cons.1 h.slice_nodup).1
  have hdup := h.lru.nodup
  refine ⟨h.extract_lru, Chain.update h.slice.2 hnr, h.extract_temp, fun x hx => ?_, fun x hx => ?_,
    fun x => ?_⟩
  · have hxn : x ≠ n := fun hxn => hnr (hxn ▸ hx)
    exact (List.mem_erase_of_ne hxn).2 (h.slice_sub x (List.mem_cons_of_mem _ hx))
  · rcases List.mem_append.1 hx with hx | hx
    · exact fun hm => h.temp_disjoint x hx (List.mem_of_mem_erase hm)
    · rw [List.mem_singleton.1 hx]
      exact List.Nodup.not_mem_erase hdup
  · simp only [extracted, Mem.setRecent_recentNext]
    by_cases hx : x = n
    · subst hx
      simp [hnr]
    · rw [Function.update_of_ne hx]
      have := h.marked x
      simp only [List.mem_cons, hx, false_or] at this
      exact this

end PullState

/-! ## The loop -/

theorem head?_erase_of_ne {α : Type*} [DecidableEq α] {l : List α} {x : α}
    (h : l.head? ≠ some x) : (l.erase x).head? = l.head? := by
  cases l with
  | nil => rfl
  | cons y l =>
      have hyx : (y == x) = false := by simpa using h
      simp [hyx]

theorem filter_notMem_cons {α : Type*} [DecidableEq α] {l s : List α} {x : α} (h : l.Nodup) :
    l.filter (fun y => y ∉ x :: s) = (l.erase x).filter (fun y => y ∉ s) := by
  rw [h.erase_eq_filter, List.filter_filter]
  congr 1
  funext y
  by_cases hy : y = x <;> simp [hy]

/-- What the loop extracts from the slice `r` of a list with front node `front`. -/
def moved (front : Option (Fin N)) (r : List (Fin N)) : List (Fin N) :=
  r.filter (fun n => front ≠ some n)

/-- The links of `n` are the same in both memories. -/
def SameLinks (m m' : Mem N K V) (n : Fin N) : Prop :=
  m'.lruNext (.node n) = m.lruNext (.node n) ∧ m'.lruPrev (.node n) = m.lruPrev (.node n)

theorem SameLinks.trans {m₁ m₂ m₃ : Mem N K V} {n : Fin N} (h : SameLinks m₁ m₂ n)
    (h' : SameLinks m₂ m₃ n) : SameLinks m₁ m₃ n :=
  ⟨h'.1.trans h.1, h'.2.trans h.2⟩

/-- The extraction of `n` touches no node outside the two lists. -/
theorem PullState.extract_sameLinks {m : Mem N K V} {current prev : Ptr N} {r t l : List (Fin N)}
    {n x : Fin N} (h : PullState m current prev (n :: r) t l) (hxl : x ∉ l) (hxt : x ∉ t) :
    SameLinks m (extracted m n prev) x := by
  have hn : n ∈ l := h.slice_sub n (by simp)
  have hcell : ∀ c, IsCell .node .lruHead l c ∨ c = .lruTail → Ptr.node x ≠ c := by
    rintro c ((rfl | ⟨y, hy, rfl⟩) | rfl)
    · simp
    · exact fun heq => hxl (Ptr.node_injective heq ▸ hy)
    · simp
  refine ⟨PullState.extracted_lruNext (hcell _ (Or.inl (h.lru.prev_spec hn).1)) (h.prev_ne hxt),
    PullState.extracted_lruPrev (hcell _ ?_) (hcell _ (Or.inl (isCell_node hn)))⟩
  rcases h.lru.linked.next_mem (isCell_node hn) with heq | ⟨y, hy, heq⟩
  · exact Or.inr heq
  · exact Or.inl (heq ▸ isCell_node hy)

/-- **The loop of `pullRecent`.** It clears every mark of the slice, extracts all its nodes but the
    front one in slice order, and touches no other node's links. -/
theorem pullLoop_spec {fuel : ℕ} {m : Mem N K V} {current prev : Ptr N} {r t l : List (Fin N)}
    (h : PullState m current prev r t l) (hfuel : r.length < fuel) :
    ∃ prev' m', pullLoop fuel current prev m = some (prev', m') ∧
      PullState m' .dummy prev' [] (t ++ moved l.head? r)
        (l.filter (fun n => n ∉ moved l.head? r)) ∧
      SameContents m m' ∧ m'.recentHead = m.recentHead ∧ m'.recentCount = m.recentCount ∧
      ∀ n, n ∉ l → n ∉ t → SameLinks m m' n := by
  induction fuel generalizing m current prev r t l with
  | zero => exact absurd hfuel (by omega)
  | succ fuel ih =>
      cases r with
      | nil =>
          obtain rfl := chain_nil.1 h.slice
          refine ⟨prev, m, rfl, ?_, ⟨rfl, rfl, rfl, rfl, rfl, rfl, rfl, rfl⟩, rfl, rfl,
            fun _ _ _ => ⟨rfl, rfl⟩⟩
          simpa [moved] using h
      | cons n r =>
          obtain ⟨rfl, hslice⟩ := h.slice
          have hn : n ∈ l := h.slice_sub n (by simp)
          have hlen : r.length < fuel := by simpa using hfuel
          by_cases hfront : m.lruPrev (.node n) = .lruHead
          · -- the front node stays where it is
            have hhead : l.head? = some n := (h.lru.prev_eq_head_iff hn).1 hfront
            obtain ⟨prev', m', hrun, hst, hsame, hrh, hrc, hnext⟩ := ih h.skip hlen
            refine ⟨prev', m', ?_, ?_, ?_, hrh, hrc, hnext⟩
            · simp only [pullLoop, hfront, if_pos]
              exact hrun
            · have hmoved : moved l.head? (n :: r) = moved l.head? r := by simp [moved, hhead]
              rw [hmoved]
              exact hst
            · exact ⟨hsame.key, hsame.value, hsame.bucketNext, hsame.buckets, hsame.emptyHead,
                hsame.currentElementCount, hsame.pullRequest, hsame.purgeRequest⟩
          · have hhead : l.head? ≠ some n := fun hh => hfront ((h.lru.prev_eq_head_iff hn).2 hh)
            obtain ⟨prev', m', hrun, hst, hsame, hrh, hrc, hnext⟩ := ih h.extract hlen
            refine ⟨prev', m', ?_, ?_, ?_, hrh, hrc, ?_⟩
            · simp only [pullLoop, hfront, if_neg, not_false_eq_true,
                removeNodeFromLru_eq h.lru hn, Option.bind_eq_bind, Option.bind_some,
                Mem.storeNext_of_isBase _ _ _ h.prev_isBase]
              exact hrun
            · have hmoved : moved l.head? (n :: r) = n :: moved l.head? r := by
                simp [moved, hhead]
              rw [head?_erase_of_ne hhead] at hst
              rw [hmoved, filter_notMem_cons h.lru.nodup]
              simpa using hst
            · exact ⟨hsame.key, hsame.value, hsame.bucketNext, hsame.buckets, hsame.emptyHead,
                hsame.currentElementCount, hsame.pullRequest, hsame.purgeRequest⟩
            · intro x hxl hxt
              have hxn : x ≠ n := fun hxn => hxl (hxn ▸ hn)
              exact (h.extract_sameLinks hxl hxt).trans
                (hnext x (fun hm => hxl (List.mem_of_mem_erase hm)) (by simp [hxt, hxn]))

/-! ## `pullRecent` -/

theorem moved_eq (a : Lists N) :
    moved a.lru.head? a.recent = a.recent.filter (fun n => !a.isFront n) := by
  unfold moved Lists.isFront
  congr 1
  funext n
  by_cases h : a.lru.head? = some n <;> simp [h]

theorem Lists.pull_lru (a : Lists N) :
    a.pull.lru = moved a.lru.head? a.recent ++
      a.lru.filter (fun n => n ∉ moved a.lru.head? a.recent) := by
  rw [moved_eq]
  show a.recent.filter _ ++ _ = _
  congr 2
  funext n
  by_cases h : a.isFront n <;> simp [h]

/-- A pull only reorders the LRU list. -/
theorem Lists.mem_pull_lru {a : Lists N} (hsub : ∀ n ∈ a.recent, n ∈ a.lru) (n : Fin N) :
    n ∈ a.pull.lru ↔ n ∈ a.lru := by
  rw [Lists.pull_lru]
  simp only [List.mem_append, List.mem_filter, decide_eq_true_eq]
  constructor
  · rintro (h | h)
    · exact hsub n (List.mem_of_mem_filter h)
    · exact h.1
  · intro h
    by_cases hm : n ∈ moved a.lru.head? a.recent
    · exact Or.inl hm
    · exact Or.inr ⟨h, hm⟩

/-- The sublist is spliced in front of the list, unless it is empty. -/
theorem finish_spec {m : Mem N K V} {prev : Ptr N} {t l : List (Fin N)}
    (h : PullState m .dummy prev [] t l) :
    ∃ m', (if prev = .localHead then some m
        else addSublistToLruHead m (m.lruNext .localHead) prev) = some m' ∧
      LruList m' (t ++ l) ∧ SameContents m m' ∧ m'.recentNext = m.recentNext ∧
      m'.recentHead = m.recentHead ∧ m'.recentCount = m.recentCount ∧
      ∀ n, n ∉ l → n ∉ t → SameLinks m m' n := by
  cases htemp : h.temp with
  | nil =>
      exact ⟨m, rfl, h.lru, ⟨rfl, rfl, rfl, rfl, rfl, rfl, rfl, rfl⟩, rfl, rfl, rfl,
        fun _ _ _ => ⟨rfl, rfl⟩⟩
  | @snoc t x h₁ h₂ h₃ =>
      have hfirst : (m.lruNext .localHead).isBase = true := by
        rcases h₁.next_mem isCell_head with hn | ⟨y, -, hn⟩ <;> rw [hn] <;> rfl
      refine ⟨spliced m (m.lruNext .localHead) (.node x), ?_, ?_,
        ⟨rfl, rfl, rfl, rfl, rfl, rfl, rfl, rfl⟩, rfl, rfl, rfl, fun n hnl hn => ⟨?_, ?_⟩⟩
      · rw [if_neg (by simp)]
        exact addSublistToLruHead_eq h.lru hfirst rfl
      · rw [List.append_assoc]
        exact h.lru.spliced h₁ h₃ (fun y hy => h₂ _ (isCell_node hy)) h.temp_disjoint
      · have hnx : n ≠ x := fun hnx => hn (by simp [hnx])
        simp only [spliced, Mem.setPrev_lruNext, Mem.setNext_lruNext]
        rw [Function.update_of_ne (by simp), Function.update_of_ne (by simpa using hnx)]
      · have hfront : Ptr.node n ≠ m.lruNext .lruHead := by
          rcases h.lru.linked.next_mem isCell_head with heq | ⟨y, hy, heq⟩ <;> rw [heq]
          · simp
          · exact fun hny => hnl (Ptr.node_injective hny ▸ hy)
        have hfirst : Ptr.node n ≠ m.lruNext .localHead := by
          rcases h₁.next_mem isCell_head with heq | ⟨y, hy, heq⟩ <;> rw [heq]
          · exact fun hny => hn (by simp [Ptr.node_injective hny])
          · exact fun hny => hn (by simp [Ptr.node_injective hny, hy])
        simp only [spliced, Mem.setPrev_lruPrev, Mem.setNext_lruPrev]
        rw [Function.update_of_ne hfront, Function.update_of_ne hfirst]

/-- The memory in which the loop of `pullRecent` starts. -/
theorem pullState_init {cfg : Config N K} {m : Mem N K V} {a : Lists N} (h : Links cfg m a) :
    PullState ((popRecentListSlice m).2.setNext .localHead .null) m.recentHead .localHead
      a.recent [] a.lru := by
  refine ⟨h.lru.congr (fun c hc => ?_) (fun _ _ => rfl), h.recent, TempList.nil, h.recent_sub,
    by simp, h.marked⟩
  refine Function.update_of_ne ?_ _ _
  rcases hc with rfl | ⟨x, -, rfl⟩ <;> simp

/-- **`pullRecent` refines `Lists.pull`.** It terminates, empties the Recent list and reorders the
    LRU list; buckets, pool, keys, values, the element counter and the links of all other nodes stay
    as they are. -/
theorem pullRecent_spec {cfg : Config N K} {m : Mem N K V} {a : Lists N} {fuel : ℕ}
    (h : Links cfg m a) (hfuel : a.recent.length < fuel) :
    ∃ m', pullRecent fuel m = some m' ∧ Links cfg m' a.pull ∧ m'.recentCount = 0 ∧
      SameContents m m' ∧ ∀ n, n ∉ a.lru → SameLinks m m' n := by
  obtain ⟨prev, m₁, hrun, hst, hsame₁, hrh₁, hrc₁, hnext₁⟩ :=
    pullLoop_spec (pullState_init h) hfuel
  simp only [List.nil_append] at hst
  obtain ⟨m₂, hfin, hlru, hsame₂, hrn₂, hrh₂, hrc₂, hnext₂⟩ := finish_spec hst
  have hmem := Lists.mem_pull_lru h.recent_sub
  have hlinks : ∀ n, n ∉ a.lru → SameLinks m m₂ n := by
    intro n hnl
    have hnm : n ∉ moved a.lru.head? a.recent :=
      fun hm => hnl (h.recent_sub n (List.mem_of_mem_filter hm))
    have hnl' : n ∉ a.lru.filter (fun n => n ∉ moved a.lru.head? a.recent) :=
      fun hm => hnl (List.mem_of_mem_filter hm)
    have hinit : SameLinks m ((popRecentListSlice m).2.setNext .localHead .null) n := by
      refine ⟨?_, rfl⟩
      have hlocal : Ptr.node n ≠ .localHead := by simp
      rw [Mem.setNext_lruNext, Function.update_of_ne hlocal]
      rfl
    exact (hinit.trans (hnext₁ n hnl (by simp))).trans (hnext₂ n hnl' hnm)
  refine ⟨m₂, ?_, ?_, ?_, ?_, hlinks⟩
  · simp only [pullRecent, popRecentListSlice] at hrun ⊢
    simp only [hrun, Option.bind_eq_bind, Option.bind_some]
    exact hfin
  · refine ⟨?_, ?_, ?_, ?_, by simp [Lists.pull], ?_, ?_, ?_⟩
    · rw [Lists.pull_lru]
      exact hlru
    · rw [hsame₂.emptyHead, hsame₁.emptyHead]
      exact Chain.congr h.pool (fun n hn => (hlinks n (h.pool_disjoint n hn)).1)
    · rw [hrh₂, hrh₁]
      rfl
    · rw [hrn₂]
      exact hst.marked
    · intro n hn hm
      exact h.pool_disjoint n hn ((hmem n).1 hm)
    · intro b
      rw [hsame₂.bucketNext, hsame₂.buckets, hsame₁.bucketNext, hsame₁.buckets]
      exact h.buckets b
    · intro b n
      rw [hsame₂.key, hsame₁.key, hmem n]
      exact h.mem_bucket b n
  · rw [hrc₂, hrc₁]
    rfl
  · exact ⟨hsame₂.key.trans hsame₁.key, hsame₂.value.trans hsame₁.value,
      hsame₂.bucketNext.trans hsame₁.bucketNext, hsame₂.buckets.trans hsame₁.buckets,
      hsame₂.emptyHead.trans hsame₁.emptyHead,
      hsame₂.currentElementCount.trans hsame₁.currentElementCount,
      hsame₂.pullRequest.trans hsame₁.pullRequest, hsame₂.purgeRequest.trans hsame₁.purgeRequest⟩

end DeferredLru
