import DeferredLru.Concurrent.Invariant

set_option autoImplicit false

/-! # The effects of the accesses

Each write of `ConcurrentLRU` keeps the shape of the memory, with the lists changed as the write says,
and stays within the nodes and buckets whose locks it needs. -/

namespace DeferredLru.ConcurrentLru

open Intrusive

variable {N : ℕ} {K V T : Type} {cfg : Config N K} {m : Mem N K V} {a : Lists N}
  {trace : List (Label N K V T)} {act : Act N K V} {nodes nodes' : List (Ptr N)}
  {buckets buckets' : List ℕ} {n : Fin N} {p q : Ptr N} {b : ℕ} {i j : ListId}

/-! ## The shape -/

namespace Shape

theorem list_nodup (h : Shape cfg m a) (i : ListId) : (a.list i).Nodup := by
  cases i with
  | lru => exact (List.nodup_append.1 h.nodup).1
  | pool => exact (List.nodup_append.1 h.nodup).2.1

theorem not_mem_pool (h : Shape cfg m a) (hn : n ∈ a.lru) : n ∉ a.pool := fun hp =>
  (List.nodup_append.1 h.nodup).2.2 n hn n hp rfl

/-- The two lists have no node in common. -/
theorem list_unique (h : Shape cfg m a) (hi : n ∈ a.list i) (hj : n ∈ a.list j) : i = j := by
  cases i <;> cases j
  · rfl
  · exact absurd hj (h.not_mem_pool hi)
  · exact absurd hi (h.not_mem_pool hj)
  · rfl

/-- Nor any other cell. -/
theorem cell_unique (h : Shape cfg m a) (hi : p ∈ cells Ptr.node i.head i.tail (a.list i))
    (hj : p ∈ cells Ptr.node j.head j.tail (a.list j)) : i = j := by
  rcases mem_cells.1 hi with (rfl | ⟨x, hx, rfl⟩) | rfl <;>
    rcases mem_cells.1 hj with (hp | ⟨y, hy, hp⟩) | hp
  · cases i <;> cases j <;> first | rfl | cases hp
  · cases i <;> cases hp
  · cases i <;> cases j <;> first | rfl | cases hp
  · cases j <;> cases hp
  · obtain rfl := Ptr.node.inj hp
    exact h.list_unique hx hy
  · cases j <;> cases hp
  · cases i <;> cases j <;> first | rfl | cases hp
  · cases i <;> cases hp
  · cases i <;> cases j <;> first | rfl | cases hp

theorem bucket_nodup (h : Shape cfg m a) (b : ℕ) : (a.bucket b).Nodup :=
  (h.chains b).nodup (fun _ _ => Option.some.inj) (by simp)

/-- A link from the front of the LRU list that leads to its end comes from a cell of the list. -/
theorem inner_of_tail (h : Shape cfg m a) (hfront : Front p) (hrest : Rest cfg m a trace p)
    (hp : m.lruNext p = .lruTail) : IsInner Ptr.node .lruHead a.lru p := by
  rcases hfront with rfl | ⟨x, rfl⟩
  · exact Or.inl rfl
  · rcases hrest x rfl with ⟨hx, -⟩ | hx
    · exact Or.inr ⟨x, hx, rfl⟩
    · rcases (h.strung .pool).next_mem (Or.inr ⟨x, hx, rfl⟩) with htail | ⟨y, -, hy⟩
      · exact nomatch htail.symm.trans hp
      · exact nomatch hy.symm.trans hp

/-- So does one that leads to a node of the list. -/
theorem prev_eq (h : Shape cfg m a) (hfront : Front p) (hrest : Rest cfg m a trace p)
    (hp : m.lruNext p = .node n) (hn : n ∈ a.lru) : m.lruPrev (.node n) = p := by
  have hinner : IsInner Ptr.node .lruHead a.lru p := by
    rcases hfront with rfl | ⟨x, rfl⟩
    · exact Or.inl rfl
    · rcases hrest x rfl with ⟨hx, -⟩ | hx
      · exact Or.inr ⟨x, hx, rfl⟩
      · rcases (h.strung .pool).next_mem (Or.inr ⟨x, hx, rfl⟩) with htail | ⟨y, hy, hxy⟩
        · exact nomatch htail.symm.trans hp
        · obtain rfl := Ptr.node.inj (hxy.symm.trans hp)
          exact absurd hy (h.not_mem_pool hn)
  rw [← hp]
  exact (h.strung .lru).prev_next hinner

theorem live_of_flag (h : Shape cfg m a) (hn : AtRest cfg m a trace n) (hflag : m.lruFlag n = true) :
    n ∈ a.lru ∧ Live cfg m a trace n :=
  hn.resolve_right fun hp => by
    rw [(h.pooled n hp).1] at hflag
    cases hflag

/-! ### Writes to the two lists -/

/-- A node is taken out of its list. -/
theorem join (h : Shape cfg m a) (hn : n ∈ a.list i) :
    Shape cfg ((Act.join (m.lruPrev (.node n)) (m.lruNext (.node n)) : Act N K V).onMem m)
      (a.erase n) := by
  have hprev := (h.strung i).next_prev hn
  have hnext := (h.strung i).next_mem (Or.inr ⟨n, hn, rfl⟩)
  refine ⟨fun j => ?_, ?_, h.chains, h.hashed, fun x hx => h.pooled x (List.mem_of_mem_erase hx)⟩
  · by_cases hij : i = j
    · subst hij
      have herase : (a.erase n).list i = (a.list i).erase n := by cases i <;> rfl
      rw [herase]
      exact (h.strung i).unlink (ends i) (h.list_nodup i) hn
    · -- the other list has neither the node nor its neighbours
      have hnj : n ∉ a.list j := fun hnj => hij (h.list_unique hn hnj)
      have herase : (a.erase n).list j = a.list j := by
        cases j <;> exact List.erase_of_not_mem hnj
      rw [herase]
      refine (h.strung j).congr fun c hc => ⟨Function.update_of_ne ?_ _ _, Function.update_of_ne ?_ _ _⟩
      · rintro rfl
        exact hij (h.cell_unique (mem_cells.2 (Or.inl hprev.1)) (mem_cells.2 hc))
      · rintro rfl
        refine hij (h.cell_unique (mem_cells.2 ?_) (mem_cells.2 hc))
        exact hnext.elim Or.inr (fun ⟨y, hy, heq⟩ => Or.inl (Or.inr ⟨y, hy, heq⟩))
  · exact h.nodup.sublist (List.erase_sublist.append List.erase_sublist)

/-- A node is appended to the LRU list. -/
theorem append (h : Shape cfg m a) (hoff : a.Off n) :
    Shape cfg ((Act.insertBetween (m.lruPrev .lruTail) n .lruTail : Act N K V).onMem m)
      (a.append n) := by
  have hlast := (h.strung .lru).next_prev_tail
  have hnodup : (a.lru ++ [n]).Nodup :=
    List.nodup_append.2 ⟨h.list_nodup .lru, List.nodup_singleton n, fun x hx y hy hxy =>
      hoff.1 (by rw [← List.mem_singleton.1 hy, ← hxy]; exact hx)⟩
  refine ⟨fun j => ?_, ?_, h.chains, h.hashed, h.pooled⟩
  · cases j with
    | lru => exact (h.strung .lru).append (ends .lru) hnodup
    | pool =>
        have hnode : ∀ c, c ∈ cells Ptr.node .poolHead .poolTail a.pool → c ≠ .node n := by
          rintro c hc rfl
          rcases mem_cells.1 hc with (hc | ⟨x, hx, hc⟩) | hc
          · cases hc
          · exact hoff.2 (Ptr.node.inj hc ▸ hx)
          · cases hc
        have hcell : ∀ c, c ∈ cells Ptr.node .poolHead .poolTail a.pool →
            c ∉ cells Ptr.node .lruHead .lruTail a.lru := fun c hc hc' =>
          nomatch h.cell_unique (i := .pool) (j := .lru) hc hc'
        refine (h.strung .pool).congr fun c hc => ?_
        have hc' := mem_cells.2 hc
        constructor
        · refine (Function.update_of_ne (hnode c hc') _ _).trans (Function.update_of_ne ?_ _ _)
          rintro rfl
          exact hcell _ hc' (mem_cells.2 (Or.inl hlast.1))
        · refine (Function.update_of_ne ?_ _ _).trans (Function.update_of_ne (hnode c hc') _ _)
          rintro rfl
          exact hcell _ hc' (mem_cells.2 (Or.inr rfl))
  · refine List.nodup_append.2 ⟨hnodup, h.list_nodup .pool, fun x hx y hy hxy => ?_⟩
    subst hxy
    rcases List.mem_append.1 hx with hx | hx
    · exact h.not_mem_pool hx hy
    · exact hoff.2 (List.mem_singleton.1 hx ▸ hy)

/-- The links of a node that is in no list do not matter. -/
theorem clearLinks (h : Shape cfg m a) (hoff : a.Off n) :
    Shape cfg ((Act.clearLinks n : Act N K V).onMem m) a := by
  refine ⟨fun j => (h.strung j).congr fun c hc => ?_, h.nodup, h.chains, h.hashed, h.pooled⟩
  have hne : c ≠ .node n := by
    rintro rfl
    rcases hc with (hc | ⟨x, hx, hc⟩) | hc
    · cases j <;> cases hc
    · obtain rfl := Ptr.node.inj hc
      cases j with
      | lru => exact hoff.1 hx
      | pool => exact hoff.2 hx
    · cases j <;> cases hc
  exact ⟨Function.update_of_ne hne _ _, Function.update_of_ne hne _ _⟩

/-! ### Writes to the table -/

/-- The bucket link of a node that is in no bucket does not matter. -/
theorem htSetNext (h : Shape cfg m a) (hbare : a.Bare n) (r : Option (Fin N)) :
    Shape cfg ((Act.htSetNext n r : Act N K V).onMem m) a :=
  ⟨h.strung, h.nodup, fun b => (h.chains b).update (hbare b), h.hashed, h.pooled⟩

/-- Nor does its key. -/
theorem setKey (h : Shape cfg m a) (hbare : a.Bare n) (k : K) :
    Shape cfg ((Act.setKey n k : Act N K V).onMem m) a := by
  refine ⟨h.strung, h.nodup, h.chains, fun b x hx => ?_, h.pooled⟩
  have hne : x ≠ n := fun hxn => hbare b (hxn ▸ hx)
  have hkey : Function.update m.key n k x = m.key x := Function.update_of_ne hne _ _
  exact (congrArg cfg.whichBucket hkey).trans (h.hashed b x hx)

theorem lruSetFlag (h : Shape cfg m a) (hn : n ∉ a.pool) (set : Bool) :
    Shape cfg ((Act.lruSetFlag n set : Act N K V).onMem m) a := by
  refine ⟨h.strung, h.nodup, h.chains, h.hashed, fun x hx => ?_⟩
  have hne : x ≠ n := fun hxn => hn (hxn ▸ hx)
  exact ⟨(Function.update_of_ne hne _ _).trans (h.pooled x hx).1, (h.pooled x hx).2⟩

/-- A node becomes the first one of its bucket. -/
theorem setHead (h : Shape cfg m a) (hn : n ∉ a.pool) (hb : cfg.whichBucket (m.key n) = b)
    (hnext : m.htNext n = m.ht b) :
    Shape cfg ((Act.setHt b (some n) : Act N K V).onMem m) (a.setBucket b (n :: a.bucket b)) := by
  refine ⟨h.strung, h.nodup, fun c => ?_, fun c x hx => ?_,
    fun x hx => ⟨(h.pooled x hx).1, fun c hc => ?_⟩⟩
  · show Chain _ _ (Function.update m.ht b (some n) c) (Function.update a.bucket b _ c) none
    by_cases hc : c = b
    · rw [hc, Function.update_self, Function.update_self]
      refine chain_cons.2 ⟨rfl, ?_⟩
      show Chain m.htNext some (m.htNext n) _ none
      rw [hnext]
      exact h.chains b
    · rw [Function.update_of_ne hc, Function.update_of_ne hc]
      exact h.chains c
  · have hx' : x ∈ Function.update a.bucket b (n :: a.bucket b) c := hx
    by_cases hc : c = b
    · rw [hc, Function.update_self] at hx'
      rcases List.mem_cons.1 hx' with rfl | hx'
      · exact hb.trans hc.symm
      · exact (h.hashed b x hx').trans hc.symm
    · rw [Function.update_of_ne hc] at hx'
      exact h.hashed c x hx'
  · have hc' : x ∈ Function.update a.bucket b (n :: a.bucket b) c := hc
    by_cases hcb : c = b
    · rw [hcb, Function.update_self] at hc'
      rcases List.mem_cons.1 hc' with rfl | hc'
      · exact hn hx
      · exact (h.pooled x hx).2 b hc'
    · rw [Function.update_of_ne hcb] at hc'
      exact (h.pooled x hx).2 c hc'

/-- What is left of the buckets when a node is unlinked. -/
theorem mem_erase {x : Fin N} {c : ℕ}
    (hx : x ∈ (a.setBucket b ((a.bucket b).erase n)).bucket c) : x ∈ a.bucket c := by
  have hx' : x ∈ Function.update a.bucket b ((a.bucket b).erase n) c := hx
  by_cases hc : c = b
  · rw [hc, Function.update_self] at hx'
    rw [hc]
    exact List.mem_of_mem_erase hx'
  · rwa [Function.update_of_ne hc] at hx'

/-- The first node of a bucket is unlinked. -/
theorem removeFirst (h : Shape cfg m a) (hn : m.ht b = some n) :
    Shape cfg ((Act.setHt b (m.htNext n) : Act N K V).onMem m)
      (a.setBucket b ((a.bucket b).erase n)) := by
  refine ⟨h.strung, h.nodup, fun c => ?_, fun c x hx => h.hashed c x (mem_erase hx),
    fun x hx => ⟨(h.pooled x hx).1, fun c hc => (h.pooled x hx).2 c (mem_erase hc)⟩⟩
  show Chain _ _ (Function.update m.ht b _ c) (Function.update a.bucket b _ c) none
  by_cases hc : c = b
  · rw [hc, Function.update_self, Function.update_self]
    have hchain := h.chains b
    rw [hn] at hchain
    cases hl : a.bucket b with
    | nil =>
        rw [hl] at hchain
        cases hchain
    | cons x l =>
        rw [hl] at hchain
        obtain rfl : n = x := Option.some.inj hchain.1
        rw [List.erase_cons_head]
        exact hchain.2
  · rw [Function.update_of_ne hc, Function.update_of_ne hc]
    exact h.chains c

/-- A node of a bucket is unlinked from the one before it. -/
theorem removeAfter {x : Fin N} (h : Shape cfg m a) (hx : x ∈ a.bucket b) (hn : n ∈ a.bucket b)
    (hnext : m.htNext x = some n) :
    Shape cfg ((Act.htSetNext x (m.htNext n) : Act N K V).onMem m)
      (a.setBucket b ((a.bucket b).erase n)) := by
  refine ⟨h.strung, h.nodup, fun c => ?_, fun c x hx => h.hashed c x (mem_erase hx),
    fun x hx => ⟨(h.pooled x hx).1, fun c hc => (h.pooled x hx).2 c (mem_erase hc)⟩⟩
  show Chain (Function.update m.htNext x _) _ (m.ht c) (Function.update a.bucket b _ c) none
  by_cases hc : c = b
  · rw [hc, Function.update_self]
    exact (h.chains b).unlink (fun _ _ => Option.some.inj) (by simp) hn hx hnext
  · rw [Function.update_of_ne hc]
    refine (h.chains c).update (fun hxc => hc ?_)
    rw [← h.hashed c x hxc, h.hashed b x hx]

end Shape

/-! ## The lists afterwards -/

theorem Shape.off_erase (h : Shape cfg m a) (n : Fin N) : (a.erase n).Off n :=
  ⟨(h.list_nodup .lru).not_mem_erase, (h.list_nodup .pool).not_mem_erase⟩

theorem Lists.mem_append (a : Lists N) (n : Fin N) : n ∈ (a.append n).lru := by
  simp [Lists.append]

theorem Shape.bare_erase (h : Shape cfg m a) (hb : cfg.whichBucket (m.key n) = b) :
    (a.setBucket b ((a.bucket b).erase n)).Bare n := by
  intro c hc
  have hcb : c = b := (h.hashed c n (mem_erase hc)).symm.trans hb
  rw [hcb] at hc
  have hc' : n ∈ Function.update a.bucket b ((a.bucket b).erase n) b := hc
  rw [Function.update_self] at hc'
  exact (h.bucket_nodup b).not_mem_erase hc'

theorem Lists.mem_setBucket (a : Lists N) (b : ℕ) (l : List (Fin N)) :
    n ∈ (a.setBucket b l).bucket b ↔ n ∈ l := by
  show n ∈ Function.update a.bucket b l b ↔ _
  rw [Function.update_self]

/-! ## The effects -/

namespace Effect

/-- An access that leaves the memory alone. -/
theorem still (h : Shape cfg m a) (hm : act.onMem m = m)
    (hlocks : act.Locks nodes nodes' buckets buckets')
    (hrest : ∀ n, act = .unlock (.node n) → AtRest cfg m a trace n) :
    Effect cfg m a a trace act nodes nodes' buckets buckets' := by
  refine ⟨?_, ?_, hlocks, ?_⟩
  · rw [hm]
    exact Within.refl
  · rw [hm]
    exact h
  · rw [hm]
    exact hrest

theorem read (h : Shape cfg m a) (hn : nodes'.Perm nodes) :
    Effect cfg m a a trace .read nodes nodes' buckets buckets :=
  still h rfl ⟨hn, rfl⟩ nofun

theorem lock (h : Shape cfg m a) (hn : nodes'.Perm (p :: nodes)) :
    Effect cfg m a a trace (.lock p) nodes nodes' buckets buckets :=
  still h rfl ⟨hn, rfl⟩ nofun

theorem unlock (h : Shape cfg m a) (hn : nodes.Perm (p :: nodes'))
    (hrest : Rest cfg m a trace p) :
    Effect cfg m a a trace (.unlock p) nodes nodes' buckets buckets :=
  still h rfl ⟨hn, rfl⟩ fun n hp => hrest n (Act.unlock.inj hp)

theorem lockBucket (h : Shape cfg m a) (hb : buckets'.Perm (b :: buckets)) :
    Effect cfg m a a trace (.lockBucket b) nodes nodes buckets buckets' :=
  still h rfl ⟨rfl, hb⟩ nofun

theorem unlockBucket (h : Shape cfg m a) (hb : buckets.Perm (b :: buckets')) :
    Effect cfg m a a trace (.unlockBucket b) nodes nodes buckets buckets' :=
  still h rfl ⟨rfl, hb⟩ nofun

theorem join (h : Shape cfg m a) (hn : n ∈ a.list i) (hp : m.lruPrev (.node n) = p)
    (hq : m.lruNext (.node n) = q) (hpn : p ∈ nodes) (hqn : q ∈ nodes) (hnn : .node n ∈ nodes)
    (hperm : nodes'.Perm nodes) :
    Effect cfg m a (a.erase n) trace (.join p q) nodes nodes' buckets buckets := by
  subst hp hq
  refine ⟨⟨fun r hr => ⟨?_, ?_⟩, fun _ _ => ⟨rfl, rfl, rfl, rfl, rfl⟩, fun x hx => ?_,
    fun _ _ => ⟨rfl, rfl⟩⟩, h.join hn, ⟨hperm, rfl⟩, nofun⟩
  · have hne : r ≠ m.lruPrev (.node n) := fun heq => hr (heq ▸ hpn)
    exact Function.update_of_ne hne _ _
  · have hne : r ≠ m.lruNext (.node n) := fun heq => hr (heq ▸ hqn)
    exact Function.update_of_ne hne _ _
  · have hne : x ≠ n := fun heq => hx (heq ▸ hnn)
    exact ⟨List.mem_erase_of_ne hne, List.mem_erase_of_ne hne, fun _ => Iff.rfl⟩

theorem append (h : Shape cfg m a) (hoff : a.Off n) (hp : m.lruPrev .lruTail = p) (hpn : p ∈ nodes)
    (htn : .lruTail ∈ nodes) (hnn : .node n ∈ nodes) (hperm : nodes'.Perm nodes) :
    Effect cfg m a (a.append n) trace (.insertBetween p n .lruTail) nodes nodes' buckets buckets := by
  subst hp
  have hnode : ∀ r ∉ nodes, r ≠ .node n := fun r hr heq => hr (heq ▸ hnn)
  have hprev : ∀ r ∉ nodes, r ≠ m.lruPrev .lruTail := fun r hr heq => hr (heq ▸ hpn)
  have htail : ∀ r ∉ nodes, r ≠ .lruTail := fun r hr heq => hr (heq ▸ htn)
  refine ⟨⟨fun r hr => ⟨?_, ?_⟩, fun _ _ => ⟨rfl, rfl, rfl, rfl, rfl⟩, fun x hx => ?_,
    fun _ _ => ⟨rfl, rfl⟩⟩, h.append hoff, ⟨hperm, rfl⟩, nofun⟩
  · exact (Function.update_of_ne (hnode r hr) _ _).trans (Function.update_of_ne (hprev r hr) _ _)
  · exact (Function.update_of_ne (htail r hr) _ _).trans (Function.update_of_ne (hnode r hr) _ _)
  · have hne : x ≠ n := fun heq => hx (heq ▸ hnn)
    refine ⟨?_, Iff.rfl, fun _ => Iff.rfl⟩
    simp [Lists.append, hne]

theorem clearLinks (h : Shape cfg m a) (hoff : a.Off n) (hnn : .node n ∈ nodes)
    (hperm : nodes'.Perm nodes) :
    Effect cfg m a a trace (.clearLinks n) nodes nodes' buckets buckets := by
  refine ⟨⟨fun r hr => ?_, fun _ _ => ⟨rfl, rfl, rfl, rfl, rfl⟩,
    fun _ _ => ⟨Iff.rfl, Iff.rfl, fun _ => Iff.rfl⟩, fun _ _ => ⟨rfl, rfl⟩⟩, h.clearLinks hoff,
    ⟨hperm, rfl⟩, nofun⟩
  have hne : r ≠ .node n := fun heq => hr (heq ▸ hnn)
  exact ⟨Function.update_of_ne hne _ _, Function.update_of_ne hne _ _⟩

theorem setKey (h : Shape cfg m a) (hbare : a.Bare n) (hnn : .node n ∈ nodes) (k : K) :
    Effect cfg m a a trace (.setKey n k) nodes nodes buckets buckets := by
  refine ⟨⟨fun _ _ => ⟨rfl, rfl⟩, fun x hx => ?_, fun _ _ => ⟨Iff.rfl, Iff.rfl, fun _ => Iff.rfl⟩,
    fun _ _ => ⟨rfl, rfl⟩⟩, h.setKey hbare k, ⟨.rfl, rfl⟩, nofun⟩
  have hne : x ≠ n := fun heq => hx (heq ▸ hnn)
  exact ⟨Function.update_of_ne hne _ _, rfl, rfl, rfl, rfl⟩

theorem setValue (h : Shape cfg m a) (hnn : .node n ∈ nodes) (v : V) :
    Effect cfg m a a trace (.setValue n v) nodes nodes buckets buckets := by
  refine ⟨⟨fun _ _ => ⟨rfl, rfl⟩, fun x hx => ?_, fun _ _ => ⟨Iff.rfl, Iff.rfl, fun _ => Iff.rfl⟩,
    fun _ _ => ⟨rfl, rfl⟩⟩, ⟨h.strung, h.nodup, h.chains, h.hashed, h.pooled⟩, ⟨.rfl, rfl⟩, nofun⟩
  have hne : x ≠ n := fun heq => hx (heq ▸ hnn)
  exact ⟨rfl, Function.update_of_ne hne _ _, rfl, rfl, rfl⟩

theorem lruSetFlag (h : Shape cfg m a) (hn : n ∉ a.pool) (hnn : .node n ∈ nodes) (set : Bool) :
    Effect cfg m a a trace (.lruSetFlag n set) nodes nodes buckets buckets := by
  refine ⟨⟨fun _ _ => ⟨rfl, rfl⟩, fun x hx => ?_, fun _ _ => ⟨Iff.rfl, Iff.rfl, fun _ => Iff.rfl⟩,
    fun _ _ => ⟨rfl, rfl⟩⟩, h.lruSetFlag hn set, ⟨.rfl, rfl⟩, nofun⟩
  have hne : x ≠ n := fun heq => hx (heq ▸ hnn)
  exact ⟨rfl, rfl, Function.update_of_ne hne _ _, rfl, rfl⟩

theorem htSetFlag (h : Shape cfg m a) (hnn : .node n ∈ nodes) (set : Bool) :
    Effect cfg m a a trace (.htSetFlag n set) nodes nodes buckets buckets := by
  refine ⟨⟨fun _ _ => ⟨rfl, rfl⟩, fun x hx => ?_, fun _ _ => ⟨Iff.rfl, Iff.rfl, fun _ => Iff.rfl⟩,
    fun _ _ => ⟨rfl, rfl⟩⟩, ⟨h.strung, h.nodup, h.chains, h.hashed, h.pooled⟩, ⟨.rfl, rfl⟩, nofun⟩
  have hne : x ≠ n := fun heq => hx (heq ▸ hnn)
  exact ⟨rfl, rfl, rfl, Function.update_of_ne hne _ _, rfl⟩

theorem setCount (h : Shape cfg m a) (c : ℕ) :
    Effect cfg m a a trace (.setCount c) nodes nodes buckets buckets :=
  ⟨⟨fun _ _ => ⟨rfl, rfl⟩, fun _ _ => ⟨rfl, rfl, rfl, rfl, rfl⟩,
    fun _ _ => ⟨Iff.rfl, Iff.rfl, fun _ => Iff.rfl⟩, fun _ _ => ⟨rfl, rfl⟩⟩,
    ⟨h.strung, h.nodup, h.chains, h.hashed, h.pooled⟩, ⟨.rfl, rfl⟩, nofun⟩

theorem htSetNext (h : Shape cfg m a) (hbare : a.Bare n) (hnn : .node n ∈ nodes)
    (r : Option (Fin N)) :
    Effect cfg m a a trace (.htSetNext n r) nodes nodes buckets buckets := by
  refine ⟨⟨fun _ _ => ⟨rfl, rfl⟩, fun x hx => ?_, fun _ _ => ⟨Iff.rfl, Iff.rfl, fun _ => Iff.rfl⟩,
    fun _ _ => ⟨rfl, rfl⟩⟩, h.htSetNext hbare r, ⟨.rfl, rfl⟩, nofun⟩
  have hne : x ≠ n := fun heq => hx (heq ▸ hnn)
  exact ⟨rfl, rfl, rfl, rfl, Function.update_of_ne hne _ _⟩

/-- The places of other nodes if only one bucket changes, and there only this node. -/
theorem places_setBucket {l : List (Fin N)} (hnn : .node n ∈ nodes)
    (hl : ∀ x, x ≠ n → (x ∈ l ↔ x ∈ a.bucket b)) (x : Fin N) (hx : .node x ∉ nodes) :
    (x ∈ (a.setBucket b l).lru ↔ x ∈ a.lru) ∧ (x ∈ (a.setBucket b l).pool ↔ x ∈ a.pool) ∧
      ∀ c, x ∈ (a.setBucket b l).bucket c ↔ x ∈ a.bucket c := by
  have hne : x ≠ n := fun heq => hx (heq ▸ hnn)
  refine ⟨Iff.rfl, Iff.rfl, fun c => ?_⟩
  show x ∈ Function.update a.bucket b l c ↔ _
  by_cases hc : c = b
  · rw [hc, Function.update_self]
    exact hl x hne
  · rw [Function.update_of_ne hc]

theorem setHead (h : Shape cfg m a) (hn : n ∉ a.pool) (hb : cfg.whichBucket (m.key n) = b)
    (hnext : m.htNext n = m.ht b) (hnn : .node n ∈ nodes) (hbb : b ∈ buckets) :
    Effect cfg m a (a.setBucket b (n :: a.bucket b)) trace (.setHt b (some n)) nodes nodes buckets
      buckets := by
  refine ⟨⟨fun _ _ => ⟨rfl, rfl⟩, fun _ _ => ⟨rfl, rfl, rfl, rfl, rfl⟩,
    places_setBucket hnn (fun x hx => by simp [hx]), fun c hc => ?_⟩, h.setHead hn hb hnext,
    ⟨.rfl, rfl⟩, nofun⟩
  have hne : c ≠ b := fun heq => hc (heq ▸ hbb)
  exact ⟨Function.update_of_ne hne _ _, Function.update_of_ne hne _ _⟩

theorem removeFirst (h : Shape cfg m a) (hn : m.ht b = some n) (hnn : .node n ∈ nodes)
    (hbb : b ∈ buckets) :
    Effect cfg m a (a.setBucket b ((a.bucket b).erase n)) trace (.setHt b (m.htNext n)) nodes nodes
      buckets buckets := by
  refine ⟨⟨fun _ _ => ⟨rfl, rfl⟩, fun _ _ => ⟨rfl, rfl, rfl, rfl, rfl⟩,
    places_setBucket hnn (fun x hx => List.mem_erase_of_ne hx), fun c hc => ?_⟩, h.removeFirst hn,
    ⟨.rfl, rfl⟩, nofun⟩
  have hne : c ≠ b := fun heq => hc (heq ▸ hbb)
  exact ⟨Function.update_of_ne hne _ _, Function.update_of_ne hne _ _⟩

theorem removeAfter {x : Fin N} (h : Shape cfg m a) (hx : x ∈ a.bucket b) (hn : n ∈ a.bucket b)
    (hnext : m.htNext x = some n) (hxn : .node x ∈ nodes) (hnn : .node n ∈ nodes)
    (hbb : b ∈ buckets) :
    Effect cfg m a (a.setBucket b ((a.bucket b).erase n)) trace (.htSetNext x (m.htNext n)) nodes
      nodes buckets buckets := by
  refine ⟨⟨fun _ _ => ⟨rfl, rfl⟩, fun y hy => ?_,
    places_setBucket hnn (fun x hx => List.mem_erase_of_ne hx), fun c hc => ?_⟩,
    h.removeAfter hx hn hnext, ⟨.rfl, rfl⟩, nofun⟩
  · have hne : y ≠ x := fun heq => hy (heq ▸ hxn)
    exact ⟨rfl, rfl, rfl, rfl, Function.update_of_ne hne _ _⟩
  · have hne : c ≠ b := fun heq => hc (heq ▸ hbb)
    exact ⟨rfl, Function.update_of_ne hne _ _⟩

end Effect

end DeferredLru.ConcurrentLru
