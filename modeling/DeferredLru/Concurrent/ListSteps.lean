import DeferredLru.Concurrent.Effects

set_option autoImplicit false

/-! # The steps on the lists

`listEvictNext`, `listInsertBefore` and `lruRemoveNode`, one access each: the effect of the access,
and what the thread can rely on where it goes, or where the call returns to. -/

namespace DeferredLru.ConcurrentLru

open Intrusive

variable {N : ℕ} {K V T : Type} {cfg : Config N K} {s : State N K V T} {m m' : Mem N K V}
  {a a' : Lists N} {trace : List (Label N K V T)} {act : Act N K V} {n : Fin N} {p q : Ptr N}

/-! ## Ghost lists -/

/-- The lists after the next access of `listEvictNext`. -/
def EvictPC.onLists (a : Lists N) : EvictPC N → Lists N
  | .splice n _ => a.erase n
  | _ => a

/-- The lists after the next access of `listInsertBefore`. -/
def InsertBeforePC.onLists (n : Fin N) (a : Lists N) : InsertBeforePC N → Lists N
  | .splice _ => a.append n
  | _ => a

/-- The lists after the next access of `lruRemoveNode`. -/
def RemovePC.onLists (n : Fin N) (a : Lists N) : RemovePC N → Lists N
  | .splice _ _ => a.erase n
  | _ => a

/-- The node that the call has taken out of its list. -/
def EvictPC.evicted : EvictPC N → Option (Fin N)
  | .unlockPrev n _ => some n
  | .unlockNext n _ => some n
  | .clear n => some n
  | _ => none

/-- The node taken out after a step, which may return it. -/
def evictEvicted : EvictPC N ⊕ Option (Fin N) → Option (Fin N)
  | .inl pc => pc.evicted
  | .inr n => n

/-- Taking a node from the pool leaves the other list alone. -/
theorem EvictPC.onLists_pool {pc : EvictPC N} (hshape : Shape cfg m a)
    (hs : pc.Standing cfg m a trace .pool) : (pc.onLists a).lru = a.lru := by
  cases pc with
  | splice n next => exact List.erase_of_not_mem (fun hn => hshape.not_mem_pool hn hs.2.1)
  | _ => rfl

/-- Only links of the two lists have changed. -/
structure SameTable (m m' : Mem N K V) (a a' : Lists N) : Prop where
  key : m'.key = m.key
  value : m'.value = m.value
  lruFlag : m'.lruFlag = m.lruFlag
  htFlag : m'.htFlag = m.htFlag
  bucket : a'.bucket = a.bucket

namespace SameTable

theorem refl : SameTable m m a a := ⟨rfl, rfl, rfl, rfl, rfl⟩

theorem hashed (h : SameTable m m' a a') (hn : Hashed cfg m a n) : Hashed cfg m' a' n := by
  rw [Hashed, h.htFlag, h.key, h.bucket]
  exact hn

theorem live (h : SameTable m m' a a') (hn : Live cfg m a trace n) : Live cfg m' a' trace n := by
  refine ⟨by rw [h.lruFlag]; exact hn.flag, h.hashed hn.hashed, ?_⟩
  rw [h.key, h.value]
  exact hn.stored

theorem bare (h : SameTable m m' a a') (hn : a.Bare n) : a'.Bare n := by
  rw [Lists.Bare, h.bucket]
  exact hn

theorem filled (h : SameTable m m' a a') (hn : Filled m trace n) : Filled m' trace n := by
  rw [Filled, h.lruFlag, h.key, h.value]
  exact hn

theorem taken {i : ListId} (h : SameTable m m' a a') (hn : Taken cfg m a trace i n) :
    Taken cfg m' a' trace i n := by
  cases i with
  | lru => exact h.live hn
  | pool => exact h.bare hn

end SameTable

/-! ## Nodes at rest -/

/-- Taking a node out does not disturb another one. -/
theorem Rest.erase (hr : Rest cfg m a trace p) (h : SameTable m m' a (a.erase n))
    (hne : p ≠ .node n) : Rest cfg m' (a.erase n) trace p := by
  rintro x rfl
  have hxn : x ≠ n := fun heq => hne (congrArg Ptr.node heq)
  exact (hr x rfl).imp (fun ⟨hx, hl⟩ => ⟨(List.mem_erase_of_ne hxn).2 hx, h.live hl⟩)
    (List.mem_erase_of_ne hxn).2

theorem Rest.append (hr : Rest cfg m a trace p) (h : SameTable m m' a (a.append n)) :
    Rest cfg m' (a.append n) trace p := by
  rintro x rfl
  exact (hr x rfl).imp (fun ⟨hx, hl⟩ => ⟨List.mem_append_left _ hx, h.live hl⟩) id

theorem rest_head (i : ListId) : Rest cfg m a trace i.head := by
  intro n hn
  cases i <;> cases hn

theorem rest_tail : Rest cfg m a trace .lruTail := nofun

/-- A thread that takes a lock finds the node at rest. -/
theorem Inv.rest_of_enabled (h : Inv cfg s a trace) (hact : (Act.lock p).enabled s = true) :
    Rest cfg s.mem a trace p := by
  rintro n rfl
  exact h.rest n (by simpa [Act.enabled] using hact)

theorem AtRest.taken {i : ListId} (h : Shape cfg m a) (hr : AtRest cfg m a trace n)
    (hn : n ∈ a.list i) : Taken cfg m a trace i n := by
  cases i with
  | lru => exact (hr.resolve_right (h.not_mem_pool hn)).2
  | pool => exact (h.pooled n hn).2

/-! ## `listEvictNext` -/

/-- The locks held after the step. -/
def evictHolds (prev : Ptr N) : EvictPC N ⊕ Option (Fin N) → List (Ptr N)
  | .inl pc => pc.holds prev
  | .inr (some n) => [.node n]
  | .inr none => []

/-- What holds after the step: the node returned is in no list. -/
def EvictPost (cfg : Config N K) (m : Mem N K V) (a : Lists N) (trace : List (Label N K V T))
    (i : ListId) : EvictPC N ⊕ Option (Fin N) → Prop
  | .inl pc => pc.Standing cfg m a trace i
  | .inr (some n) => a.Off n ∧ Taken cfg m a trace i n
  | .inr none => True

theorem Inv.evict (h : Inv cfg s a trace) (buckets : List ℕ) (hact : act.enabled s = true)
    {i : ListId} {pc : EvictPC N} {r : EvictPC N ⊕ Option (Fin N)}
    (hs : pc.Standing cfg s.mem a trace i) (hdup : (pc.holds i.head).Nodup)
    (hnext : nextEvict s.mem i.head i.tail pc = some (act, r)) :
    Effect cfg s.mem a (pc.onLists a) trace act (pc.holds i.head) (evictHolds i.head r) buckets
        buckets ∧
      EvictPost cfg (act.onMem s.mem) (pc.onLists a) trace i r := by
  have hshape := h.shape
  have hperm : ∀ (n : Fin N) (next : Ptr N), [next, .node n, i.head].Perm [i.head, next, .node n] :=
    fun n next => List.perm_append_singleton i.head [next, .node n]
  cases pc with
  | lockPrev =>
      cases hnext
      exact ⟨Effect.lock hshape .rfl, trivial⟩
  | load =>
      simp only [nextEvict] at hnext
      split at hnext
      · cases hnext
        exact ⟨Effect.read hshape .rfl, trivial⟩
      · split at hnext
        case h_1 n hn =>
          cases hnext
          exact ⟨Effect.read hshape .rfl, hn⟩
        case h_2 => cases hnext
  | unlockEmpty =>
      cases hnext
      exact ⟨Effect.unlock hshape .rfl (rest_head i), trivial⟩
  | lockNode n =>
      cases hnext
      have hmem : n ∈ a.list i := by
        rcases (hshape.strung i).next_mem (Or.inl rfl) with htail | ⟨x, hx, hxn⟩
        · -- the successor was read under the lock of the head, so it is still there
          cases i <;> exact nomatch htail.symm.trans hs
        · obtain rfl := Ptr.node.inj (hxn.symm.trans hs)
          exact hx
      exact ⟨Effect.lock hshape .rfl, hs, hmem, (h.rest_of_enabled hact n rfl).taken hshape hmem⟩
  | loadNext n =>
      cases hnext
      exact ⟨Effect.read hshape .rfl, hs.1, hs.2.1, hs.2.2, rfl⟩
  | lockNext n next =>
      cases hnext
      exact ⟨Effect.lock hshape .rfl, hs.1, hs.2.1, hs.2.2.1, hs.2.2.2, h.rest_of_enabled hact⟩
  | splice n next =>
      cases hnext
      obtain ⟨hfirst, hmem, htaken, hlink, hrest⟩ := hs
      -- the node is the first one, so the head is its predecessor
      have hprev : s.mem.lruPrev (.node n) = i.head := by
        rw [← hfirst]
        exact (hshape.strung i).prev_next (Or.inl rfl)
      have hne : next ≠ .node n := by
        rintro rfl
        simp [EvictPC.holds] at hdup
      have hsame : SameTable s.mem ((Act.join i.head next : Act N K V).onMem s.mem) a (a.erase n) :=
        ⟨rfl, rfl, rfl, rfl, rfl⟩
      refine ⟨Effect.join hshape hmem hprev hlink ?_ ?_ ?_ .rfl, hshape.off_erase n,
        hsame.taken htaken, hrest.erase hsame hne⟩ <;> simp [EvictPC.holds]
  | unlockPrev n next =>
      cases hnext
      exact ⟨Effect.unlock hshape (hperm n next) (rest_head i), hs⟩
  | unlockNext n next =>
      cases hnext
      exact ⟨Effect.unlock hshape .rfl hs.2.2, hs.1, hs.2.1⟩
  | clear n =>
      cases hnext
      have hsame : SameTable s.mem ((Act.clearLinks n : Act N K V).onMem s.mem) a a :=
        ⟨rfl, rfl, rfl, rfl, rfl⟩
      exact ⟨Effect.clearLinks hshape hs.1 (by simp [EvictPC.holds]) .rfl, hs.1, hsame.taken hs.2⟩

/-! ## `listInsertBefore` -/

/-- The locks held after the step. -/
def insertBeforeHolds (n : Fin N) : Option (InsertBeforePC N) → List (Ptr N)
  | some pc => pc.holds .lruTail n
  | none => [.node n]

/-- What holds after the step: the node is in the list when the call returns. -/
def InsertBeforePost (cfg : Config N K) (m : Mem N K V) (a : Lists N)
    (trace : List (Label N K V T)) (n : Fin N) : Option (InsertBeforePC N) → Prop
  | some pc => pc.Standing cfg m a trace n
  | none => n ∈ a.lru

theorem Inv.insertBefore (h : Inv cfg s a trace) (buckets : List ℕ) (hact : act.enabled s = true)
    {pc : InsertBeforePC N} {r : Option (InsertBeforePC N)}
    (hs : pc.Standing cfg s.mem a trace n) (hnext : nextInsertBefore s.mem .lruTail n pc = (act, r)) :
    Effect cfg s.mem a (pc.onLists n a) trace act (pc.holds .lruTail n) (insertBeforeHolds n r)
        buckets buckets ∧
      SameTable s.mem (act.onMem s.mem) a (pc.onLists n a) ∧
      InsertBeforePost cfg (act.onMem s.mem) (pc.onLists n a) trace n r := by
  have hshape := h.shape
  have htail := (hshape.strung .lru).next_prev_tail
  cases pc with
  | load =>
      cases hnext
      refine ⟨Effect.read hshape .rfl, SameTable.refl, hs, ?_⟩
      exact htail.1.imp id (fun ⟨x, _, hx⟩ => ⟨x, hx⟩)
  | lockPrev p =>
      cases hnext
      exact ⟨Effect.lock hshape .rfl, SameTable.refl, hs.1, hs.2, h.rest_of_enabled hact⟩
  | test p =>
      simp only [nextInsertBefore] at hnext
      split at hnext
      case isTrue hlast =>
        cases hnext
        exact ⟨Effect.read hshape .rfl, SameTable.refl, hs.1, hs.2.1, hs.2.2, hlast⟩
      case isFalse =>
        cases hnext
        exact ⟨Effect.read hshape .rfl, SameTable.refl, hs.1, hs.2.2⟩
  | retry p =>
      cases hnext
      exact ⟨Effect.unlock hshape .rfl hs.2, SameTable.refl, hs.1⟩
  | lockNode p =>
      cases hnext
      exact ⟨Effect.lock hshape .rfl, SameTable.refl, hs⟩
  | splice p =>
      cases hnext
      obtain ⟨hoff, hfront, hrest, hlast⟩ := hs
      have hprev : s.mem.lruPrev .lruTail = p := by
        rw [← hlast]
        exact (hshape.strung .lru).prev_next (hshape.inner_of_tail hfront hrest hlast)
      have hsame : SameTable s.mem ((Act.insertBetween p n .lruTail : Act N K V).onMem s.mem) a
          (a.append n) := ⟨rfl, rfl, rfl, rfl, rfl⟩
      refine ⟨Effect.append hshape hoff hprev ?_ ?_ ?_ .rfl, hsame, Lists.mem_append a n,
        hrest.append hsame⟩ <;> simp [InsertBeforePC.holds]
  | unlockPrev p =>
      cases hnext
      exact ⟨Effect.unlock hshape (List.Perm.swap p .lruTail [.node n]) hs.2, SameTable.refl, hs.1⟩
  | unlockNode =>
      cases hnext
      exact ⟨Effect.unlock hshape .rfl rest_tail, SameTable.refl, hs⟩

/-! ## `lruRemoveNode` -/

/-- The locks held after the step. -/
def removeHolds (n : Fin N) : RemovePC N ⊕ Bool → List (Ptr N)
  | .inl pc => pc.holds n
  | .inr _ => [.node n]

/-- What holds after the step: the node is out of the list, or what the thread has found instead is at
    rest. -/
def RemovePost (cfg : Config N K) (m : Mem N K V) (a : Lists N) (trace : List (Label N K V T))
    (n : Fin N) : RemovePC N ⊕ Bool → Prop
  | .inl pc => pc.Standing cfg m a trace n
  | .inr true => a.Off n ∧ Live cfg m a trace n
  | .inr false => AtRest cfg m a trace n

theorem Inv.remove (h : Inv cfg s a trace) (buckets : List ℕ) (hact : act.enabled s = true)
    {pc : RemovePC N} {r : RemovePC N ⊕ Bool} (hs : pc.Standing cfg s.mem a trace n)
    (hdup : (pc.holds n).Nodup) (hnext : nextRemove s n pc = (act, r)) :
    Effect cfg s.mem a (pc.onLists n a) trace act (pc.holds n) (removeHolds n r) buckets buckets ∧
      RemovePost cfg (act.onMem s.mem) (pc.onLists n a) trace n r := by
  have hshape := h.shape
  have hswap : ∀ p : Ptr N, [.node n, p].Perm [p, .node n] := fun p => List.Perm.swap p (.node n) []
  cases pc with
  | load =>
      cases hnext
      exact ⟨Effect.read hshape .rfl, hs.1, hs.2, rfl⟩
  | tryLock p =>
      obtain ⟨hmem, hlive, hprev⟩ := hs
      simp only [nextRemove] at hnext
      split at hnext
      case isTrue =>
        cases hnext
        exact ⟨Effect.lock hshape (hswap p), hmem, hlive, hprev, h.rest_of_enabled hact⟩
      case isFalse =>
        cases hnext
        refine ⟨Effect.read hshape .rfl, hmem, hlive, ?_⟩
        rw [← hprev]
        exact ((hshape.strung .lru).next_prev hmem).1.imp id (fun ⟨x, _, hx⟩ => ⟨x, hx⟩)
  | unlockNode p =>
      cases hnext
      refine ⟨Effect.unlock hshape .rfl (fun x hx => ?_), hs.2.2⟩
      obtain rfl := Ptr.node.inj hx
      exact Or.inl ⟨hs.1, hs.2.1⟩
  | lockPrev p =>
      cases hnext
      exact ⟨Effect.lock hshape .rfl, hs, h.rest_of_enabled hact⟩
  | test p =>
      simp only [nextRemove] at hnext
      split at hnext
      case isTrue hsame =>
        cases hnext
        exact ⟨Effect.read hshape .rfl, hs.1, hs.2, hsame⟩
      case isFalse =>
        cases hnext
        exact ⟨Effect.read hshape .rfl, hs.2⟩
  | lockSame p =>
      cases hnext
      exact ⟨Effect.lock hshape .rfl, hs.1, hs.2.1, hs.2.2, h.rest_of_enabled hact n rfl⟩
  | testSame p =>
      -- with both locks the predecessor is right exactly if the node is still in the list
      obtain ⟨hfront, hrest, hlink, hn⟩ := hs
      simp only [nextRemove] at hnext
      split at hnext
      case isTrue hflag =>
        cases hnext
        obtain ⟨hmem, hlive⟩ := hshape.live_of_flag hn hflag
        exact ⟨Effect.read hshape .rfl, hmem, hlive, hshape.prev_eq hfront hrest hlink hmem, hrest⟩
      case isFalse =>
        cases hnext
        exact ⟨Effect.read hshape .rfl, hrest, hn⟩
  | unlockGone p =>
      cases hnext
      exact ⟨Effect.unlock hshape (hswap p) hs.1, hs.2⟩
  | unlockChanged p =>
      cases hnext
      exact ⟨Effect.unlock hshape .rfl hs, trivial⟩
  | lockChanged =>
      cases hnext
      exact ⟨Effect.lock hshape .rfl, h.rest_of_enabled hact n rfl⟩
  | testChanged =>
      simp only [nextRemove] at hnext
      split at hnext
      case isTrue hflag =>
        cases hnext
        exact ⟨Effect.read hshape .rfl, hshape.live_of_flag hs hflag⟩
      case isFalse =>
        cases hnext
        exact ⟨Effect.read hshape .rfl, hs⟩
  | loadNext p =>
      cases hnext
      exact ⟨Effect.read hshape .rfl, hs.1, hs.2.1, hs.2.2.1, hs.2.2.2, rfl⟩
  | lockNext p next =>
      cases hnext
      exact ⟨Effect.lock hshape .rfl, hs.1, hs.2.1, hs.2.2.1, hs.2.2.2.1, hs.2.2.2.2,
        h.rest_of_enabled hact⟩
  | splice p next =>
      cases hnext
      obtain ⟨hmem, hlive, hprev, hrest, hlink, hrest'⟩ := hs
      -- the thread holds three different nodes
      have hne : next ≠ .node n ∧ p ≠ .node n := by
        simp only [RemovePC.holds, List.nodup_cons, List.mem_cons, not_or] at hdup
        exact ⟨hdup.1.1, fun heq => hdup.2.1.1 heq.symm⟩
      have hsame : SameTable s.mem ((Act.join p next : Act N K V).onMem s.mem) a (a.erase n) :=
        ⟨rfl, rfl, rfl, rfl, rfl⟩
      refine ⟨Effect.join (i := .lru) hshape hmem hprev hlink ?_ ?_ ?_ .rfl, hshape.off_erase n,
        hsame.live hlive, hrest.erase hsame hne.2, hrest'.erase hsame hne.1⟩ <;>
        simp [RemovePC.holds]
  | unlockPrev p next =>
      cases hnext
      exact ⟨Effect.unlock hshape (List.perm_append_singleton p [next, .node n]) hs.2.2.1, hs.1,
        hs.2.1, hs.2.2.2⟩
  | unlockNext next =>
      cases hnext
      exact ⟨Effect.unlock hshape .rfl hs.2.2, hs.1, hs.2.1⟩
  | clear =>
      cases hnext
      have hsame : SameTable s.mem ((Act.clearLinks n : Act N K V).onMem s.mem) a a :=
        ⟨rfl, rfl, rfl, rfl, rfl⟩
      exact ⟨Effect.clearLinks hshape hs.1 (by simp [RemovePC.holds]) .rfl, hs.1, hsame.live hs.2⟩

end DeferredLru.ConcurrentLru
