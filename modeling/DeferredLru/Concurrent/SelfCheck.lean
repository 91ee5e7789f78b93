import DeferredLru.Concurrent.Counter
import DeferredLru.Concurrent.History
import Mathlib.Data.Fintype.Card

set_option autoImplicit false

/-! # `assertIsCoherent`

`ConcurrentLRU` has a check of itself for debugging: it walks the pool, the LRU list and every bucket,
tests the flags of the nodes it meets and notes which ones it has met. It raises a signal if a test
fails. Here it is as the source has it, and it accepts every state with no call running
(`Run.coherent_idle`).

Beyond the invariant it needs that the links of the tails stay null, so that the walks end there, and
that nobody writes to a node of the pool (`Settled`). -/

namespace DeferredLru.ConcurrentLru

open Intrusive

variable {N : ℕ} {K V T : Type} {cfg : Config N K} {s s' : State N K V T} {m : Mem N K V}
  {a a' : Lists N} {trace : List (Label N K V T)} {act : Act N K V} {t : T} {n : Fin N}
  {pc p : PC N K V} {move : Move K V}

/-! ## The check -/

/-- The LRU flag of an element or an end. -/
def Mem.lruFlagAt (m : Mem N K V) : Ptr N → Bool
  | .node n => m.lruFlag n
  | .lruHead => true
  | .lruTail => true
  | _ => false

/-- The hash table flag of an element or an end. -/
def Mem.htFlagAt (m : Mem N K V) : Ptr N → Bool
  | .node n => m.htFlag n
  | .lruHead => true
  | .lruTail => true
  | _ => false

/-- The `ht_next` of an element; the ends have none. -/
def Mem.htNextAt (m : Mem N K V) : Ptr N → Option (Fin N)
  | .node n => m.htNext n
  | _ => none

/-- The loop over the pool, with `raise` and `unseen_nodes`. -/
def walkPool (m : Mem N K V) : ℕ → Ptr N → Bool → Finset (Fin N) → Option (Bool × Finset (Fin N))
  | 0, _, _, _ => none
  | fuel + 1, node, raise, unseen =>
      if node = .lruHead ∨ node = .lruTail then some (true, unseen)
      else
        let raise := raise || m.lruFlagAt node || m.htFlagAt node || (m.htNextAt node).isSome
        if m.lruNext node = .null then some (raise || decide (node ≠ .poolTail), unseen)
        else walkPool m fuel (m.lruNext node) raise (unseen.filter fun n => .node n ≠ node)

/-- The loop over the LRU list, with `raise`, `unseen_nodes` and `lru_nodes`. -/
def walkLru (m : Mem N K V) : ℕ → Ptr N → Bool → Finset (Fin N) → Finset (Ptr N) →
    Option (Bool × Finset (Fin N) × Finset (Ptr N))
  | 0, _, _, _, _ => none
  | fuel + 1, node, raise, unseen, lruNodes =>
      if node = .poolHead ∨ node = .poolTail then some (true, unseen, lruNodes)
      else
        let raise := raise || !m.lruFlagAt node || !m.htFlagAt node
        let lruNodes := Insert.insert node lruNodes
        let unseen := unseen.filter fun n => .node n ≠ node
        if m.lruNext node = .null then some (raise || decide (node ≠ .lruTail), unseen, lruNodes)
        else walkLru m fuel (m.lruNext node) raise unseen lruNodes

/-- The loop over a bucket, with `raise`, `ht_seen` and `ht_seen_all`. -/
def walkBucket (m : Mem N K V) (lruNodes : Finset (Ptr N)) : ℕ → Option (Fin N) → Bool →
    Finset (Fin N) → Finset (Fin N) → Option (Bool × Finset (Fin N))
  | 0, _, _, _, _ => none
  | _ + 1, none, raise, _, seenAll => some (raise, seenAll)
  | fuel + 1, some n, raise, seen, seenAll =>
      if .node n ∉ lruNodes then some (true, seenAll)
      else if n ∈ seen then some (true, seenAll)
      else walkBucket m lruNodes fuel (m.htNext n) (raise || decide (n ∈ seenAll))
        (Insert.insert n seen) (Insert.insert n seenAll)

/-- Whether `assertIsCoherent` raises. -/
def assertIsCoherent (cfg : Config N K) (fuel : ℕ) (m : Mem N K V) : Option Bool := do
  let (raise, unseen) ← walkPool m fuel .poolHead false Finset.univ
  let (raise, unseen, lruNodes) ← walkLru m fuel .lruHead raise unseen ∅
  let (raise, _) ← (List.range cfg.bucketCount).foldlM
    (fun r b => walkBucket m lruNodes fuel (m.ht b) r.1 ∅ r.2)
    (raise || decide (unseen ≠ ∅), ∅)
  some raise

/-! ## What is not written to -/

/-- The links of the tails are null, and the nodes of the pool as they were allocated. -/
structure Settled (m : Mem N K V) (a : Lists N) : Prop where
  lruTail : m.lruNext .lruTail = .null
  poolTail : m.lruNext .poolTail = .null
  pooled : ∀ n ∈ a.pool, m.htFlag n = false ∧ m.htNext n = none

/-- An access that writes to no tail and to no node of the pool. -/
def Act.Proper (m : Mem N K V) (a : Lists N) : Act N K V → Prop
  | .join p _ => m.lruNext p ≠ .null
  | .insertBetween p _ _ => m.lruNext p ≠ .null
  | .htSetFlag n _ => n ∉ a.pool
  | .htSetNext n _ => n ∉ a.pool
  | _ => True

theorem evict_proper {i : ListId} {q : EvictPC N} {r : EvictPC N ⊕ Option (Fin N)}
    (hs : q.Standing cfg m a trace i) (hnext : nextEvict m i.head i.tail q = some (act, r)) :
    act.Proper m a := by
  cases q with
  | load =>
      simp only [nextEvict] at hnext
      split at hnext
      · cases hnext
        trivial
      · split at hnext <;> cases hnext
        trivial
  | splice n next =>
      cases hnext
      show m.lruNext i.head ≠ .null
      rw [hs.1]
      simp
  | _ =>
      cases hnext
      trivial

theorem insertBefore_proper {q : InsertBeforePC N} {r : Option (InsertBeforePC N)}
    (hs : q.Standing cfg m a trace n) (hnext : nextInsertBefore m .lruTail n q = (act, r)) :
    act.Proper m a := by
  cases q with
  | splice x =>
      cases hnext
      show m.lruNext x ≠ .null
      rw [hs.2.2.2]
      simp
  | _ =>
      cases hnext
      trivial

theorem remove_proper {q : RemovePC N} {r : RemovePC N ⊕ Bool} (hshape : Shape cfg s.mem a)
    (hs : q.Standing cfg s.mem a trace n) (hnext : nextRemove s n q = (act, r)) :
    act.Proper s.mem a := by
  cases q with
  | tryLock x =>
      simp only [nextRemove] at hnext
      split at hnext <;> cases hnext <;> trivial
  | splice x next =>
      cases hnext
      obtain ⟨hmem, -, rfl, -⟩ := hs
      show s.mem.lruNext (s.mem.lruPrev (.node n)) ≠ .null
      rw [((hshape.strung .lru).next_prev hmem).2]
      simp
  | _ =>
      cases hnext
      trivial

theorem htInsert_proper {q : HtInsertPC} {r : Option HtInsertPC} (hshape : Shape cfg m a)
    (hn : n ∈ a.lru) (hnext : nextHtInsert cfg m n q = (act, r)) : act.Proper m a := by
  cases q <;> cases hnext <;> first | trivial | exact hshape.not_mem_pool hn

theorem htRemove_proper {q : HtRemovePC N} {r : HtRemovePC N ⊕ Bool} (hshape : Shape cfg s.mem a)
    (hoff : a.Off n) (hs : q.Standing cfg s.mem a trace n)
    (hnext : nextHtRemove cfg s n q = (act, r)) : act.Proper s.mem a := by
  cases q with
  | tryLock b x =>
      simp only [nextHtRemove] at hnext
      split at hnext <;> cases hnext <;> trivial
  | setNext b prev =>
      cases prev with
      | none =>
          cases hnext
          trivial
      | some x =>
          cases hnext
          -- the node before is in the bucket
          exact fun hx => (hshape.pooled x hx).2 b (hs.2.1.after hshape).1
  | clearNext b =>
      cases hnext
      exact hoff.2
  | clearFlag b =>
      cases hnext
      exact hoff.2
  | _ =>
      cases hnext
      trivial

section

variable [DecidableEq K]

theorem Inv.proper (h : Inv cfg s a trace) (hmoved : Transition cfg s (s.pc t) move act p) :
    act.Proper s.mem a := by
  have hshape := h.shape
  have hs := h.standing t
  have hfindProper : ∀ {k : K} {q : HtFindPC N} {r : HtFindPC N ⊕ Option (Fin N)} {act : Act N K V},
      nextHtFind cfg s.mem k q = (act, r) → act.Proper s.mem a := by
    intro k q r act hr
    cases q <;> cases hr <;> trivial
  generalize s.pc t = pc at hmoved hs
  cases hmoved with
  | call c => trivial
  | find hfind =>
      cases hfind with
      | search hr => exact hfindProper hr
      | found hr => exact hfindProper hr
      | missing hr => exact hfindProper hr
      | remove hr => exact remove_proper hshape hs.1 hr
      | removed hr => exact remove_proper hshape hs.1 hr
      | gone hr => exact remove_proper hshape hs.1 hr
      | insertLast hr => exact insertBefore_proper hs.1 hr
      | inserted hr => exact insertBefore_proper hs.1 hr
      | _ => trivial
  | insert hinsert =>
      cases hinsert with
      | getNodeFromPool hr => exact evict_proper (i := .pool) hs hr
      | pooled hr => exact evict_proper (i := .pool) hs hr
      | poolEmpty hr => exact evict_proper (i := .pool) hs hr
      | lruEvictHead hr => exact evict_proper (i := .lru) hs hr
      | evicted hr => exact evict_proper (i := .lru) hs hr
      | lruEmpty hr => exact evict_proper (i := .lru) hs hr
      | htRemove hr => exact htRemove_proper hshape hs.1 hs.2 hr
      | unlinked hr => exact htRemove_proper hshape hs.1 hs.2 hr
      | linked hr => exact htRemove_proper hshape hs.1 hs.2 hr
      | insertLast hr => exact insertBefore_proper hs.1 hr
      | inserted hr => exact insertBefore_proper hs.1 hr
      | htInsert hr => exact htInsert_proper hshape hs.1 hr
      | hashed hr => exact htInsert_proper hshape hs.1 hr
      | _ => trivial

end

/-- The pool never grows. -/
theorem PC.onLists_pool_subset (a : Lists N) (pc : PC N K V) : (pc.onLists a).pool ⊆ a.pool := by
  have hrefl := List.Subset.refl a.pool
  cases pc with
  | idle => exact hrefl
  | find producer k q =>
      cases q with
      | remove n r q => cases q <;> first | exact hrefl | exact List.erase_subset
      | insertLast n r q => cases q <;> exact hrefl
      | _ => exact hrefl
  | insert k v q =>
      cases q with
      | getNodeFromPool q => cases q <;> first | exact hrefl | exact List.erase_subset
      | lruEvictHead q => cases q <;> first | exact hrefl | exact List.erase_subset
      | insertLast n q => cases q <;> exact hrefl
      | htInsert n q => cases q <;> exact hrefl
      | htRemove n q => cases q <;> exact hrefl
      | _ => exact hrefl

/-- A proper access keeps the rest. -/
theorem Settled.proper (h : Settled m a) (hact : act.Proper m a) (hpool : a'.pool ⊆ a.pool) :
    Settled (act.onMem m) a' := by
  have htail : ∀ q, m.lruNext q = .null → (∀ n, q ≠ .node n) → (act.onMem m).lruNext q = .null := by
    intro q hq hnode
    have hne : ∀ x, m.lruNext x ≠ .null → q ≠ x := by
      rintro x hx rfl
      exact hx hq
    cases act with
    | join x y => exact (Function.update_of_ne (hne x hact) _ _).trans hq
    | insertBetween x n y =>
        exact (Function.update_of_ne (hnode n) _ _).trans
          ((Function.update_of_ne (hne x hact) _ _).trans hq)
    | clearLinks n => exact (Function.update_of_ne (hnode n) _ _).trans hq
    | _ => exact hq
  refine ⟨htail _ h.lruTail nofun, htail _ h.poolTail nofun, fun n hn => ?_⟩
  have hold := h.pooled n (hpool hn)
  cases act with
  | htSetFlag x set =>
      have hne : n ≠ x := fun hx => hact (hx ▸ hpool hn)
      exact ⟨(Function.update_of_ne hne _ _).trans hold.1, hold.2⟩
  | htSetNext x q =>
      have hne : n ≠ x := fun hx => hact (hx ▸ hpool hn)
      exact ⟨hold.1, (Function.update_of_ne hne _ _).trans hold.2⟩
  | _ => exact hold

theorem Settled.initial [Inhabited K] [Inhabited V] :
    Settled (allocateMemory N K V) ⟨[], List.finRange N, fun _ => []⟩ :=
  ⟨rfl, rfl, fun _ _ => ⟨rfl, rfl⟩⟩

theorem Run.settled [DecidableEq K] [DecidableEq T] [Inhabited K] [Inhabited V]
    {ok : State N K V T → Label N K V T → Prop} (h : Run cfg ok s trace) :
    ∃ a, Inv cfg s a trace ∧ Settled s.mem a := by
  induction h with
  | start => exact ⟨_, Inv.initial cfg, .initial⟩
  | @step s s' trace t move act _ hstep _ ih =>
      obtain ⟨a, hinv, hsettled⟩ := ih
      obtain ⟨p, hmoved, -, rfl⟩ := step_transition hstep
      exact ⟨_, hinv.step hstep,
        hsettled.proper (hinv.proper hmoved) (PC.onLists_pool_subset a (s.pc t))⟩

/-! ## The walks -/

/-- The walk of the pool, from its head or a node of it. -/
theorem walkPool_spec {l : List (Fin N)} {c : Ptr N} {fuel : ℕ} (raise : Bool)
    (unseen : Finset (Fin N)) (htail : m.lruNext .poolTail = .null)
    (h : Linked m.lruNext .node c l .poolTail) (hc : c = .poolHead ∨ ∃ n, c = .node n)
    (hflags : ∀ x, x = c ∨ (∃ n ∈ l, x = .node n) →
      m.lruFlagAt x = false ∧ m.htFlagAt x = false ∧ m.htNextAt x = none)
    (hfuel : l.length + 1 < fuel) :
    walkPool m fuel c raise unseen = some (raise, unseen.filter fun n => .node n ≠ c ∧ n ∉ l) := by
  induction l generalizing c fuel unseen with
  | nil =>
      obtain ⟨fuel, rfl⟩ : ∃ fuel', fuel = fuel' + 2 := ⟨fuel - 2, by simp at hfuel; omega⟩
      have hnext : m.lruNext c = .poolTail := h
      obtain ⟨hlru, hht, hlink⟩ := hflags c (Or.inl rfl)
      have hpool : ¬ (c = .lruHead ∨ c = .lruTail) := by
        rcases hc with rfl | ⟨n, rfl⟩ <;> simp
      rw [walkPool, if_neg hpool, hlru, hht, hlink, hnext, if_neg nofun, walkPool,
        if_neg (by simp), htail, if_pos rfl]
      simp [Mem.lruFlagAt, Mem.htFlagAt, Mem.htNextAt]
  | cons x l ih =>
      obtain ⟨fuel, rfl⟩ : ∃ fuel', fuel = fuel' + 1 := ⟨fuel - 1, by omega⟩
      obtain ⟨hnext, hrest⟩ := h
      obtain ⟨hlru, hht, hlink⟩ := hflags c (Or.inl rfl)
      have hpool : ¬ (c = .lruHead ∨ c = .lruTail) := by
        rcases hc with rfl | ⟨n, rfl⟩ <;> simp
      rw [walkPool, if_neg hpool, hlru, hht, hlink, hnext, if_neg nofun, Option.isSome_none,
        Bool.or_false, Bool.or_false, Bool.or_false, ih _ hrest (Or.inr ⟨x, rfl⟩) ?_
          (by simpa using hfuel), Finset.filter_filter]
      · simp
      · rintro y (rfl | ⟨n, hn, rfl⟩)
        · exact hflags _ (Or.inr ⟨x, List.mem_cons_self, rfl⟩)
        · exact hflags _ (Or.inr ⟨n, List.mem_cons_of_mem _ hn, rfl⟩)

/-- The walk of the LRU list. -/
theorem walkLru_spec {l : List (Fin N)} {c : Ptr N} {fuel : ℕ} (raise : Bool)
    (unseen : Finset (Fin N)) (lruNodes : Finset (Ptr N)) (htail : m.lruNext .lruTail = .null)
    (h : Linked m.lruNext .node c l .lruTail) (hc : c = .lruHead ∨ ∃ n, c = .node n)
    (hflags : ∀ x, x = c ∨ (∃ n ∈ l, x = .node n) → m.lruFlagAt x = true ∧ m.htFlagAt x = true)
    (hfuel : l.length + 1 < fuel) :
    ∃ lruNodes', walkLru m fuel c raise unseen lruNodes =
        some (raise, unseen.filter (fun n => .node n ≠ c ∧ n ∉ l), lruNodes') ∧
      (∀ x ∈ lruNodes, x ∈ lruNodes') ∧ c ∈ lruNodes' ∧ ∀ n ∈ l, .node n ∈ lruNodes' := by
  induction l generalizing c fuel unseen lruNodes with
  | nil =>
      obtain ⟨fuel, rfl⟩ : ∃ fuel', fuel = fuel' + 2 := ⟨fuel - 2, by simp at hfuel; omega⟩
      have hnext : m.lruNext c = .lruTail := h
      obtain ⟨hlru, hht⟩ := hflags c (Or.inl rfl)
      have hpool : ¬ (c = .poolHead ∨ c = .poolTail) := by
        rcases hc with rfl | ⟨n, rfl⟩ <;> simp
      refine ⟨Insert.insert .lruTail (Insert.insert c lruNodes), ?_, fun x hx => by simp [hx], by simp,
        by simp⟩
      rw [walkLru, if_neg hpool, hlru, hht, hnext, if_neg nofun, walkLru, if_neg (by simp), htail,
        if_pos rfl]
      simp [Mem.lruFlagAt, Mem.htFlagAt]
  | cons x l ih =>
      obtain ⟨fuel, rfl⟩ : ∃ fuel', fuel = fuel' + 1 := ⟨fuel - 1, by omega⟩
      obtain ⟨hnext, hrest⟩ := h
      obtain ⟨hlru, hht⟩ := hflags c (Or.inl rfl)
      have hpool : ¬ (c = .poolHead ∨ c = .poolTail) := by
        rcases hc with rfl | ⟨n, rfl⟩ <;> simp
      obtain ⟨lruNodes', hwalk, hold, hx, hnodes⟩ := ih (unseen.filter fun n => .node n ≠ c)
        (Insert.insert c lruNodes) hrest (Or.inr ⟨x, rfl⟩)
        (by
          rintro y (rfl | ⟨n, hn, rfl⟩)
          · exact hflags _ (Or.inr ⟨x, List.mem_cons_self, rfl⟩)
          · exact hflags _ (Or.inr ⟨n, List.mem_cons_of_mem _ hn, rfl⟩))
        (by simpa using hfuel)
      refine ⟨lruNodes', ?_, fun y hy => hold y (Finset.mem_insert_of_mem hy),
        hold c (Finset.mem_insert_self ..), fun n hn => ?_⟩
      · rw [walkLru, if_neg hpool, hlru, hht, hnext, if_neg nofun, Bool.not_true, Bool.or_false,
          Bool.or_false, hwalk, Finset.filter_filter]
        simp
      · rcases List.mem_cons.1 hn with rfl | hn
        · exact hx
        · exact hnodes n hn

/-- The walk of a bucket. -/
theorem walkBucket_spec {l : List (Fin N)} {q : Option (Fin N)} {fuel : ℕ}
    {lruNodes : Finset (Ptr N)} (raise : Bool) (seen seenAll : Finset (Fin N))
    (h : Chain m.htNext some q l none) (hlru : ∀ n ∈ l, .node n ∈ lruNodes) (hdup : l.Nodup)
    (hseen : ∀ n ∈ l, n ∉ seen) (hall : ∀ n ∈ l, n ∉ seenAll) (hfuel : l.length < fuel) :
    ∃ seenAll', walkBucket m lruNodes fuel q raise seen seenAll = some (raise, seenAll') ∧
      ∀ n, n ∈ seenAll' ↔ n ∈ seenAll ∨ n ∈ l := by
  induction l generalizing q fuel seen seenAll with
  | nil =>
      obtain ⟨fuel, rfl⟩ : ∃ fuel', fuel = fuel' + 1 := ⟨fuel - 1, by simp at hfuel; omega⟩
      obtain rfl := chain_nil.1 h
      exact ⟨seenAll, rfl, by simp⟩
  | cons x l ih =>
      obtain ⟨fuel, rfl⟩ : ∃ fuel', fuel = fuel' + 1 := ⟨fuel - 1, by omega⟩
      obtain ⟨rfl, hrest⟩ := h
      obtain ⟨hx, hdup'⟩ := List.nodup_cons.1 hdup
      have hne : ∀ n ∈ l, n ≠ x := fun n hn hnx => hx (hnx ▸ hn)
      obtain ⟨seenAll', hwalk, hmem⟩ := ih (Insert.insert x seen) (Insert.insert x seenAll) hrest
        (fun n hn => hlru n (List.mem_cons_of_mem _ hn)) hdup'
        (fun n hn => by simp [hne n hn, hseen n (List.mem_cons_of_mem _ hn)])
        (fun n hn => by simp [hne n hn, hall n (List.mem_cons_of_mem _ hn)])
        (by simpa using hfuel)
      refine ⟨seenAll', ?_, fun n => ?_⟩
      · rw [walkBucket, if_neg (not_not.2 (hlru x List.mem_cons_self)),
          if_neg (hseen x List.mem_cons_self), decide_eq_false (hall x List.mem_cons_self),
          Bool.or_false, hwalk]
      · rw [hmem n, Finset.mem_insert, List.mem_cons]
        tauto

/-- The walks of buckets, one after the other: they have no node in common. -/
theorem Shape.walkBuckets_spec (h : Shape cfg m a) {fuel : ℕ} (hfuel : N < fuel)
    {lruNodes : Finset (Ptr N)} (hlru : ∀ b, ∀ n ∈ a.bucket b, .node n ∈ lruNodes) {bs : List ℕ}
    (hbs : bs.Nodup) (raise : Bool) (seenAll : Finset (Fin N))
    (hall : ∀ b ∈ bs, ∀ n ∈ a.bucket b, n ∉ seenAll) :
    ∃ seenAll', bs.foldlM (fun (r : Bool × Finset (Fin N)) b =>
      walkBucket m lruNodes fuel (m.ht b) r.1 ∅ r.2) (raise, seenAll) = some (raise, seenAll') := by
  induction bs generalizing seenAll with
  | nil => exact ⟨seenAll, rfl⟩
  | cons b bs ih =>
      obtain ⟨hb, hbs'⟩ := List.nodup_cons.1 hbs
      have hlength : (a.bucket b).length < fuel :=
        lt_of_le_of_lt (by simpa using (h.bucket_nodup b).length_le_card) hfuel
      obtain ⟨seenAll₁, hwalk, hmem⟩ := walkBucket_spec raise ∅ seenAll (h.chains b) (hlru b)
        (h.bucket_nodup b) (by simp) (hall b List.mem_cons_self) hlength
      obtain ⟨seenAll₂, hrest⟩ := ih hbs' seenAll₁ (fun c hc n hn hseen => by
        rcases (hmem n).1 hseen with hold | hnb
        · exact hall c (List.mem_cons_of_mem _ hc) n hn hold
        · have hcb : c = b := (h.hashed c n hn).symm.trans (h.hashed b n hnb)
          exact hb (hcb ▸ hc))
      refine ⟨seenAll₂, ?_⟩
      rw [List.foldlM_cons, hwalk]
      exact hrest

/-- **What the check finds**: nothing, if no node is locked. -/
theorem Inv.accepted (h : Inv cfg s a trace) (hsettled : Settled s.mem a)
    (hfree : ∀ n, s.nodeLock (.node n) = none) {fuel : ℕ} (hfuel : N + 1 < fuel) :
    assertIsCoherent cfg fuel s.mem = some false := by
  have hshape := h.shape
  have hlive : ∀ n ∈ a.lru, Live cfg s.mem a trace n := fun n hn =>
    ((h.rest n (hfree n)).resolve_right (hshape.not_mem_pool hn)).2
  have hlength : ∀ i, (a.list i).length + 1 < fuel := fun i => by
    have hle := (hshape.list_nodup i).length_le_card
    rw [Fintype.card_fin] at hle
    omega
  have hpoolFlags : ∀ x, x = .poolHead ∨ (∃ n ∈ a.pool, x = .node n) → s.mem.lruFlagAt x = false ∧
      s.mem.htFlagAt x = false ∧ s.mem.htNextAt x = none := by
    rintro x (rfl | ⟨n, hn, rfl⟩)
    · exact ⟨rfl, rfl, rfl⟩
    · exact ⟨(hshape.pooled n hn).1, hsettled.pooled n hn⟩
  have hlruFlags : ∀ x, x = .lruHead ∨ (∃ n ∈ a.lru, x = .node n) →
      s.mem.lruFlagAt x = true ∧ s.mem.htFlagAt x = true := by
    rintro x (rfl | ⟨n, hn, rfl⟩)
    · exact ⟨rfl, rfl⟩
    · exact ⟨(hlive n hn).flag, (hlive n hn).hashed.1⟩
  obtain ⟨unseen, hpool, hunseen⟩ : ∃ unseen,
      walkPool s.mem fuel .poolHead false Finset.univ = some (false, unseen) ∧
        ∀ n ∈ unseen, n ∉ a.pool :=
    ⟨_, walkPool_spec false Finset.univ hsettled.poolTail (hshape.strung .pool).linked (Or.inl rfl)
      hpoolFlags (hlength .pool), fun n hn => (Finset.mem_filter.1 hn).2.2⟩
  obtain ⟨lruNodes, hlru, -, -, hnodes⟩ := walkLru_spec false unseen ∅ hsettled.lruTail
    (hshape.strung .lru).linked (Or.inl rfl) hlruFlags (hlength .lru)
  -- every node was met in one of the two lists
  have hempty : (unseen.filter fun n => Ptr.node n ≠ .lruHead ∧ n ∉ a.lru) = ∅ := by
    refine Finset.eq_empty_of_forall_notMem fun n hn => ?_
    obtain ⟨hpool', -, hlru'⟩ := Finset.mem_filter.1 hn
    rcases h.rest n (hfree n) with ⟨hl, -⟩ | hp
    · exact hlru' hl
    · exact hunseen n hpool' hp
  have hwalk : walkLru s.mem fuel .lruHead false unseen ∅ = some (false, ∅, lruNodes) := by
    rw [← hempty]
    exact hlru
  have hbucketNodes : ∀ b, ∀ n ∈ a.bucket b, .node n ∈ lruNodes := by
    intro b n hn
    rcases h.rest n (hfree n) with ⟨hl, -⟩ | hp
    · exact hnodes n hl
    · exact absurd hn ((hshape.pooled n hp).2 b)
  obtain ⟨seenAll, hbuckets⟩ := hshape.walkBuckets_spec (lt_of_le_of_lt (Nat.le_succ N) hfuel)
    hbucketNodes (List.nodup_range (n := cfg.bucketCount)) false ∅ (by simp)
  simp only [assertIsCoherent, hpool, hwalk, Option.bind_eq_bind, Option.bind_some, ne_eq,
    not_true_eq_false, decide_false, Bool.or_false, hbuckets]

variable [DecidableEq K] [DecidableEq T] [Inhabited K] [Inhabited V]
  {ok : State N K V T → Label N K V T → Prop}

/-- **The check accepts** every state of a run in which no call is running. -/
theorem Run.coherent_idle (h : Run cfg ok s trace) (hidle : ∀ t, s.pc t = .idle) :
    ∀ fuel, N + 1 < fuel → assertIsCoherent cfg fuel s.mem = some false := by
  intro fuel hfuel
  obtain ⟨a, hinv, hsettled⟩ := h.settled
  refine hinv.accepted hsettled (fun n => ?_) hfuel
  by_contra htaken
  obtain ⟨t, ht⟩ := Option.ne_none_iff_exists'.1 htaken
  have hholds := (hinv.nodes.lock_eq_some t _).1 ht
  rw [hidle t] at hholds
  cases hholds

/-- Thread 1 evicts the first pair for the third one while thread 2 finds the second. -/
theorem Run.coherent_idle_twoNodes : ∃ (s : State 2 ℕ ℕ (Fin 3))
    (trace : List (Label 2 ℕ ℕ (Fin 3))), Run twoNodes (fun _ _ => True) s trace ∧
      trace.filterMap Label.op = [.insert 0 1 10, .insert 1 2 20, .evict 0, .insert 0 3 30] ∧
      s.mem.lruNext .lruHead = .node 0 ∧
      ∀ fuel, 2 + 1 < fuel → assertIsCoherent twoNodes fuel s.mem = some false := by
  obtain ⟨s, trace, hrun, hgood⟩ := Run.of_play twoNodes (fun _ _ => True) (fun _ _ => true)
    (fun _ _ _ => trivial)
    (calls 1 (.insert 1 10) 28 ++ calls 1 (.insert 2 20) 28 ++ calls 1 (.insert 3 30) 27 ++
      calls 2 (.find 2) 4 ++ goes 1 20 ++ goes 2 19)
    (fun (s : State 2 ℕ ℕ (Fin 3)) trace => (∀ t, (s.pc t).isIdle = true) ∧
      trace.filterMap Label.op = [.insert 0 1 10, .insert 1 2 20, .evict 0, .insert 0 3 30] ∧
      s.mem.lruNext .lruHead = .node 0) (by decide +kernel)
  obtain ⟨hidle, hops, hfirst⟩ := of_decide_eq_true hgood
  exact ⟨s, trace, hrun, hops, hfirst,
    hrun.coherent_idle fun t => PC.eq_idle (hidle t)⟩

end DeferredLru.ConcurrentLru
