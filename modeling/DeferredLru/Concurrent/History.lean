import DeferredLru.Lib.Table
import DeferredLru.Concurrent.Integrity

set_option autoImplicit false

/-! # The table of `ConcurrentLRU`

Seen from outside this cache is a table too (`Lib/Table.lean`): `htInsert` puts an entry in front when
it stores the head of the bucket, `htRemove` evicts one when it unlinks the node. The insertions and
evictions of a run, in the order of these accesses, are a legal history, and the buckets hold the table
that it leads to (`Run.tabled`).

Between the store of its value and its `htInsert` a node belongs to the thread that fills it, so that
what gets into the table is what the call was given (`Tabled.filled`). A thread that walks along a
bucket has its lock, so that what it has passed has other keys (`PC.Searching`). -/

namespace DeferredLru.ConcurrentLru

open Intrusive Table

variable {N : ℕ} {K V T : Type} {cfg : Config N K} {s s' : State N K V T} {m : Mem N K V}
  {a : Lists N} {trace : List (Label N K V T)} {act : Act N K V} {t : T} {n : Fin N} {k : K} {v : V}
  {pc p : PC N K V}

/-! ## What the accesses leave alone -/

/-- An access to the links of the two lists, or none at all. -/
def Act.Linking : Act N K V → Prop
  | .setKey _ _ => False
  | .setValue _ _ => False
  | .lruSetFlag _ _ => False
  | .htSetFlag _ _ => False
  | .htSetNext _ _ => False
  | .setHt _ _ => False
  | .setCount _ => False
  | _ => True

/-- An access to the table, or none at all. -/
def Act.Hashing : Act N K V → Prop
  | .join _ _ => False
  | .insertBetween _ _ _ => False
  | .clearLinks _ => False
  | .setKey _ _ => False
  | .setValue _ _ => False
  | .lruSetFlag _ _ => False
  | .setCount _ => False
  | _ => True

theorem Act.Linking.contents (h : act.Linking) :
    (act.onMem m).key = m.key ∧ (act.onMem m).value = m.value := by
  cases act <;> first | exact ⟨rfl, rfl⟩ | exact h.elim

theorem Act.Hashing.contents (h : act.Hashing) :
    (act.onMem m).key = m.key ∧ (act.onMem m).value = m.value := by
  cases act <;> first | exact ⟨rfl, rfl⟩ | exact h.elim

theorem evict_linking {prev last : Ptr N} {q : EvictPC N} {r : EvictPC N ⊕ Option (Fin N)}
    (hnext : nextEvict m prev last q = some (act, r)) : act.Linking := by
  cases q with
  | load =>
      simp only [nextEvict] at hnext
      split at hnext
      · cases hnext
        trivial
      · split at hnext <;> cases hnext
        trivial
  | _ =>
      cases hnext
      trivial

theorem insertBefore_linking {node : Ptr N} {q : InsertBeforePC N} {r : Option (InsertBeforePC N)}
    (hnext : nextInsertBefore m node n q = (act, r)) : act.Linking := by
  cases q <;> cases hnext <;> trivial

theorem remove_linking {q : RemovePC N} {r : RemovePC N ⊕ Bool}
    (hnext : nextRemove s n q = (act, r)) : act.Linking := by
  cases q with
  | tryLock p =>
      simp only [nextRemove] at hnext
      split at hnext <;> cases hnext <;> trivial
  | _ =>
      cases hnext
      trivial

theorem htInsert_hashing {q : HtInsertPC} {r : Option HtInsertPC}
    (hnext : nextHtInsert cfg m n q = (act, r)) : act.Hashing := by
  cases q <;> cases hnext <;> trivial

theorem htFind_hashing [DecidableEq K] {q : HtFindPC N} {r : HtFindPC N ⊕ Option (Fin N)}
    (hnext : nextHtFind cfg m k q = (act, r)) : act.Hashing := by
  cases q <;> cases hnext <;> trivial

theorem htRemove_hashing {q : HtRemovePC N} {r : HtRemovePC N ⊕ Bool}
    (hnext : nextHtRemove cfg s n q = (act, r)) : act.Hashing := by
  cases q with
  | tryLock b p =>
      simp only [nextHtRemove] at hnext
      split at hnext <;> cases hnext <;> trivial
  | setNext b p => cases p <;> cases hnext <;> trivial
  | _ =>
      cases hnext
      trivial

/-- The node whose key or value the next access writes. -/
def PC.writes : PC N K V → Option (Fin N)
  | .insert _ _ (.key n) => some n
  | .insert _ _ (.value n) => some n
  | _ => none

theorem PC.writes_holds (h : pc.writes = some n) : .node n ∈ pc.holds := by
  unfold PC.writes at h
  split at h <;> cases h <;> exact List.mem_singleton_self _

/-- A node that is written to is in no bucket. -/
theorem Standing.bare (hs : Standing cfg m a trace pc) (h : pc.writes = some n) : a.Bare n := by
  unfold PC.writes at h
  split at h <;> cases h
  · exact hs.2
  · exact hs.2.1

theorem Transition.contents [DecidableEq K] {move : Move K V} (h : Transition cfg s pc move act p)
    (hn : pc.writes ≠ some n) :
    (act.onMem s.mem).key n = s.mem.key n ∧ (act.onMem s.mem).value n = s.mem.value n := by
  have hof : (act.onMem s.mem).key = s.mem.key ∧ (act.onMem s.mem).value = s.mem.value →
      (act.onMem s.mem).key n = s.mem.key n ∧ (act.onMem s.mem).value n = s.mem.value n :=
    fun h => ⟨congrFun h.1 n, congrFun h.2 n⟩
  cases h with
  | call c => exact ⟨rfl, rfl⟩
  | find hfind =>
      cases hfind with
      | search hr => exact hof (htFind_hashing hr).contents
      | found hr => exact hof (htFind_hashing hr).contents
      | missing hr => exact hof (htFind_hashing hr).contents
      | remove hr => exact hof (remove_linking hr).contents
      | removed hr => exact hof (remove_linking hr).contents
      | gone hr => exact hof (remove_linking hr).contents
      | insertLast hr => exact hof (insertBefore_linking hr).contents
      | inserted hr => exact hof (insertBefore_linking hr).contents
      | _ => exact ⟨rfl, rfl⟩
  | insert hinsert =>
      cases hinsert with
      | getNodeFromPool hr => exact hof (evict_linking hr).contents
      | pooled hr => exact hof (evict_linking hr).contents
      | poolEmpty hr => exact hof (evict_linking hr).contents
      | lruEvictHead hr => exact hof (evict_linking hr).contents
      | evicted hr => exact hof (evict_linking hr).contents
      | lruEmpty hr => exact hof (evict_linking hr).contents
      | htRemove hr => exact hof (htRemove_hashing hr).contents
      | unlinked hr => exact hof (htRemove_hashing hr).contents
      | linked hr => exact hof (htRemove_hashing hr).contents
      | insertLast hr => exact hof (insertBefore_linking hr).contents
      | inserted hr => exact hof (insertBefore_linking hr).contents
      | htInsert hr => exact hof (htInsert_hashing hr).contents
      | hashed hr => exact hof (htInsert_hashing hr).contents
      | key x => exact ⟨Function.update_of_ne (fun hne => hn (congrArg some hne.symm)) _ _, rfl⟩
      | value x => exact ⟨rfl, Function.update_of_ne (fun hne => hn (congrArg some hne.symm)) _ _⟩
      | _ => exact ⟨rfl, rfl⟩

/-! ## Linearization points -/

/-- The operation that takes effect with the next access of the thread. -/
def PC.op : PC N K V → Option (Table.Op (Fin N) K V)
  | .insert k v (.htInsert n (.setHead _)) => some (.insert n k v)
  | .insert _ _ (.htRemove n (.setNext _ _)) => some (.evict n)
  | _ => none

/-- The operation that takes effect with the step. -/
def Label.op (l : Label N K V T) : Option (Table.Op (Fin N) K V) := l.pc.op

/-- Only these two change the buckets. -/
theorem PC.op_cases (a : Lists N) (pc : PC N K V) :
    (∃ k v n b, pc = .insert k v (.htInsert n (.setHead b))) ∨
    (∃ k v n b prev, pc = .insert k v (.htRemove n (.setNext b prev))) ∨
    (pc.op = none ∧ (pc.onLists a).bucket = a.bucket) := by
  cases pc with
  | idle => exact Or.inr (Or.inr ⟨rfl, rfl⟩)
  | find producer k p =>
      cases p with
      | remove n r q => cases q <;> exact Or.inr (Or.inr ⟨rfl, rfl⟩)
      | insertLast n r q => cases q <;> exact Or.inr (Or.inr ⟨rfl, rfl⟩)
      | _ => exact Or.inr (Or.inr ⟨rfl, rfl⟩)
  | insert k v p =>
      cases p with
      | getNodeFromPool q => cases q <;> exact Or.inr (Or.inr ⟨rfl, rfl⟩)
      | lruEvictHead q => cases q <;> exact Or.inr (Or.inr ⟨rfl, rfl⟩)
      | insertLast n q => cases q <;> exact Or.inr (Or.inr ⟨rfl, rfl⟩)
      | htInsert n q =>
          cases q with
          | setHead b => exact Or.inl ⟨k, v, n, b, rfl⟩
          | _ => exact Or.inr (Or.inr ⟨rfl, rfl⟩)
      | htRemove n q =>
          cases q with
          | setNext b prev => exact Or.inr (Or.inl ⟨k, v, n, b, prev, rfl⟩)
          | _ => exact Or.inr (Or.inr ⟨rfl, rfl⟩)
      | _ => exact Or.inr (Or.inr ⟨rfl, rfl⟩)

/-- A bucket changes under its lock. -/
theorem PC.onLists_bucket {b : ℕ} (hb : b ∉ pc.bucket cfg) (a : Lists N) :
    (pc.onLists a).bucket b = a.bucket b := by
  rcases PC.op_cases a pc with ⟨k, v, n, c, rfl⟩ | ⟨k, v, n, c, prev, rfl⟩ | ⟨-, hsame⟩
  · have hne : b ≠ c := fun heq => hb (heq ▸ List.mem_singleton_self _)
    exact Function.update_of_ne hne _ _
  · have hne : b ≠ c := fun heq => hb (heq ▸ List.mem_singleton_self _)
    exact Function.update_of_ne hne _ _
  · rw [hsame]

/-! ## What a search knows -/

section Search

variable [DecidableEq K] {key key' : Fin N → K} {bucket bucket' : List (Fin N)}

/-- The nodes passed do not have the key, and what is returned is the first node that has it. -/
def HtFindPC.Searching (key : Fin N → K) (bucket : List (Fin N)) (k : K) : HtFindPC N → Prop
  | .compare n => ∃ l, Table.Passed key k bucket (n :: l)
  | .next n => (∃ l, Table.Passed key k bucket (n :: l)) ∧ key n ≠ k
  | .unlock r => (bucket.find? fun n => key n = k) = r
  | _ => True

/-- The same for a thread, in the bucket of the key that it looks up. -/
def PC.Searching (cfg : Config N K) (key : Fin N → K) (bucket : ℕ → List (Fin N)) :
    PC N K V → Prop
  | .find _ k (.search q) => q.Searching key (bucket (cfg.whichBucket k)) k
  | _ => True

theorem afterFind_searching (producer : Option V) (k : K) (r : Option V)
    (bucket : ℕ → List (Fin N)) : (afterFind producer k r).Searching cfg key bucket := by
  unfold afterFind
  split <;> trivial

/-- The loop goes on with the rest of the chain. -/
theorem htFindAt_searching {htNext : Fin N → Option (Fin N)} {current : Option (Fin N)}
    {rest : List (Fin N)} (hchain : Chain htNext some current rest none)
    (hpassed : Table.Passed key k bucket rest) : (htFindAt current).Searching key bucket k := by
  cases rest with
  | nil =>
      obtain rfl : current = none := hchain
      exact hpassed.find?
  | cons x rest =>
      obtain ⟨rfl, -⟩ := hchain
      exact ⟨rest, hpassed⟩

theorem HtFindPC.Searching.congr {q : HtFindPC N} (h : q.Searching key bucket k)
    (hkey : ∀ x ∈ bucket, key' x = key x) : q.Searching key' bucket k := by
  cases q with
  | compare n =>
      obtain ⟨l, hl⟩ := h
      exact ⟨l, hl.congr hkey⟩
  | next n =>
      obtain ⟨⟨l, hl⟩, hn⟩ := h
      exact ⟨⟨l, hl.congr hkey⟩, by rw [hkey n hl.mem]; exact hn⟩
  | unlock r => exact (List.find?_congr fun x hx => by rw [hkey x hx]).trans h
  | _ => trivial

/-- **A step of the search.** -/
theorem Shape.search_step (hshape : Shape cfg m a) {q q' : HtFindPC N}
    (hq : q.Searching m.key (a.bucket (cfg.whichBucket k)) k)
    (hnext : nextHtFind cfg m k q = (act, .inl q')) :
    q'.Searching m.key (a.bucket (cfg.whichBucket k)) k := by
  have hchain := hshape.chains (cfg.whichBucket k)
  cases q with
  | lock =>
      cases hnext
      trivial
  | load =>
      cases hnext
      exact htFindAt_searching hchain .start
  | compare n =>
      obtain ⟨l, hl⟩ := hq
      cases hnext
      by_cases hk : m.key n = k
      · rw [if_pos hk]
        show (a.bucket _).find? _ = some n
        rw [hl.find?, List.find?_cons_of_pos (by simpa using hk)]
      · rw [if_neg hk]
        exact ⟨⟨l, hl⟩, hk⟩
  | next n =>
      obtain ⟨⟨l, hl⟩, hn⟩ := hq
      cases hnext
      obtain ⟨seen, heq, -⟩ := id hl
      rw [heq] at hchain
      exact htFindAt_searching (Chain.split hchain).2 (hl.step hn)
  | unlock r => cases hnext

theorem Inv.searching_self (h : Inv cfg s a trace) {move : Move K V}
    (hp : (s.pc t).Searching cfg s.mem.key a.bucket)
    (hmoved : Transition cfg s (s.pc t) move act p) : p.Searching cfg s.mem.key a.bucket := by
  generalize s.pc t = pc at hp hmoved
  cases hmoved with
  | call c => cases c <;> trivial
  | find hfind =>
      cases hfind with
      | search hr => exact h.shape.search_step hp hr
      | missing hr => exact afterFind_searching ..
      | unlock n r => exact afterFind_searching ..
      | _ => trivial
  | insert hinsert => cases hinsert <;> trivial

end Search

/-! ## The table of a state -/

/-- The node that an `insert` has given its key and value. -/
def PC.filling : PC N K V → Option (Fin N × K × V)
  | .insert k v (.loadUp n) => some (n, k, v)
  | .insert k v (.storeUp n _) => some (n, k, v)
  | .insert k v (.setFlag n) => some (n, k, v)
  | .insert k v (.insertLast n _) => some (n, k, v)
  | .insert k v (.htInsert n _) => some (n, k, v)
  | _ => none

theorem PC.filling_holds (h : pc.filling = some (n, k, v)) : .node n ∈ pc.holds := by
  unfold PC.filling at h
  split at h <;> cases h
  case h_4 q => cases q <;> simp [PC.holds, InsertPC.holds, InsertBeforePC.holds]
  all_goals exact List.mem_singleton_self _

/-- A thread that fills a node goes on with it. -/
theorem Transition.filling [DecidableEq K] {move : Move K V} (h : Transition cfg s pc move act p)
    (hp : p.filling = some (n, k, v)) :
    pc.filling = some (n, k, v) ∨ pc = .insert k v (.value n) ∧ act = .setValue n v := by
  cases h with
  | call c => cases c <;> cases hp
  | @find producer k' _ _ _ hfind =>
      have hafter : ∀ r, (afterFind (N := N) producer k' r).filling = none := by
        intro r
        unfold afterFind
        split <;> rfl
      cases hfind with
      | missing hr =>
          rw [hafter none] at hp
          cases hp
      | unlock x r =>
          rw [hafter r] at hp
          cases hp
      | _ => cases hp
  | insert hinsert =>
      cases hinsert with
      | value x =>
          cases hp
          exact Or.inr ⟨rfl, rfl⟩
      | loadUp x => exact Or.inl hp
      | storeUp x c => exact Or.inl hp
      | setFlag x => exact Or.inl hp
      | insertLast hr => exact Or.inl hp
      | inserted hr => exact Or.inl hp
      | htInsert hr => exact Or.inl hp
      | _ => cases hp

theorem PC.filling_writes (h : pc.filling = some (n, k, v)) : pc.writes = none := by
  unfold PC.filling at h
  split at h <;> first | rfl | cases h

variable [DecidableEq K] {l l' : List (Table.Entry (Fin N) K V)}

/-- The state holds the table. -/
structure Tabled (cfg : Config N K) (s : State N K V T) (a : Lists N)
    (l : List (Table.Entry (Fin N) K V)) : Prop where
  parts : Parts s.mem.key s.mem.value cfg.whichBucket a.bucket l
  filled : ∀ t n k v, (s.pc t).filling = some (n, k, v) → s.mem.key n = k ∧ s.mem.value n = v
  searching : ∀ t, (s.pc t).Searching cfg s.mem.key a.bucket

theorem Tabled.initial [Inhabited K] [Inhabited V] :
    Tabled cfg (initial N K V T) ⟨[], List.finRange N, fun _ => []⟩ [] where
  parts := Parts.empty
  filled t n k v h := by cases h
  searching _ := trivial

/-- Nodes in the buckets keep their keys and values. -/
theorem Inv.bucket_contents (h : Inv cfg s a trace) {move : Move K V}
    (hmoved : Transition cfg s (s.pc t) move act p) {b : ℕ} (hn : n ∈ a.bucket b) :
    (act.onMem s.mem).key n = s.mem.key n ∧ (act.onMem s.mem).value n = s.mem.value n :=
  hmoved.contents fun hw => (h.standing t).bare hw b hn

/-- So does a node whose lock another thread has. -/
theorem Inv.held_contents (h : Inv cfg s a trace) {move : Move K V}
    (hmoved : Transition cfg s (s.pc t) move act p) {u : T} (hne : u ≠ t)
    (hn : .node n ∈ (s.pc u).holds) :
    (act.onMem s.mem).key n = s.mem.key n ∧ (act.onMem s.mem).value n = s.mem.value n :=
  hmoved.contents fun hw => hne (h.nodes.unique hn (PC.writes_holds hw))

/-- **What a step does to the table.** -/
theorem Tabled.parts_step (ht : Tabled cfg s a l) (h : Inv cfg s a trace) {move : Move K V}
    (hmoved : Transition cfg s (s.pc t) move act p) :
    ∃ l', Follows l (s.pc t).op l' ∧
      Parts (act.onMem s.mem).key (act.onMem s.mem).value cfg.whichBucket
        ((s.pc t).onLists a).bucket l' := by
  have hs := h.standing t
  have hsame : Parts (act.onMem s.mem).key (act.onMem s.mem).value cfg.whichBucket a.bucket l :=
    ht.parts.congr fun b x hx => h.bucket_contents hmoved hx
  rcases PC.op_cases a (s.pc t) with ⟨k, v, n, b, hpc⟩ | ⟨k, v, n, b, prev, hpc⟩ | ⟨hop, hbucket⟩
  · have hcontents := hmoved.contents (n := n) (by rw [hpc]; nofun)
    rw [hpc] at hs ⊢
    obtain ⟨-, ⟨hbare, hb, -⟩, -⟩ := hs
    obtain ⟨hkey, hvalue⟩ := ht.filled t n k v (by rw [hpc]; rfl)
    refine ⟨⟨n, k, v⟩ :: l, .insert k v (ht.parts.fresh hbare), ?_⟩
    have hinsert := hsame.insert (h := n)
    rw [hcontents.1, hcontents.2, hkey, hvalue] at hinsert
    rw [hb, hkey]
    exact hinsert
  · have hcontents := hmoved.contents (n := n) (by rw [hpc]; nofun)
    rw [hpc] at hs ⊢
    obtain ⟨hb, hmem⟩ : b = cfg.whichBucket (s.mem.key n) ∧ n ∈ a.bucket b := by
      cases prev with
      | none => exact ⟨hs.2.1, hs.2.2.mem⟩
      | some x => exact ⟨hs.2.1, hs.2.2.1.mem⟩
    obtain ⟨e, he, rfl, -⟩ := (ht.parts.mem_iff b).1 hmem
    refine ⟨_, .evict he, ?_⟩
    have hevict := hsame.evict (h := e.handle) h.shape.bucket_nodup
    rw [hcontents.1, ← hb] at hevict
    exact hevict
  · rw [hop, hbucket]
    exact ⟨l, rfl, hsame⟩

variable [DecidableEq T]

/-- **One step** of a thread. -/
theorem Tabled.step (ht : Tabled cfg s a l) (h : Inv cfg s a trace) {move : Move K V}
    (hmoved : Transition cfg s (s.pc t) move act p) :
    ∃ l', Follows l (s.pc t).op l' ∧ Tabled cfg (s.apply t act p) ((s.pc t).onLists a) l' := by
  obtain ⟨l', hfollows, hparts⟩ := ht.parts_step h hmoved
  refine ⟨l', hfollows, hparts, fun u n k v hu => ?_, fun u => ?_⟩
  · have hpc : (s.apply t act p).pc u = if u = t then p else s.pc u := Function.update_apply ..
    rw [hpc] at hu
    by_cases hut : u = t
    · rw [if_pos hut] at hu
      rcases hmoved.filling hu with hold | ⟨hvalue, rfl⟩
      · obtain ⟨hkey, hval⟩ := ht.filled t n k v hold
        obtain ⟨hkey', hval'⟩ := hmoved.contents (n := n) (by rw [PC.filling_writes hold]; nofun)
        exact ⟨hkey'.trans hkey, hval'.trans hval⟩
      · have hs := h.standing t
        rw [hvalue] at hs
        exact ⟨hs.2.2, Function.update_self ..⟩
    · rw [if_neg hut] at hu
      obtain ⟨hkey, hval⟩ := ht.filled u n k v hu
      obtain ⟨hkey', hval'⟩ := h.held_contents hmoved hut (PC.filling_holds hu)
      exact ⟨hkey'.trans hkey, hval'.trans hval⟩
  · show ((s.apply t act p).pc u).Searching cfg (act.onMem s.mem).key _
    have hpc : (s.apply t act p).pc u = if u = t then p else s.pc u := Function.update_apply ..
    rw [hpc]
    -- what a search knows is about nodes of a bucket, which keep their keys
    have hkeep : ∀ q : PC N K V, q.Searching cfg s.mem.key a.bucket →
        (∀ producer k x, q = .find producer k (.search x) → x ≠ .lock →
          ((s.pc t).onLists a).bucket (cfg.whichBucket k) = a.bucket (cfg.whichBucket k)) →
        q.Searching cfg (act.onMem s.mem).key ((s.pc t).onLists a).bucket := by
      intro q hq hbucket
      cases q with
      | find producer k x =>
          cases x with
          | search x =>
              by_cases hx : x = .lock
              · subst hx
                trivial
              · show x.Searching _ (((s.pc t).onLists a).bucket _) k
                rw [hbucket producer k x rfl hx]
                exact HtFindPC.Searching.congr hq fun y hy => (h.bucket_contents hmoved hy).1
          | _ => trivial
      | _ => trivial
    by_cases hut : u = t
    · rw [if_pos hut]
      refine hkeep p (h.searching_self (ht.searching t) hmoved) fun producer k x hp _ => ?_
      -- a step into a search is no step on a bucket
      rcases PC.op_cases a (s.pc t) with ⟨k', v, n, b, hq⟩ | ⟨k', v, n, b, prev, hq⟩ | ⟨-, hsame⟩
      · rw [hq, hp] at hmoved
        cases hmoved with
        | insert hinsert => cases hinsert
      · rw [hq, hp] at hmoved
        cases hmoved with
        | insert hinsert => cases hinsert
      · rw [hsame]
    · rw [if_neg hut]
      refine hkeep (s.pc u) (ht.searching u) fun producer k x hu hx => ?_
      refine PC.onLists_bucket (fun hb : _ ∈ (s.pc t).bucket cfg => hut ?_) a
      refine h.buckets.unique ?_ hb
      rw [hu]
      cases x with
      | lock => exact absurd rfl hx
      | _ => exact List.mem_singleton_self _

/-! ## Runs -/

variable [Inhabited K] [Inhabited V] {ok : State N K V T → Label N K V T → Prop}

/-- **In every run** the insertions and evictions are a legal history, and the buckets hold the table
    it leads to. -/
theorem Run.tabled (h : Run cfg ok s trace) :
    ∃ a l, Inv cfg s a trace ∧ Tabled cfg s a l ∧ Replays (trace.filterMap Label.op) l := by
  induction h with
  | start => exact ⟨_, _, Inv.initial cfg, .initial, .empty⟩
  | step _ hstep _ ih =>
      obtain ⟨a, l, hinv, htabled, hreplays⟩ := ih
      obtain ⟨p, hmoved, -, rfl⟩ := step_transition hstep
      obtain ⟨l', hfollows, htabled'⟩ := htabled.step hinv hmoved
      refine ⟨_, l', hinv.step hstep, htabled', ?_⟩
      rw [filterMap_concat]
      exact hreplays.follow hfollows

end DeferredLru.ConcurrentLru
