import DeferredLru.Deferred.Pull
import DeferredLru.Threads.Views

set_option autoImplicit false

/-! # The invariant of the threaded cache

`Inv cfg s g` relates a state to a ghost `g`: who has each node in hands (`status`, `role`) and which
nodes are in which list. Its parts speak about disjoint parts of the memory:

* `BucketsInv`: the bucket chains are intact and hold exactly the nodes whose status says so;
* `RecentInv`: so is the Recent list, and a node's `recent_next` is null exactly if its role says so;
* `LruInv`: so is the LRU list, forward; backward each link is exact, except where an inserter has
  still to repair it or a consolidator is between the two stores of an unlinking;
* `PC.inv`: what a thread has loaded and still relies on, at each program counter.

Another thread's step may change what `PC.inv` speaks about only as `Rely` allows
(`PC.inv_stable`), so to show that a step keeps the invariant is to show that it keeps the first
three, that it establishes `PC.inv` for its own thread and that it meets `Rely` for the others
(`Inv.apply`). -/

namespace DeferredLru.Threads

open Intrusive

variable {N : ℕ} {K V T : Type}

/-- What the lists hold, and who works on which node. -/
structure Ghost (N : ℕ) (T : Type) where
  status : Fin N → Status T
  role : Fin N → Role T
  lru : List (Fin N)
  bucket : ℕ → List (Fin N)
  recent : List (Fin N)
  /-- The part of the popped slice that the running pull has not processed. -/
  slice : List (Fin N)
  /-- The temporary list of the running pull. -/
  temp : List (Fin N)

/-! ## The lists -/

/-- The buckets chain the nodes that are in their bucket, by key. -/
structure BucketsInv (cfg : Config N K) (bucketNext : Fin N → Option (Fin N))
    (buckets : ℕ → Option (Fin N)) (key : Fin N → K) (status : Fin N → Status T)
    (bucket : ℕ → List (Fin N)) : Prop where
  chain : ∀ b, Chain bucketNext some (buckets b) (bucket b) none
  mem : ∀ b n, n ∈ bucket b ↔ (status n).inBucket ∧ cfg.keyToBucketNr (key n) = b

/-- The Recent list chains its nodes, and the marked nodes have a `recent_next`. -/
structure RecentInv (recentNext : Fin N → Ptr N) (recentHead : Ptr N) (role : Fin N → Role T)
    (recent slice : List (Fin N)) : Prop where
  chain : Chain recentNext .node recentHead recent .dummy
  recent : ∀ n, n ∈ recent ↔ role n = .rest .recent
  slice : ∀ n, n ∈ slice ↔ role n = .rest .slice
  marked : ∀ n, recentNext n ≠ .null ↔ (role n).marked

/-- The LRU list is linked forward, and backward but for repairs and an unlinking under way. -/
structure LruInv (lruNext lruPrev : Ptr N → Ptr N) (status : Fin N → Status T)
    (lru temp : List (Fin N)) (pc : T → PC N K V) : Prop where
  linked : Linked lruNext .node .lruHead lru .lruTail
  mem : ∀ n, n ∈ lru ↔ (status n).inLru
  temp : ∀ n, n ∈ temp ↔ status n = .rest .temp
  /-- The back link of a listed cell is exact, or awaits a repair, or is in the gap of an
      unlinking. -/
  back : ∀ c, IsCell .node .lruHead lru c → lruPrev (lruNext c) = c ∨
    (∃ t, (pc t).repairing = some (lruNext c, c)) ∨
    (∃ t n, (pc t).gap = some (c, n, lruNext c))
  repairing : ∀ t c l, (pc t).repairing = some (c, l) →
    lruPrev c = .lruHead ∧ lruNext l = c ∧ ∃ x, l = .node x ∧
      (status x = .held t .linked ∨ (status x = .rest .resident ∧ (pc t).inside = true))
  gap : ∀ t p n q, (pc t).gap = some (p, n, q) → lruNext p = q ∧ lruPrev q = .node n ∧
    ∃ x ∈ lru, p = .node x

/-- No pull is running. -/
def Ghost.quiet (g : Ghost N T) : Prop := g.slice = [] ∧ g.temp = []

/-! ## The program counters -/

variable (cfg : Config N K) (m : Mem N K V) (g : Ghost N T)

/-- The slice that is not yet processed starts at `p`; its nodes are in the LRU list. -/
def SliceFrom (p : Ptr N) : Prop :=
  Chain m.recentNext .node p g.slice .dummy ∧ ∀ x ∈ g.slice, g.status x = .rest .resident

/-- The slice starts at the node `n`, which is being moved. -/
def SliceAt (n : Fin N) : Prop :=
  Chain m.recentNext .node (.node n) g.slice .dummy ∧
    ∀ x ∈ g.slice, x ≠ n → g.status x = .rest .resident

/-- The temporary list, not empty, as the sublist `first … last`. -/
def Sublist (first last : Ptr N) : Prop :=
  ∃ t x, g.temp = t ++ [x] ∧ x ∉ t ∧ last = .node x ∧
    Chain (fun y => m.lruNext (.node y)) .node first t (.node x) ∧
    ∀ y ∈ t, m.lruPrev (m.lruNext (.node y)) = .node y

/-- The pointer leads to a listed node. -/
def InList (p : Ptr N) : Prop := ∃ x ∈ g.lru, p = .node x

/-- What `markNodeRecent` relies on: the link of the node is the head that it has loaded. -/
def MarkPC.inv (n : Fin N) : MarkPC N → Prop
  | .store p _ => p ≠ .null
  | .cas p => m.recentNext n = p
  | _ => True

/-- What a `find` relies on: it stands in the bucket of its key. -/
def FindPC.inv (k : K) : FindPC N V → Prop
  | .key n => n ∈ g.bucket (cfg.keyToBucketNr k)
  | .next n => n ∈ g.bucket (cfg.keyToBucketNr k)
  | .value n => n ∈ g.bucket (cfg.keyToBucketNr k) ∧ m.key n = k
  | .mark n _ p => n ∈ g.bucket (cfg.keyToBucketNr k) ∧ p.inv m n
  | _ => True

/-- What `addNodeToBucket` relies on: the bucket is that of the key, and its head has not changed. -/
def LinkPC.inv (n : Fin N) (k : K) : LinkPC N → Prop
  | .hash => True
  | .lock b => b = cfg.keyToBucketNr k
  | .load b => b = cfg.keyToBucketNr k
  | .storeNext b head => b = cfg.keyToBucketNr k ∧ head = m.buckets b
  | .storeHead b => b = cfg.keyToBucketNr k ∧ m.bucketNext n = m.buckets b
  | .unlock b => b = cfg.keyToBucketNr k

/-- For a single node that is put in front of the list. -/
def AddPC.inv (n : Fin N) : AddPC N → Prop
  | .load => m.lruPrev (.node n) = .lruHead
  | .storeNext _ => m.lruPrev (.node n) = .lruHead
  | .cas c => m.lruPrev (.node n) = .lruHead ∧ m.lruNext (.node n) = c
  | _ => True

/-- What an `insert` relies on: the new node keeps the key and the value stored in it. -/
def InsertPC.inv (k : K) (v : V) : InsertPC N → Prop
  | .value n => m.key n = k
  | .guard n => m.key n = k ∧ m.value n = v
  | .bucket n p => m.key n = k ∧ m.value n = v ∧ p.inv cfg m n k
  | .add n p => p.inv m n
  | _ => True

/-- What `removeNodeFromBucket` relies on: the bucket is that of the key, and its links are kept. -/
def RemovePC.inv (n : Fin N) : RemovePC N → Prop
  | .hash => True
  | .lock b => b = cfg.keyToBucketNr (m.key n)
  | .recheck b => b = cfg.keyToBucketNr (m.key n)
  | .load b => b = cfg.keyToBucketNr (m.key n)
  | .headNext b => b = cfg.keyToBucketNr (m.key n) ∧ n ∈ g.bucket b ∧ m.buckets b = some n
  | .storeHead b q => b = cfg.keyToBucketNr (m.key n) ∧ n ∈ g.bucket b ∧ m.buckets b = some n ∧
      q = m.bucketNext n
  | .walk b p => b = cfg.keyToBucketNr (m.key n) ∧ p ∈ g.bucket b
  | .nodeNext b p => b = cfg.keyToBucketNr (m.key n) ∧ n ∈ g.bucket b ∧ p ∈ g.bucket b ∧
      m.bucketNext p = some n
  | .storeParent b p q => b = cfg.keyToBucketNr (m.key n) ∧ n ∈ g.bucket b ∧ p ∈ g.bucket b ∧
      m.bucketNext p = some n ∧ q = m.bucketNext n
  | .clear _ => True
  | .unlock _ _ => True

/-- The `lru_prev` of the node was seen not to be the head sentinel. -/
def UnlinkPC.inv (n : Fin N) : UnlinkPC N → Prop
  | .loadPrev => n ∈ g.lru ∧ m.lruPrev (.node n) ≠ .lruHead
  | .loadNext prev => n ∈ g.lru ∧ m.lruPrev (.node n) ≠ .lruHead ∧ prev = m.lruPrev (.node n)
  | .storeNext prev next => n ∈ g.lru ∧ m.lruPrev (.node n) ≠ .lruHead ∧
      prev = m.lruPrev (.node n) ∧ next = m.lruNext (.node n)
  | .storePrev _ _ => True

/-- What `disposeNode` relies on: the link of the node is the head that it has loaded. -/
def DisposePC.inv (n : Fin N) : DisposePC N → Prop
  | .cas p => m.lruNext (.node n) = p
  | _ => True

/-- What `purgeOld` relies on: it stands in the LRU list, and so does the node it goes on with. -/
def PurgePC.inv : PurgePC N → Prop
  | .tail => True
  | .prev node _ => InList g node
  | .test n next _ => n ∈ g.lru ∧ m.lruPrev (.node n) = next ∧ InList g next
  | .bucket n next _ p => n ∈ g.lru ∧ m.lruPrev (.node n) = next ∧ InList g next ∧ p.inv cfg m g n
  | .unlink n next _ p =>
      (p.unlinked = false → m.lruPrev (.node n) = next) ∧ InList g next ∧ p.inv m g n
  | .onDelete _ next _ => InList g next
  | .count _ next _ => InList g next
  | .dispose n next _ p => InList g next ∧ p.inv m n

/-- What `pullRecent` relies on: the rest of the slice and the temporary list are its own. -/
def PullPC.inv : PullPC N → Prop
  | .exchange => g.quiet
  | .reset slice => SliceFrom m g slice ∧ g.temp = []
  | .initHead slice => SliceFrom m g slice ∧ g.temp = []
  | .prev current last => SliceFrom m g current ∧ TempList m g.temp last
  | .skipLoad n last => SliceFrom m g (.node n) ∧ TempList m g.temp last
  | .skipStore n next last => SliceFrom m g (.node n) ∧ m.recentNext n = next ∧
      TempList m g.temp last
  | .unlink n last p => SliceAt m g n ∧ TempList m g.temp last ∧
      (p.unlinked = false → g.status n = .rest .resident) ∧ p.inv m g n
  | .appendNext n last => SliceAt m g n ∧ TempList m g.temp last
  | .appendPrev n last => SliceAt m g n ∧ TempList m g.temp last ∧
      m.lruNext last = .node n
  | .takenLoad n => SliceAt m g n ∧ TempList m g.temp (.node n)
  | .takenStore n next => SliceAt m g n ∧ m.recentNext n = next ∧
      TempList m g.temp (.node n)
  | .first last => g.slice = [] ∧ g.temp ≠ [] ∧ TempList m g.temp last
  | .add head last p => g.slice = [] ∧ match p with
      | .storePrev => Sublist m g head last
      | .load => Sublist m g head last ∧ m.lruPrev head = .lruHead
      | .storeNext _ => Sublist m g head last ∧ m.lruPrev head = .lruHead
      | .cas c => Sublist m g head last ∧ m.lruPrev head = .lruHead ∧ m.lruNext last = c
      | .repair _ => g.temp = []

/-- What `consolidateCache` relies on: no pull is running but its own. -/
def ConsolidatePC.inv : ConsolidatePC N → Prop
  | .raisePull => True
  | .raisePurge => True
  | .tryLock => True
  | .purge p => g.quiet ∧ p.inv cfg m g
  | .pull p => p.inv m g
  | _ => g.quiet

/-- What the thread has loaded and relies on. -/
def PC.inv : PC N K V → Prop
  | .find _ k p => p.inv cfg m g k
  | .insert _ k v p => p.inv cfg m k v
  | .consolidate _ p => p.inv cfg m g
  | _ => True

variable {cfg m g}

/-! ## What the others leave alone -/

/-- What a step of another thread leaves as it is for the consolidating thread. -/
structure InsideRely (m : Mem N K V) (g : Ghost N T) (m' : Mem N K V) (g' : Ghost N T) : Prop where
  lru : ∀ n ∈ g.lru, n ∈ g'.lru
  slice : g'.slice = g.slice
  temp : g'.temp = g.temp
  resident : ∀ n, g.status n = .rest .resident → g'.status n = .rest .resident
  key : ∀ n ∈ g.lru, m'.key n = m.key n
  next : ∀ n, n ∈ g.lru ∨ n ∈ g.temp → m'.lruNext (.node n) = m.lruNext (.node n)
  localHead : m'.lruNext .localHead = m.lruNext .localHead
  /-- An inserter may still repair the link of the old front node. -/
  prev : ∀ n ∈ g.lru, m.lruPrev (.node n) ≠ .lruHead →
    m'.lruPrev (.node n) = m.lruPrev (.node n)
  tempPrev : ∀ n ∈ g.temp, m'.lruPrev (.node n) = m.lruPrev (.node n)
  recent : ∀ n ∈ g.slice, m'.recentNext n = m.recentNext n

theorem InsideRely.refl (m : Mem N K V) (g : Ghost N T) : InsideRely m g m g :=
  ⟨fun _ h => h, rfl, rfl, fun _ h => h, fun _ _ => rfl, fun _ _ => rfl, rfl, fun _ _ _ => rfl,
    fun _ _ => rfl, fun _ _ => rfl⟩

/-- What a step of another thread leaves as it is for a thread at `pc`. -/
structure Rely (cfg : Config N K) (pc : PC N K V) (m : Mem N K V) (g : Ghost N T) (m' : Mem N K V)
    (g' : Ghost N T) : Prop where
  bucket : ∀ b, pc.lockedBucket cfg = some b → m'.buckets b = m.buckets b ∧
    g'.bucket b = g.bucket b ∧
    ∀ n ∈ g.bucket b, m'.bucketNext n = m.bucketNext n ∧ m'.key n = m.key n
  holds : ∀ n x, pc.holds = some (n, x) → m'.key n = m.key n ∧ m'.value n = m.value n ∧
    (x = .building → m'.bucketNext n = m.bucketNext n) ∧
    (x = .bucketed ∨ x = .evicted → m'.lruNext (.node n) = m.lruNext (.node n)) ∧
    (x = .bucketed → m'.lruPrev (.node n) = m.lruPrev (.node n))
  marks : ∀ n x, pc.marks = some (n, x) → m'.recentNext n = m.recentNext n
  inside : pc.inside = true → InsideRely m g m' g'

theorem Rely.refl (cfg : Config N K) (pc : PC N K V) (m : Mem N K V) (g : Ghost N T) :
    Rely cfg pc m g m g :=
  ⟨fun _ _ => ⟨rfl, rfl, fun _ _ => ⟨rfl, rfl⟩⟩,
    fun _ _ _ => ⟨rfl, rfl, fun _ => rfl, fun _ => rfl, fun _ => rfl⟩, fun _ _ _ => rfl,
    fun _ => .refl m g⟩

namespace InsideRely

variable {m' : Mem N K V} {g' : Ghost N T} {p : Ptr N} {n : Fin N}

theorem quiet (h : InsideRely m g m' g') (hq : g.quiet) : g'.quiet :=
  ⟨h.slice.trans hq.1, h.temp.trans hq.2⟩

theorem inList (h : InsideRely m g m' g') (hp : InList g p) : InList g' p := by
  obtain ⟨x, hx, rfl⟩ := hp
  exact ⟨x, h.lru x hx, rfl⟩

theorem sliceFrom (h : InsideRely m g m' g') (hp : SliceFrom m g p) : SliceFrom m' g' p := by
  unfold SliceFrom at *
  rw [h.slice]
  exact ⟨hp.1.congr h.recent, fun x hx => h.resident x (hp.2 x hx)⟩

theorem sliceAt (h : InsideRely m g m' g') (hp : SliceAt m g n) : SliceAt m' g' n := by
  unfold SliceAt at *
  rw [h.slice]
  exact ⟨hp.1.congr h.recent, fun x hx hne => h.resident x (hp.2 x hx hne)⟩

/-- A listed node whose `lru_prev` leads into the list keeps it. -/
theorem prev_eq (h : InsideRely m g m' g') (hn : n ∈ g.lru) (hp : m.lruPrev (.node n) = p)
    (hl : InList g p) : m'.lruPrev (.node n) = p := by
  obtain ⟨x, -, rfl⟩ := hl
  rw [h.prev n hn (by simp [hp]), hp]

theorem unlinkPC (h : InsideRely m g m' g') {p : UnlinkPC N} (hp : p.inv m g n) :
    p.inv m' g' n := by
  cases p with
  | loadPrev =>
      obtain ⟨hn, hne⟩ := hp
      have hprev := h.prev n hn hne
      exact ⟨h.lru n hn, by rwa [hprev]⟩
  | loadNext prev =>
      obtain ⟨hn, hne, rfl⟩ := hp
      have hprev := h.prev n hn hne
      exact ⟨h.lru n hn, by rwa [hprev], hprev.symm⟩
  | storeNext prev next =>
      obtain ⟨hn, hne, rfl, rfl⟩ := hp
      have hprev := h.prev n hn hne
      exact ⟨h.lru n hn, by rwa [hprev], hprev.symm, (h.next n (Or.inl hn)).symm⟩
  | storePrev prev next => trivial

/-- The temporary list is the consolidator's own. -/
theorem tempList (h : InsideRely m g m' g') (hp : TempList m g.temp p) :
    TempList m' g'.temp p := by
  rw [h.temp]
  refine hp.congr ?_ h.tempPrev
  rintro c (rfl | ⟨x, hx, rfl⟩) -
  · exact h.localHead
  · exact h.next x (Or.inr hx)

theorem sublist (h : InsideRely m g m' g') {first last : Ptr N} (hp : Sublist m g first last) :
    Sublist m' g' first last := by
  obtain ⟨t, x, htemp, hx, rfl, hchain, hback⟩ := hp
  have hnext : ∀ y ∈ t, m'.lruNext (.node y) = m.lruNext (.node y) := fun y hy =>
    h.next y (Or.inr (by simp [htemp, hy]))
  refine ⟨t, x, by rw [h.temp, htemp], hx, rfl, hchain.congr hnext, ?_⟩
  intro y hy
  rw [hnext y hy]
  rcases Chain.next_mem hchain hy with hn | ⟨z, hz, hn⟩
  · have hn' : m.lruNext (.node y) = .node x := hn
    rw [hn', h.tempPrev x (by simp [htemp]), ← hn']
    exact hback y hy
  · have hn' : m.lruNext (.node y) = .node z := hn
    rw [hn', h.tempPrev z (by simp [htemp, hz]), ← hn']
    exact hback y hy

/-- The temporary list is not empty, so its first node's link is the consolidator's own. -/
theorem sublist_prev (h : InsideRely m g m' g') {first last : Ptr N} (hp : Sublist m g first last) :
    m'.lruPrev first = m.lruPrev first ∧ m'.lruNext last = m.lruNext last := by
  obtain ⟨t, x, htemp, hx, rfl, hchain, -⟩ := hp
  have hlast := h.next x (Or.inr (by simp [htemp]))
  refine ⟨?_, hlast⟩
  cases t with
  | nil =>
      obtain rfl := chain_nil.1 hchain
      exact h.tempPrev x (by simp [htemp])
  | cons y t =>
      obtain ⟨rfl, -⟩ := hchain
      exact h.tempPrev y (by simp [htemp])

theorem resident_of (h : InsideRely m g m' g') {b : Bool}
    (hn : b = false → g.status n = .rest .resident) : b = false → g'.status n = .rest .resident :=
  fun hb => h.resident n (hn hb)

theorem recent_eq (h : InsideRely m g m' g')
    (hp : Chain m.recentNext .node (.node n) g.slice .dummy) :
    m'.recentNext n = m.recentNext n := by
  cases hs : g.slice with
  | nil =>
      rw [hs] at hp
      cases hp
  | cons x l =>
      rw [hs] at hp
      obtain rfl : n = x := Ptr.node_injective hp.1
      exact h.recent n (by simp [hs])

theorem pullPC (h : InsideRely m g m' g') {p : PullPC N} (hp : p.inv m g) : p.inv m' g' := by
  cases p with
  | exchange => exact h.quiet hp
  | reset slice => exact ⟨h.sliceFrom hp.1, h.temp.trans hp.2⟩
  | initHead slice => exact ⟨h.sliceFrom hp.1, h.temp.trans hp.2⟩
  | prev current last => exact ⟨h.sliceFrom hp.1, h.tempList hp.2⟩
  | skipLoad n last => exact ⟨h.sliceFrom hp.1, h.tempList hp.2⟩
  | skipStore n next last =>
      exact ⟨h.sliceFrom hp.1, (h.recent_eq hp.1.1).trans hp.2.1, h.tempList hp.2.2⟩
  | unlink n last p =>
      exact ⟨h.sliceAt hp.1, h.tempList hp.2.1, h.resident_of hp.2.2.1, h.unlinkPC hp.2.2.2⟩
  | appendNext n last => exact ⟨h.sliceAt hp.1, h.tempList hp.2⟩
  | appendPrev n last =>
      refine ⟨h.sliceAt hp.1, h.tempList hp.2.1, ?_⟩
      have hlast : m'.lruNext last = m.lruNext last := by
        rcases hp.2.1.last_isCell with rfl | ⟨x, hx, rfl⟩
        · exact h.localHead
        · exact h.next x (Or.inr hx)
      exact hlast.trans hp.2.2
  | takenLoad n => exact ⟨h.sliceAt hp.1, h.tempList hp.2⟩
  | takenStore n next =>
      exact ⟨h.sliceAt hp.1, (h.recent_eq hp.1.1).trans hp.2.1, h.tempList hp.2.2⟩
  | first last => exact ⟨h.slice.trans hp.1, by rw [h.temp]; exact hp.2.1, h.tempList hp.2.2⟩
  | add head last p =>
      refine ⟨h.slice.trans hp.1, ?_⟩
      have hrest := hp.2
      cases p with
      | storePrev => exact h.sublist hrest
      | load => exact ⟨h.sublist hrest.1, (h.sublist_prev hrest.1).1.trans hrest.2⟩
      | storeNext c => exact ⟨h.sublist hrest.1, (h.sublist_prev hrest.1).1.trans hrest.2⟩
      | cas c =>
          exact ⟨h.sublist hrest.1, (h.sublist_prev hrest.1).1.trans hrest.2.1,
            (h.sublist_prev hrest.1).2.trans hrest.2.2⟩
      | repair c => exact h.temp.trans hrest

end InsideRely

section Stable

variable {m' : Mem N K V} {g' : Ghost N T} {pc : PC N K V}

theorem InsideRely.removePC {n : Fin N} {p : RemovePC N} (h : InsideRely m g m' g')
    (hb : ∀ b, p.lockedBucket = some b → m'.buckets b = m.buckets b ∧ g'.bucket b = g.bucket b ∧
      ∀ n ∈ g.bucket b, m'.bucketNext n = m.bucketNext n ∧ m'.key n = m.key n)
    (hn : n ∈ g.lru) (hp : p.inv cfg m g n) : p.inv cfg m' g' n := by
  have hkey := h.key n hn
  cases p with
  | hash => trivial
  | lock b => exact hp.trans (by rw [hkey])
  | recheck b => exact hp.trans (by rw [hkey])
  | load b => exact hp.trans (by rw [hkey])
  | headNext b =>
      obtain ⟨hb₁, hb₂, -⟩ := hb b rfl
      exact ⟨hp.1.trans (by rw [hkey]), by rw [hb₂]; exact hp.2.1, hb₁.trans hp.2.2⟩
  | storeHead b q =>
      obtain ⟨hb₁, hb₂, hb₃⟩ := hb b rfl
      obtain ⟨hh, hm, hhead, hq⟩ := hp
      exact ⟨hh.trans (by rw [hkey]), by rw [hb₂]; exact hm, hb₁.trans hhead,
        hq.trans (hb₃ n hm).1.symm⟩
  | walk b p =>
      obtain ⟨-, hb₂, -⟩ := hb b rfl
      exact ⟨hp.1.trans (by rw [hkey]), by rw [hb₂]; exact hp.2⟩
  | nodeNext b p =>
      obtain ⟨-, hb₂, hb₃⟩ := hb b rfl
      obtain ⟨hh, hm, hpm, hpn⟩ := hp
      exact ⟨hh.trans (by rw [hkey]), by rw [hb₂]; exact hm, by rw [hb₂]; exact hpm,
        (hb₃ p hpm).1.trans hpn⟩
  | storeParent b p q =>
      obtain ⟨-, hb₂, hb₃⟩ := hb b rfl
      obtain ⟨hh, hm, hpm, hpn, hq⟩ := hp
      exact ⟨hh.trans (by rw [hkey]), by rw [hb₂]; exact hm, by rw [hb₂]; exact hpm,
        (hb₃ p hpm).1.trans hpn, hq.trans (hb₃ n hm).1.symm⟩
  | clear b => trivial
  | unlock b removed => trivial

theorem Rely.purgePC {back : Back K V} {p : PurgePC N}
    (h : Rely cfg (.consolidate back (.purge p)) m g m' g') (hp : p.inv cfg m g) :
    p.inv cfg m' g' := by
  have hin : InsideRely m g m' g' := h.inside rfl
  cases p with
  | tail => trivial
  | prev node freed => exact hin.inList hp
  | test n next freed =>
      obtain ⟨hn, hprev, hl⟩ := hp
      exact ⟨hin.lru n hn, hin.prev_eq hn hprev hl, hin.inList hl⟩
  | bucket n next freed p =>
      obtain ⟨hn, hprev, hl, hp⟩ := hp
      exact ⟨hin.lru n hn, hin.prev_eq hn hprev hl, hin.inList hl, hin.removePC h.bucket hn hp⟩
  | unlink n next freed p =>
      obtain ⟨hprev, hl, hp⟩ := hp
      refine ⟨fun hb => ?_, hin.inList hl, hin.unlinkPC hp⟩
      have hn : n ∈ g.lru := by cases p <;> first | exact hp.1 | cases hb
      exact hin.prev_eq hn (hprev hb) hl
  | onDelete n next freed => exact hin.inList hp
  | count n next freed => exact hin.inList hp
  | dispose n next freed p =>
      refine ⟨hin.inList hp.1, ?_⟩
      cases p with
      | cas q => exact ((h.holds n .evicted rfl).2.2.2.1 (Or.inr rfl)).trans hp.2
      | _ => trivial

/-- **Stability.** A thread's knowledge survives the steps of the others. -/
theorem PC.inv_stable (h : Rely cfg pc m g m' g') (hp : pc.inv cfg m g) : pc.inv cfg m' g' := by
  cases pc with
  | idle => trivial
  | delivered k v => trivial
  | find producer k p =>
      cases p with
      | key n =>
          obtain ⟨-, hb, -⟩ := h.bucket _ rfl
          show n ∈ g'.bucket _
          rw [hb]
          exact hp
      | next n =>
          obtain ⟨-, hb, -⟩ := h.bucket _ rfl
          show n ∈ g'.bucket _
          rw [hb]
          exact hp
      | value n =>
          obtain ⟨-, hb, hn⟩ := h.bucket _ rfl
          exact ⟨by rw [hb]; exact hp.1, (hn n hp.1).2.trans hp.2⟩
      | mark n r p =>
          obtain ⟨-, hb, -⟩ := h.bucket _ rfl
          refine ⟨by rw [hb]; exact hp.1, ?_⟩
          cases p with
          | cas q => exact (h.marks n .pushing rfl).trans hp.2
          | store q again => exact hp.2
          | _ => trivial
      | _ => trivial
  | insert consume k v p =>
      cases p with
      | value n => exact (h.holds n _ rfl).1.trans hp
      | guard n =>
          obtain ⟨hkey, hvalue, -⟩ := h.holds n _ rfl
          exact ⟨hkey.trans hp.1, hvalue.trans hp.2⟩
      | bucket n p =>
          obtain ⟨hkey, hvalue, hnext, -⟩ := h.holds n _ rfl
          refine ⟨hkey.trans hp.1, hvalue.trans hp.2.1, ?_⟩
          have hinv := hp.2.2
          cases p with
          | storeNext b head =>
              obtain ⟨hb, -⟩ := h.bucket b rfl
              exact ⟨hinv.1, hinv.2.trans hb.symm⟩
          | storeHead b =>
              obtain ⟨hb, -⟩ := h.bucket b rfl
              exact ⟨hinv.1, (hnext rfl).trans (hinv.2.trans hb.symm)⟩
          | _ => exact hinv
      | add n p =>
          cases p with
          | load => exact ((h.holds n _ rfl).2.2.2.2 rfl).trans hp
          | storeNext c => exact ((h.holds n _ rfl).2.2.2.2 rfl).trans hp
          | cas c =>
              obtain ⟨-, -, -, hnext, hprev⟩ := h.holds n _ rfl
              exact ⟨(hprev rfl).trans hp.1, (hnext (Or.inl rfl)).trans hp.2⟩
          | _ => trivial
      | _ => trivial
  | consolidate back p =>
      cases p with
      | raisePull => trivial
      | raisePurge => trivial
      | tryLock => trivial
      | purge p => exact ⟨(h.inside rfl).quiet hp.1, h.purgePC hp.2⟩
      | pull p => exact (h.inside rfl).pullPC hp
      | _ => exact (h.inside rfl).quiet hp

end Stable

/-! ## The invariant -/

/-- What holds in every reachable state. -/
structure Inv (cfg : Config N K) (s : State N K V T) (g : Ghost N T) : Prop where
  locks : Locks cfg s
  status : Claims PC.holds s.pc g.status
  role : Claims PC.marks s.pc g.role
  compatible : ∀ n, Compatible (g.role n) (g.status n)
  buckets : BucketsInv cfg s.mem.bucketNext s.mem.buckets s.mem.key g.status g.bucket
  recent : RecentInv s.mem.recentNext s.mem.recentHead g.role g.recent g.slice
  lru : LruInv s.mem.lruNext s.mem.lruPrev g.status g.lru g.temp s.pc
  quiet : s.lruLock = none → g.quiet
  pcs : ∀ t, (s.pc t).inv cfg s.mem g

/-- The ghost of a fresh cache. -/
def Ghost.initial (N : ℕ) (T : Type) : Ghost N T where
  status _ := .rest .free
  role _ := .rest .unmarked
  lru := []
  bucket _ := []
  recent := []
  slice := []
  temp := []

theorem Inv.initial [Inhabited K] [Inhabited V] (cfg : Config N K) :
    Inv cfg (initial N K V T) (.initial N T) where
  locks := .initial cfg
  status _ _ _ := by simp [Threads.initial, PC.holds, Ghost.initial]
  role _ _ _ := by simp [Threads.initial, PC.marks, Ghost.initial]
  compatible _ := trivial
  buckets := ⟨fun _ => rfl, fun _ _ => by simp [Ghost.initial, Status.inBucket]⟩
  recent := ⟨rfl, fun _ => by simp [Ghost.initial], fun _ => by simp [Ghost.initial], fun _ => by
    simp [Threads.initial, allocateMemory, Ghost.initial, Role.marked]⟩
  lru := by
    refine ⟨rfl, fun _ => by simp [Ghost.initial, Status.inLru], fun _ => by simp [Ghost.initial],
      ?_, ?_, ?_⟩
    · rintro c (rfl | ⟨x, hx, -⟩)
      · exact Or.inl rfl
      · exact absurd hx (by simp [Ghost.initial])
    · intro t c l h
      cases h
    · intro t p n q h
      cases h
  quiet _ := ⟨rfl, rfl⟩
  pcs _ := trivial

/-! ## Steps -/

/-- What a step with the given deed changes in the lists. -/
structure Effect (d : Deed N) (g g' : Ghost N T) : Prop where
  listed : ∀ n, (g'.status n).inLru ↔ d.listed n (g.status n).inLru (g.status n).moved
  moved : ∀ n, (g'.status n).moved ↔ d.moved n (g.status n).moved
  free : ∀ n, g'.status n = .rest .free ↔ d.free n (g.status n = .rest .free)
  bucketed : ∀ n, (g'.status n).inBucket ↔ d.bucketed n (g.status n).inBucket
  recent : g'.recent = d.recent g.recent

theorem Effect.nothing {g g' : Ghost N T} (hstatus : g'.status = g.status)
    (hrecent : g'.recent = g.recent) : Effect .nothing g g' :=
  ⟨fun n => by rw [hstatus]; rfl, fun n => by rw [hstatus]; rfl, fun n => by rw [hstatus]; rfl,
    fun n => by rw [hstatus]; rfl, hrecent⟩

/-- The memories differ in counters, flags and the pool head at most. -/
structure SameLinks (m m' : Mem N K V) : Prop where
  lruNext : m'.lruNext = m.lruNext
  lruPrev : m'.lruPrev = m.lruPrev
  recentNext : m'.recentNext = m.recentNext
  bucketNext : m'.bucketNext = m.bucketNext
  key : m'.key = m.key
  value : m'.value = m.value
  buckets : m'.buckets = m.buckets
  recentHead : m'.recentHead = m.recentHead

theorem SameLinks.refl (m : Mem N K V) : SameLinks m m := ⟨rfl, rfl, rfl, rfl, rfl, rfl, rfl, rfl⟩

theorem SameLinks.rely {m m' : Mem N K V} (h : SameLinks m m') (pc : PC N K V) (g : Ghost N T) :
    Rely cfg pc m g m' g := by
  refine ⟨fun b _ => ⟨by rw [h.buckets], rfl, fun n _ => ⟨by rw [h.bucketNext], by rw [h.key]⟩⟩,
    fun n x _ => ⟨by rw [h.key], by rw [h.value], fun _ => by rw [h.bucketNext],
      fun _ => by rw [h.lruNext], fun _ => by rw [h.lruPrev]⟩,
    fun n x _ => by rw [h.recentNext], fun _ => ?_⟩
  exact ⟨fun n hn => hn, rfl, rfl, fun n hn => hn, fun n _ => by rw [h.key],
    fun n _ => by rw [h.lruNext], by rw [h.lruNext], fun n _ _ => by rw [h.lruPrev],
    fun n _ => by rw [h.lruPrev], fun n _ => by rw [h.recentNext]⟩

/-- Away from the node `n` the deed changes nothing. -/
def Deed.concerns (d : Deed N) (n : Fin N) : Prop :=
  ∀ x, x ≠ n → ∀ P Q, (d.listed x P Q ↔ P) ∧ (d.moved x P ↔ P) ∧ (d.free x P ↔ P) ∧
    (d.bucketed x P ↔ P)

/-- The deed changes the status of `n` or of no node; `splice` changes many. -/
def Deed.about (n : Fin N) : Deed N → Prop
  | .nothing => True
  | .slice => True
  | .splice => False
  | .pop x => n = x
  | .bucket x => n = x
  | .link x => n = x
  | .mark x => n = x
  | .unbucket x => n = x
  | .unlink x => n = x
  | .dispose x => n = x
  | .move x => n = x

theorem Deed.about.concerns {d : Deed N} {n : Fin N} (h : d.about n) : d.concerns n := by
  intro x hx P Q
  cases d with
  | splice => exact absurd h id
  | nothing => exact ⟨Iff.rfl, Iff.rfl, Iff.rfl, Iff.rfl⟩
  | slice => exact ⟨Iff.rfl, Iff.rfl, Iff.rfl, Iff.rfl⟩
  | _ =>
      cases h
      simp [Deed.listed, Deed.moved, Deed.free, Deed.bucketed, hx]

/-- A deed that changes the status of one node. -/
theorem Effect.single {d : Deed N} {g g' : Ghost N T} {n : Fin N} {u : Status T}
    (hd : d.about n) (hstatus : g'.status = Function.update g.status n u)
    (hrecent : g'.recent = d.recent g.recent)
    (hlisted : u.inLru ↔ d.listed n (g.status n).inLru (g.status n).moved)
    (hmoved : u.moved ↔ d.moved n (g.status n).moved)
    (hfree : u = .rest .free ↔ d.free n (g.status n = .rest .free))
    (hbucketed : u.inBucket ↔ d.bucketed n (g.status n).inBucket) : Effect d g g' := by
  refine ⟨fun x => ?_, fun x => ?_, fun x => ?_, fun x => ?_, hrecent⟩ <;> rw [hstatus] <;>
    by_cases hx : x = n
  · rw [hx, Function.update_self]
    exact hlisted
  · rw [Function.update_of_ne hx]
    exact (hd.concerns x hx _ _).1.symm
  · rw [hx, Function.update_self]
    exact hmoved
  · rw [Function.update_of_ne hx]
    exact (hd.concerns x hx _ True).2.1.symm
  · rw [hx, Function.update_self]
    exact hfree
  · rw [Function.update_of_ne hx]
    exact (hd.concerns x hx _ True).2.2.1.symm
  · rw [hx, Function.update_self]
    exact hbucketed
  · rw [Function.update_of_ne hx]
    exact (hd.concerns x hx _ True).2.2.2.symm

section Steps

variable [DecidableEq T] {s : State N K V T} {t : T} {pc pc' : PC N K V} {act : Act N K V}
  {g g' : Ghost N T}

/-- **Assembling a step.** -/
theorem Inv.apply (h : Inv cfg s g) (hlocks : LockStep cfg s (s.pc t) act pc')
    (hstatus : Claims PC.holds (Function.update s.pc t pc') g'.status)
    (hrole : Claims PC.marks (Function.update s.pc t pc') g'.role)
    (hcompatible : ∀ n, Compatible (g'.role n) (g'.status n))
    (hbuckets : BucketsInv cfg (act.onMem s.mem).bucketNext (act.onMem s.mem).buckets
      (act.onMem s.mem).key g'.status g'.bucket)
    (hrecent : RecentInv (act.onMem s.mem).recentNext (act.onMem s.mem).recentHead g'.role g'.recent
      g'.slice)
    (hlru : LruInv (act.onMem s.mem).lruNext (act.onMem s.mem).lruPrev g'.status g'.lru g'.temp
      (Function.update s.pc t pc'))
    (hquiet : act.onLruLock t s.lruLock = none → g'.quiet)
    (hself : pc'.inv cfg (act.onMem s.mem) g')
    (hothers : ∀ t', t' ≠ t → Rely cfg (s.pc t') s.mem g (act.onMem s.mem) g') :
    Inv cfg (s.apply t act pc') g' where
  locks := h.locks.apply hlocks
  status := hstatus
  role := hrole
  compatible := hcompatible
  buckets := hbuckets
  recent := hrecent
  lru := hlru
  quiet := hquiet
  pcs t' := by
    show (Function.update s.pc t pc' t').inv cfg _ g'
    by_cases heq : t' = t
    · subst heq
      rw [Function.update_self]
      exact hself
    · rw [Function.update_of_ne heq]
      exact PC.inv_stable (hothers t' heq) (h.pcs t')

/-- The thread neither enters nor leaves the middle of a splice or of an unlinking. -/
structure Settled (pc pc' : PC N K V) : Prop where
  repairing : pc.repairing = none
  gap : pc.gap = none
  repairing' : pc'.repairing = none
  gap' : pc'.gap = none

theorem LruInv.settled {lruNext lruPrev : Ptr N → Ptr N} {status : Fin N → Status T}
    {lru temp : List (Fin N)} {pcs : T → PC N K V}
    (h : LruInv lruNext lruPrev status lru temp pcs) (hs : Settled (pcs t) pc') :
    LruInv lruNext lruPrev status lru temp (Function.update pcs t pc') := by
  have hrep : ∀ t' r, (Function.update pcs t pc' t').repairing = some r ↔
      (pcs t').repairing = some r := by
    intro t' r
    by_cases heq : t' = t
    · subst heq
      rw [Function.update_self, hs.repairing, hs.repairing']
    · rw [Function.update_of_ne heq]
  have hgap : ∀ t' r, (Function.update pcs t pc' t').gap = some r ↔ (pcs t').gap = some r := by
    intro t' r
    by_cases heq : t' = t
    · subst heq
      rw [Function.update_self, hs.gap, hs.gap']
    · rw [Function.update_of_ne heq]
  refine ⟨h.linked, h.mem, h.temp, fun c hc => ?_, fun t' c l hr => ?_, fun t' p n q hr => ?_⟩
  · simp only [hrep, hgap]
    exact h.back c hc
  · have hr' := (hrep t' _).1 hr
    have hne : t' ≠ t := by
      rintro rfl
      rw [hs.repairing] at hr'
      cases hr'
    rw [Function.update_of_ne hne]
    exact h.repairing t' c l hr'
  · exact h.gap t' p n q ((hgap t' _).1 hr)

/-- The step leads to a state with the invariant, and its deed is `d`. -/
def Preserves (cfg : Config N K) (s : State N K V T) (t : T) (act : Act N K V) (pc' : PC N K V)
    (d : Deed N) (g : Ghost N T) : Prop :=
  ∃ g', Inv cfg (s.apply t act pc') g' ∧ Effect d g g'

/-- A step that changes no link and moves its thread on without touching a node. -/
theorem Inv.still (h : Inv cfg s g) (hpc : s.pc t = pc) (hlocks : LockStep cfg s pc act pc')
    (hmem : SameLinks s.mem (act.onMem s.mem)) (hholds : pc'.holds = pc.holds)
    (hmarks : pc'.marks = pc.marks) (hsettled : Settled pc pc')
    (hquiet : act.onLruLock t s.lruLock = none → g.quiet)
    (hself : pc'.inv cfg (act.onMem s.mem) g) : Preserves cfg s t act pc' .nothing g := by
  subst hpc
  refine ⟨g, h.apply hlocks (h.status.keep hholds) (h.role.keep hmarks) h.compatible ?_ ?_ ?_ hquiet
    hself (fun t' _ => hmem.rely _ g), .nothing rfl rfl⟩
  · rw [hmem.bucketNext, hmem.buckets, hmem.key]
    exact h.buckets
  · rw [hmem.recentNext, hmem.recentHead]
    exact h.recent
  · rw [hmem.lruNext, hmem.lruPrev]
    exact h.lru.settled hsettled

end Steps

end DeferredLru.Threads
