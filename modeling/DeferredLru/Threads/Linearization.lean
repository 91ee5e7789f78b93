import DeferredLru.Lib.Table
import DeferredLru.Threads.Buckets

set_option autoImplicit false

/-! # Linearizability

Seen from outside the cache is a table (`Lib/Table.lean`): an insertion puts an entry in front, a
purge evicts entries, and a lookup returns the value of the newest entry with its key. Each operation
takes effect at one step of the thread that makes it (`Label.op`): an insertion when
`addNodeToBucket` stores the new head of the bucket, an eviction when `removeNodeFromBucket` unlinks
its node, and a lookup when `find` gives the bucket lock back. The operations of a run, in the order of
these steps, are a legal history of the table (`Run.linearizable`): what a search has passed has other
keys, and stays so while the bucket is locked (`PC.Searching`).

The order of the steps is the order in which the calls were made: between its start and its return a
call makes the steps of its own operations, once each (`Run.program_order`). -/

namespace DeferredLru.Threads

open Intrusive Table

variable {N : ℕ} {K V T : Type} {cfg : Config N K} {s : State N K V T} {g g' : Ghost N T} {t : T}
  {n : Fin N} {act : Act N K V} {pc pc' : PC N K V} {fails : Bool} {move : Move K V}

/-! ## Linearization points -/

/-- The operation that takes effect with the step. -/
def Label.op : Label N K V T → Option (Table.Op (Fin N) K V)
  | ⟨_, .insert _ k v (.bucket n (.storeHead _)), _, _⟩ => some (.insert n k v)
  | ⟨_, .consolidate _ (.purge (.bucket n _ _ (.storeHead _ _))), _, _⟩ => some (.evict n)
  | ⟨_, .consolidate _ (.purge (.bucket n _ _ (.storeParent _ _ _))), _, _⟩ => some (.evict n)
  | ⟨_, .find _ k (.unlock r), _, _⟩ => some (.find k r)
  | _ => none

/-- The operations and the deeds on the buckets. -/
theorem Label.op_cases (cfg : Config N K) (l : Label N K V T) :
    (∃ n consume k v b, l.op = some (.insert n k v) ∧ l.deed = .bucket n ∧
      l.pc = .insert consume k v (.bucket n (.storeHead b))) ∨
    (∃ n, l.op = some (.evict n) ∧ l.deed = .unbucket n) ∨
    (∃ producer k r, l.op = some (.find k r) ∧ l.pc = .find producer k (.unlock r) ∧
      l.deed = .nothing) ∨
    (l.op = none ∧ ∀ key bucket, l.deed.buckets cfg key bucket = bucket) := by
  unfold Label.op
  split
  · exact Or.inl ⟨_, _, _, _, _, rfl, rfl, rfl⟩
  · exact Or.inr (Or.inl ⟨_, rfl, rfl⟩)
  · exact Or.inr (Or.inl ⟨_, rfl, rfl⟩)
  · exact Or.inr (Or.inr (Or.inl ⟨_, _, _, rfl, rfl, rfl⟩))
  · rename_i hinsert hhead hparent hfind
    refine Or.inr (Or.inr (Or.inr ⟨rfl, fun key bucket => ?_⟩))
    obtain ⟨u, pc, move, act⟩ := l
    generalize hd : Label.deed ⟨u, pc, move, act⟩ = d
    cases d with
    | bucket n =>
        obtain ⟨consume, k, v, b, hpc⟩ := Label.deed_bucket hd
        exact absurd (by rw [show pc = _ from hpc]) (hinsert u consume k v n b move act)
    | unbucket n =>
        obtain ⟨back, next, freed, b, q, hpc | ⟨x, hpc⟩⟩ := Label.deed_unbucket hd
        · exact absurd (by rw [show pc = _ from hpc]) (hhead u back n next freed b q move act)
        · exact absurd (by rw [show pc = _ from hpc]) (hparent u back n next freed b x q move act)
    | _ => rfl

/-! ## What a search knows -/

section Search

variable {key key' : Fin N → K} {value value' : Fin N → V} {bucket : List (Fin N)} {k : K}

variable [DecidableEq K]

/-- The nodes passed do not have the key, and what was found is the first one that has it. -/
def FindPC.Searching (key : Fin N → K) (value : Fin N → V) (bucket : List (Fin N)) (k : K) :
    FindPC N V → Prop
  | .key n => ∃ l, Passed key k bucket (n :: l)
  | .next n => (∃ l, Passed key k bucket (n :: l)) ∧ key n ≠ k
  | .value n => (∃ l, Passed key k bucket (n :: l)) ∧ key n = k
  | .mark _ r _ => search key value k bucket = some r
  | .unlock r => search key value k bucket = r
  | _ => True

/-- What a `find` will return is what the search of the whole bucket returns. -/
def PC.Searching (cfg : Config N K) (key : Fin N → K) (value : Fin N → V)
    (bucket : ℕ → List (Fin N)) : PC N K V → Prop
  | .find _ k p => p.Searching key value (bucket (cfg.keyToBucketNr k)) k
  | _ => True

/-- The search goes on with the rest of the chain. -/
theorem searchAt_searching {bucketNext : Fin N → Option (Fin N)} {p : Option (Fin N)}
    {rest : List (Fin N)} (hchain : Chain bucketNext some p rest none)
    (hpassed : Passed key k bucket rest) : (searchAt p : FindPC N V).Searching key value bucket k := by
  cases rest with
  | nil =>
      obtain rfl : p = none := hchain
      show search key value k bucket = none
      rw [hpassed.search]
      rfl
  | cons x rest =>
      obtain ⟨rfl, -⟩ := hchain
      exact ⟨rest, hpassed⟩

theorem FindPC.Searching.congr {p : FindPC N V} (h : p.Searching key value bucket k)
    (hkey : ∀ x ∈ bucket, key' x = key x) (hvalue : ∀ x ∈ bucket, value' x = value x) :
    p.Searching key' value' bucket k := by
  cases p with
  | key n =>
      obtain ⟨l, hl⟩ := h
      exact ⟨l, hl.congr hkey⟩
  | next n =>
      obtain ⟨⟨l, hl⟩, hn⟩ := h
      exact ⟨⟨l, hl.congr hkey⟩, by rw [hkey n hl.mem]; exact hn⟩
  | value n =>
      obtain ⟨⟨l, hl⟩, hn⟩ := h
      exact ⟨⟨l, hl.congr hkey⟩, (hkey n hl.mem).trans hn⟩
  | mark n r p => exact (search_congr hkey hvalue).trans h
  | unlock r => exact (search_congr hkey hvalue).trans h
  | _ => trivial

/-- **A step of the search.** -/
theorem Inv.search_step (h : Inv cfg s g) {producer : Option V} {k : K} {p : FindPC N V}
    (hp : p.Searching s.mem.key s.mem.value (g.bucket (cfg.keyToBucketNr k)) k)
    (hnext : nextFind cfg s fails producer k p = some (act, pc')) :
    pc'.Searching cfg s.mem.key s.mem.value g.bucket := by
  have hchain := h.buckets.chain (cfg.keyToBucketNr k)
  cases p with
  | lock =>
      simp only [nextFind] at hnext
      split_ifs at hnext
      cases hnext
      trivial
  | load =>
      cases hnext
      exact searchAt_searching hchain .start
  | key n =>
      cases hnext
      by_cases hk : s.mem.key n = k
      · rw [if_pos hk]
        exact ⟨hp, hk⟩
      · rw [if_neg hk]
        exact ⟨hp, hk⟩
  | next n =>
      cases hnext
      obtain ⟨⟨l, hpassed⟩, hn⟩ := hp
      obtain ⟨seen, heq, -⟩ := id hpassed
      rw [heq] at hchain
      exact searchAt_searching (Chain.split hchain).2 (hpassed.step hn)
  | value n =>
      cases hnext
      obtain ⟨⟨l, hpassed⟩, hn⟩ := hp
      show search _ _ k (g.bucket _) = _
      rw [hpassed.search, search_cons_of_eq hn]
  | mark n r p =>
      obtain ⟨⟨a, q⟩, hq, heq⟩ := Option.map_eq_some_iff.1 hnext
      cases heq
      cases q <;> exact hp
  | unlock r =>
      cases hnext
      trivial
  | threshold r =>
      cases hnext
      cases recentThresholdHit cfg s.mem with
      | true => trivial
      | false => cases producer <;> cases r <;> trivial

/-- An insertion leads to no search. -/
theorem nextInsert_searching {consume : Bool} {k : K} {v : V} {p : InsertPC N}
    (h : nextInsert cfg s fails consume k v p = some (act, pc')) (bucket : ℕ → List (Fin N)) :
    pc'.Searching cfg key value bucket := by
  cases p with
  | allocate p =>
      cases p with
      | load =>
          cases h
          cases s.mem.emptyHead <;> trivial
      | loadNext node =>
          simp only [nextInsert] at h
          split_ifs at h
          cases h
          trivial
      | cas node link =>
          simp only [nextInsert] at h
          split_ifs at h
          · cases node <;> cases h
            trivial
          · cases h
            cases s.mem.emptyHead <;> trivial
  | bucket n p =>
      obtain ⟨⟨a, q⟩, hq, heq⟩ := Option.map_eq_some_iff.1 h
      cases heq
      cases q <;> trivial
  | add n p =>
      obtain ⟨⟨a, q⟩, hq, heq⟩ := Option.map_eq_some_iff.1 h
      cases heq
      cases q <;> trivial
  | reset n =>
      cases h
      cases consume <;> trivial
  | _ =>
      cases h
      trivial

theorem Back.pc_searching (back : Back K V) (bucket : ℕ → List (Fin N)) :
    (back.pc : PC N K V).Searching cfg key value bucket := by
  cases back with
  | find producer k r => cases producer <;> cases r <;> trivial
  | _ => trivial

/-- Neither does a consolidation. -/
theorem nextConsolidate_searching {back : Back K V} {p : ConsolidatePC N}
    (h : nextConsolidate cfg s fails back p = some (act, pc')) (bucket : ℕ → List (Fin N)) :
    pc'.Searching cfg key value bucket := by
  cases p with
  | tryLock =>
      simp only [nextConsolidate] at h
      split_ifs at h <;> cases h
      · trivial
      · exact Back.pc_searching back bucket
  | testPurge =>
      cases h
      cases s.mem.purgeRequest <;> trivial
  | testPull =>
      cases h
      cases s.mem.pullRequest <;> trivial
  | purge p =>
      obtain ⟨⟨a, q⟩, hq, heq⟩ := Option.map_eq_some_iff.1 h
      cases heq
      cases q <;> trivial
  | pull p =>
      obtain ⟨⟨a, q⟩, hq, heq⟩ := Option.map_eq_some_iff.1 h
      cases heq
      cases q <;> trivial
  | unlock =>
      cases h
      exact Back.pc_searching back bucket
  | _ =>
      cases h
      trivial

/-- What a thread knows of its search after its own step. -/
theorem Inv.searching_self (h : Inv cfg s g) (hnext : next cfg s (s.pc t) move = some (act, pc'))
    (hp : (s.pc t).Searching cfg s.mem.key s.mem.value g.bucket) :
    pc'.Searching cfg s.mem.key s.mem.value g.bucket := by
  have hmoved := next_transition hnext
  generalize s.pc t = pc at hmoved hp
  cases hmoved with
  | call hidle c => cases c <;> trivial
  | find hfind => exact h.search_step hp hfind
  | insert hinsert => exact nextInsert_searching hinsert _
  | consolidate hconsolidate => exact nextConsolidate_searching hconsolidate _

end Search

/-! ## The table of a state -/

variable [DecidableEq K] {l : List (Table.Entry (Fin N) K V)}

/-- The state holds the table. -/
structure Tabled (cfg : Config N K) (s : State N K V T) (g : Ghost N T)
    (l : List (Table.Entry (Fin N) K V)) : Prop where
  parts : Parts s.mem.key s.mem.value cfg.keyToBucketNr g.bucket l
  searching : ∀ t, (s.pc t).Searching cfg s.mem.key s.mem.value g.bucket

theorem Tabled.initial [Inhabited K] [Inhabited V] :
    Tabled cfg (initial N K V T) (.initial N T) [] where
  parts := Parts.empty
  searching _ := trivial

/-- A search that does not hold the lock yet, or no longer, knows nothing. -/
theorem PC.searching_of_unlocked (hp : pc.lockedBucket cfg = none) (key : Fin N → K)
    (value : Fin N → V) (bucket : ℕ → List (Fin N)) : pc.Searching cfg key value bucket := by
  cases pc with
  | find producer k p =>
      cases p with
      | lock => trivial
      | threshold r => trivial
      | _ => cases hp
  | _ => trivial

/-- The nodes of the buckets keep their keys and values. -/
theorem Inv.bucket_contents (h : Inv cfg s g) (hnext : next cfg s (s.pc t) move = some (act, pc'))
    {b : ℕ} (hn : n ∈ g.bucket b) :
    (act.onMem s.mem).key n = s.mem.key n ∧ (act.onMem s.mem).value n = s.mem.value n :=
  h.contents_step hnext (h.inBucket hn)

/-- A step that is no insertion or eviction leaves the table alone. -/
theorem Tabled.keep (ht : Tabled cfg s g l) (h : Inv cfg s g)
    (hnext : next cfg s (s.pc t) move = some (act, pc')) (hbucket : g'.bucket = g.bucket) :
    Parts (act.onMem s.mem).key (act.onMem s.mem).value cfg.keyToBucketNr g'.bucket l := by
  rw [hbucket]
  exact ht.parts.congr fun b x hx => h.bucket_contents hnext hx

variable [DecidableEq T]

/-- **What the others know** about their searches is not touched. -/
theorem Inv.searching_other (h : Inv cfg s g) (hnext : next cfg s (s.pc t) move = some (act, pc'))
    (h' : Inv cfg (s.apply t act pc') g') {u : T} (hne : u ≠ t)
    (hp : (s.pc u).Searching cfg s.mem.key s.mem.value g.bucket) :
    (s.pc u).Searching cfg (act.onMem s.mem).key (act.onMem s.mem).value g'.bucket := by
  cases hlock : (s.pc u).lockedBucket cfg with
  | none => exact PC.searching_of_unlocked hlock _ _ _
  | some b =>
      have hsame := h.locked_bucket_step hnext h' hne hlock
      generalize s.pc u = pc at hp hlock
      cases pc with
      | find producer k p =>
          have hb : cfg.keyToBucketNr k = b := by
            simp only [PC.lockedBucket] at hlock
            split_ifs at hlock
            exact Option.some.inj hlock
          subst hb
          show p.Searching _ _ (g'.bucket _) k
          rw [hsame]
          exact hp.congr (fun x hx => (h.bucket_contents hnext hx).1)
            (fun x hx => (h.bucket_contents hnext hx).2)
      | _ => trivial

/-- **One step** makes its operation on the table. -/
theorem Tabled.step (ht : Tabled cfg s g l) (h : Inv cfg s g)
    (hnext : next cfg s (s.pc t) move = some (act, pc')) (h' : Inv cfg (s.apply t act pc') g') :
    ∃ l', Follows l (Label.op ⟨t, s.pc t, move, act⟩) l' ∧ Tabled cfg (s.apply t act pc') g' l' := by
  have hbucket := h.bucket_step hnext h'
  have hothers : ∀ u, u ≠ t → (s.pc u).Searching cfg (act.onMem s.mem).key (act.onMem s.mem).value
      g'.bucket := fun u hne => h.searching_other hnext h' hne (ht.searching u)
  -- a thread that has edited a bucket, or left its own alone, goes on with its search
  have hall : pc'.Searching cfg (act.onMem s.mem).key (act.onMem s.mem).value g'.bucket →
      ∀ u, ((s.apply t act pc').pc u).Searching cfg (act.onMem s.mem).key (act.onMem s.mem).value
        g'.bucket := by
    intro hself u
    show (Function.update s.pc t pc' u).Searching _ _ _ _
    by_cases hu : u = t
    · rw [hu, Function.update_self]
      exact hself
    · rw [Function.update_of_ne hu]
      exact hothers u hu
  have hself : g'.bucket = g.bucket →
      pc'.Searching cfg (act.onMem s.mem).key (act.onMem s.mem).value g'.bucket := by
    intro hsame
    have hp := h.searching_self hnext (ht.searching t)
    rw [hsame]
    cases pc' with
    | find producer k p =>
        exact FindPC.Searching.congr hp (fun x hx => (h.bucket_contents hnext hx).1)
          (fun x hx => (h.bucket_contents hnext hx).2)
    | _ => trivial
  rcases Label.op_cases cfg ⟨t, s.pc t, move, act⟩ with
    ⟨n, consume, k, v, b, hop, hdeed, hpc⟩ | ⟨n, hop, hdeed⟩ | ⟨producer, k, r, hop, hpc, hdeed⟩ |
      ⟨hop, hdeed⟩
  · -- `addNodeToBucket` has stored the new head
    have hpc' : s.pc t = _ := hpc
    have hinv := h.pcs t
    rw [hpc'] at hinv
    obtain ⟨hkey, hvalue, -⟩ := hinv
    have hfresh : ∀ b, n ∉ g.bucket b := by
      intro b hn
      have hb := h.inBucket hn
      rw [h.held (t := t) (x := .building) (by rw [hpc']; rfl)] at hb
      exact hb
    have hnext' := hnext
    rw [hpc'] at hnext'
    rw [hop]
    cases move with
    | call c => cases hnext'
    | go fails =>
        cases hnext'
        have hparts := ht.parts.insert (h := n)
        rw [hkey, hvalue] at hparts
        refine ⟨_, .insert k v (ht.parts.fresh hfresh), ?_, hall trivial⟩
        rw [hbucket, hdeed]
        show Parts s.mem.key s.mem.value _ (Function.update g.bucket _ _) _
        rw [hkey]
        exact hparts
  · -- `removeNodeFromBucket` has unlinked the node
    have hown : n ∈ g.bucket (cfg.keyToBucketNr (s.mem.key n)) ∧
        (act.onMem s.mem).key = s.mem.key ∧ (act.onMem s.mem).value = s.mem.value ∧
        ∃ back next freed b, pc' = .consolidate back (.purge (.bucket n next freed (.clear b))) := by
      obtain ⟨back, next, freed, b, q, hpc | ⟨x, hpc⟩⟩ := Label.deed_unbucket hdeed
      · have hpc' : s.pc t = _ := hpc
        have hinv := h.removing hpc'
        rw [hpc'] at hnext
        cases move <;> cases hnext
        rw [← hinv.1]
        exact ⟨hinv.2.1, rfl, rfl, _, _, _, _, rfl⟩
      · have hpc' : s.pc t = _ := hpc
        have hinv := h.removing hpc'
        rw [hpc'] at hnext
        cases move <;> cases hnext
        rw [← hinv.1]
        exact ⟨hinv.2.1, rfl, rfl, _, _, _, _, rfl⟩
    obtain ⟨hn, hkey, hvalue, back, next, freed, b, hpc'⟩ := hown
    obtain ⟨e, he, rfl, -⟩ := (ht.parts.mem_iff _).1 hn
    rw [hop]
    refine ⟨_, .evict he, ?_, hall (by rw [hpc']; trivial)⟩
    show Parts (act.onMem s.mem).key (act.onMem s.mem).value _ _ _
    rw [hkey, hvalue, hbucket, hdeed]
    exact ht.parts.evict h.buckets.nodup
  · -- the lookup returns what the search of the locked bucket returns
    have hsame : g'.bucket = g.bucket := by
      rw [hbucket, hdeed]
      rfl
    have hsearch : search s.mem.key s.mem.value k (g.bucket (cfg.keyToBucketNr k)) = r := by
      have hp := ht.searching t
      rw [show s.pc t = _ from hpc] at hp
      exact hp
    rw [hop]
    refine ⟨l, ?_, ht.keep h hnext hsame, hall (hself hsame)⟩
    rw [← hsearch, ← ht.parts.lookup k]
    exact .find k
  · have hsame : g'.bucket = g.bucket := by rw [hbucket, hdeed]
    rw [hop]
    exact ⟨l, rfl, ht.keep h hnext hsame, hall (hself hsame)⟩

/-! ## Runs -/

variable [Inhabited K] [Inhabited V] {trace : List (Label N K V T)}

theorem Run.tabled (h : Run cfg PopsUnused s trace) :
    ∃ g l, Inv cfg s g ∧ Tabled cfg s g l ∧ Replays (trace.filterMap Label.op) l := by
  induction h with
  | start => exact ⟨_, _, .initial cfg, .initial, .empty⟩
  | @step s s' trace t move act _ hstep hok ih =>
      obtain ⟨g, l, hinv, htabled, hreplays⟩ := ih
      obtain ⟨pc', hnext, rfl⟩ := step_eq hstep
      obtain ⟨g', hinv', -⟩ := hinv.step hnext fun n hn => (hinv.unused_iff n).1 (hok n hn)
      obtain ⟨l', hfollows, htabled'⟩ := htabled.step hinv hnext hinv'
      refine ⟨g', l', hinv', htabled', ?_⟩
      rw [filterMap_concat]
      exact hreplays.follow hfollows

/-- **Linearizability.** If every popped node is unused, the operations of the run, in the order in
    which they took effect, are a legal history of a table: every lookup returned the value of the
    newest entry with its key, and every eviction took out an entry. The buckets hold that table. -/
theorem Run.linearizable (h : Run cfg PopsUnused s trace) :
    ∃ l : List (Table.Entry (Fin N) K V), Replays (trace.filterMap Label.op) l ∧
      (∀ b, Chain s.mem.bucketNext some (s.mem.buckets b)
        ((l.filter fun e => cfg.keyToBucketNr e.key = b).map Table.Entry.handle) none) ∧
      ∀ e ∈ l, s.mem.key e.handle = e.key ∧ s.mem.value e.handle = e.value := by
  obtain ⟨g, l, hinv, htabled, hreplays⟩ := h.tabled
  refine ⟨l, hreplays, fun b => ?_, fun e he =>
    ⟨htabled.parts.key e he, htabled.parts.value e he⟩⟩
  rw [← htabled.parts.handles b]
  exact hinv.buckets.chain b

/-- Thread 2 looks for key 10 while thread 1 inserts it a second time: it waits for the bucket and
    returns the new value. -/
theorem Run.linearizable_newest : ∃ (s : State 2 ℕ ℕ ℕ) (trace : List (Label 2 ℕ ℕ ℕ)),
    trace.filterMap Label.op = [.insert 0 10 100, .insert 1 10 200, .find 10 (some 200)] ∧
      ∃ l : List (Table.Entry (Fin 2) ℕ ℕ), Replays (trace.filterMap Label.op) l ∧
        (∀ b, Chain s.mem.bucketNext some (s.mem.buckets b)
          ((l.filter fun e => twoNodes.keyToBucketNr e.key = b).map Table.Entry.handle) none) ∧
        ∀ e ∈ l, s.mem.key e.handle = e.key ∧ s.mem.value e.handle = e.value := by
  obtain ⟨s, trace, hrun, hgood⟩ := Run.of_play twoNodes PopsPooled linkUnchanged
    popsPooled_of_linkUnchanged
    ((1, .call (.insert 10 100)) :: goes 1 19 ++ (1, .call (.insert 10 200)) :: goes 1 9 ++
      (2, .call (.find 10)) :: goes 1 4 ++ goes 2 6)
    (fun _ trace => trace.filterMap Label.op =
      [.insert 0 10 100, .insert 1 10 200, .find 10 (some 200)]) (by decide +kernel)
  obtain ⟨-, -, -, -, hunused⟩ := hrun.pooled
  exact ⟨s, trace, of_decide_eq_true hgood, hunused.linearizable⟩

end DeferredLru.Threads
