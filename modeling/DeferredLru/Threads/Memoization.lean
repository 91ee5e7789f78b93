import DeferredLru.Threads.Pool

set_option autoImplicit false

/-! # Memoization

If every value that is computed for a key is `f` of the key, so is every value that is delivered for
it. A find reads the key and the value of a node under the lock of its bucket, and what is in a bucket
is not rewritten, as long as the pool hands out free nodes (`Run.memoizes`). With a stale pop it may
hand out a node that is in a bucket, and a find then reads the new key with the old value
(`Run.not_memoizes_aba`). -/

namespace DeferredLru.Threads

open Intrusive

variable {N : ℕ} {K V T : Type} {cfg : Config N K} {s : State N K V T} {g g' : Ghost N T} {t : T}
  {f : K → V}

/-! ## Faithful threads -/

/-- The call passes values of `f` to the cache. -/
def Call.faithful (f : K → V) : Call K V → Prop
  | .insert k v => v = f k
  | .consumeCachedOrCompute k x => x = f k
  | _ => True

/-- The values that the caller goes on with are values of `f`. -/
def Back.faithful (f : K → V) : Back K V → Prop
  | .request => True
  | .find producer k consumer => (∀ x, producer = some x → x = f k) ∧
      ∀ v, consumer = some v → v = f k
  | .insert _ k v => v = f k

/-- What a `find` has read for its consumer. -/
def FindPC.found : FindPC N V → Option V
  | .mark _ r _ => some r
  | .unlock r => r
  | .threshold r => r
  | _ => none

/-- The values the thread carries are values of `f`. -/
def PC.faithful (f : K → V) : PC N K V → Prop
  | .idle => True
  | .delivered k v => v = f k
  | .find producer k p => (∀ x, producer = some x → x = f k) ∧ ∀ v, p.found = some v → v = f k
  | .insert _ k v _ => v = f k
  | .consolidate back _ => back.faithful f

theorem Call.faithful.pc {c : Call K V} (h : c.faithful f) : (c.pc : PC N K V).faithful f := by
  cases c with
  | find k => exact ⟨fun _ hx => (by cases hx), fun _ hv => (by cases hv)⟩
  | insert k v => exact h
  | consumeCachedOrCompute k x => exact ⟨fun y hy => (by cases hy; exact h), fun _ hv => (by cases hv)⟩
  | requestPull => trivial
  | requestPurge => trivial

theorem afterFind_faithful {producer : Option V} {k : K} {r : Option V}
    (hproducer : ∀ x, producer = some x → x = f k) (hr : ∀ v, r = some v → v = f k) :
    (afterFind producer k r : PC N K V).faithful f := by
  cases producer with
  | none => cases r <;> trivial
  | some x =>
      cases r with
      | none => exact hproducer x rfl
      | some v => exact hr v rfl

theorem Back.faithful.pc {back : Back K V} (h : back.faithful f) :
    (back.pc : PC N K V).faithful f := by
  cases back with
  | request => trivial
  | find producer k r => exact afterFind_faithful h.1 h.2
  | insert consume k v => exact h

theorem allocateAt_faithful {consume : Bool} {k : K} {v : V} (hv : v = f k) (p : Ptr N) :
    (allocateAt consume k v p).faithful f := by
  cases p <;> exact hv

theorem searchAt_found (x : Option (Fin N)) : (searchAt x : FindPC N V).found = none := by
  cases x <;> rfl

/-- The values of the nodes in the buckets are values of `f`. -/
def Memoized (f : K → V) (m : Mem N K V) (g : Ghost N T) : Prop :=
  ∀ n, (g.status n).inBucket → m.value n = f (m.key n)

/-- A node gets into a bucket by the store of `addNodeToBucket`. -/
theorem Label.deed_bucket {l : Label N K V T} {n : Fin N} (h : l.deed = .bucket n) :
    ∃ consume k v b, l.pc = .insert consume k v (.bucket n (.storeHead b)) := by
  unfold Label.deed at h
  split at h <;> cases h
  exact ⟨_, _, _, _, rfl⟩

theorem Deed.of_bucketed {d : Deed N} {n : Fin N} {P : Prop} (h : d.bucketed n P) :
    d = .bucket n ∨ P := by
  cases d with
  | bucket x =>
      rcases h with rfl | h
      · exact Or.inl rfl
      · exact Or.inr h
  | unbucket x => exact Or.inr h.1
  | _ => exact Or.inr h

/-! ## Steps -/

section Steps

variable {fails : Bool} {act : Act N K V} {pc' : PC N K V}

theorem nextConsolidate_faithful {back : Back K V} {p : ConsolidatePC N} (hback : back.faithful f)
    (h : nextConsolidate cfg s fails back p = some (act, pc')) : pc'.faithful f := by
  cases p with
  | tryLock =>
      simp only [nextConsolidate] at h
      split_ifs at h <;> cases h
      · exact hback
      · exact hback.pc
  | purge p =>
      obtain ⟨⟨a, q⟩, hq, heq⟩ := Option.map_eq_some_iff.1 h
      cases heq
      cases q <;> exact hback
  | pull p =>
      obtain ⟨⟨a, q⟩, hq, heq⟩ := Option.map_eq_some_iff.1 h
      cases heq
      cases q <;> exact hback
  | unlock =>
      cases h
      exact hback.pc
  | _ =>
      cases h
      exact hback

theorem nextInsert_faithful {consume : Bool} {k : K} {v : V} {p : InsertPC N} (hv : v = f k)
    (h : nextInsert cfg s fails consume k v p = some (act, pc')) : pc'.faithful f := by
  cases p with
  | allocate p =>
      cases p with
      | load =>
          cases h
          exact allocateAt_faithful hv _
      | loadNext node =>
          simp only [nextInsert] at h
          split_ifs at h
          cases h
          exact hv
      | cas node link =>
          simp only [nextInsert] at h
          split_ifs at h
          · cases node <;> cases h
            exact hv
          · cases h
            exact allocateAt_faithful hv _
  | bucket n p =>
      obtain ⟨⟨a, q⟩, hq, heq⟩ := Option.map_eq_some_iff.1 h
      cases heq
      cases q <;> exact hv
  | add n p =>
      obtain ⟨⟨a, q⟩, hq, heq⟩ := Option.map_eq_some_iff.1 h
      cases heq
      cases q <;> exact hv
  | reset n =>
      cases h
      cases consume
      · trivial
      · exact hv
  | _ =>
      cases h
      exact hv

variable [DecidableEq K]

/-- A find delivers what it has read from a bucket. -/
theorem Inv.find_faithful (h : Inv cfg s g) (hmem : Memoized f s.mem g) {producer : Option V} {k : K}
    {p : FindPC N V} (hpc : s.pc t = .find producer k p)
    (hp : (PC.find producer k p : PC N K V).faithful f)
    (hnext : nextFind cfg s fails producer k p = some (act, pc')) : pc'.faithful f := by
  obtain ⟨hproducer, hfound⟩ := hp
  have hinv := h.pcs t
  rw [hpc] at hinv
  cases p with
  | lock =>
      simp only [nextFind] at hnext
      split_ifs at hnext
      cases hnext
      exact ⟨hproducer, hfound⟩
  | load =>
      cases hnext
      exact ⟨hproducer, fun v hv => by rw [searchAt_found] at hv; cases hv⟩
  | key n =>
      cases hnext
      split_ifs <;> exact ⟨hproducer, hfound⟩
  | next n =>
      cases hnext
      exact ⟨hproducer, fun v hv => by rw [searchAt_found] at hv; cases hv⟩
  | value n =>
      cases hnext
      refine ⟨hproducer, fun v hv => ?_⟩
      cases hv
      rw [hmem n (h.inBucket hinv.1), hinv.2]
  | mark n r p =>
      obtain ⟨⟨a, q⟩, hq, heq⟩ := Option.map_eq_some_iff.1 hnext
      cases heq
      cases q <;> exact ⟨hproducer, hfound⟩
  | unlock r =>
      cases hnext
      exact ⟨hproducer, hfound⟩
  | threshold r =>
      cases hnext
      split_ifs
      · exact ⟨hproducer, hfound⟩
      · exact afterFind_faithful hproducer hfound

variable {move : Move K V}

theorem Inv.faithful_step (h : Inv cfg s g) (hmem : Memoized f s.mem g)
    (hp : (s.pc t).faithful f) (hcall : ∀ c, move = .call c → c.faithful f)
    (hnext : next cfg s (s.pc t) move = some (act, pc')) : pc'.faithful f := by
  have hmoved := next_transition hnext
  generalize hpc : s.pc t = pc at hmoved hp
  cases hmoved with
  | call hidle c => exact (hcall c rfl).pc
  | find hfind => exact h.find_faithful hmem hpc hp hfind
  | insert hinsert => exact nextInsert_faithful hp hinsert
  | consolidate hconsolidate => exact nextConsolidate_faithful hp hconsolidate

/-- Keys and values are written to nodes that are in no bucket. -/
theorem Inv.contents_step (h : Inv cfg s g) (hnext : next cfg s (s.pc t) move = some (act, pc'))
    {n : Fin N} (hn : (g.status n).inBucket) :
    (act.onMem s.mem).key n = s.mem.key n ∧ (act.onMem s.mem).value n = s.mem.value n := by
  have hsite := next_site hnext
  have hne : ∀ x, (s.pc t).holds = some (x, .building) → n ≠ x := by
    rintro x hx rfl
    rw [h.held hx] at hn
    exact hn
  cases act with
  | setKey x k =>
      obtain ⟨consume, v, hpc⟩ := hsite
      exact ⟨Function.update_of_ne (hne x (by rw [hpc]; rfl)) _ _, rfl⟩
  | setValue x v =>
      obtain ⟨consume, k, hpc⟩ := hsite
      exact ⟨rfl, Function.update_of_ne (hne x (by rw [hpc]; rfl)) _ _⟩
  | _ => exact ⟨rfl, rfl⟩

/-- When a node gets into its bucket it is filled. -/
theorem Inv.memoized_step (h : Inv cfg s g) (hmem : Memoized f s.mem g)
    (hp : (s.pc t).faithful f) (hnext : next cfg s (s.pc t) move = some (act, pc'))
    (he : Effect (Label.deed ⟨t, s.pc t, move, act⟩) g g') : Memoized f (act.onMem s.mem) g' := by
  intro n hn
  rw [he.bucketed] at hn
  rcases Deed.of_bucketed hn with hd | hb
  · obtain ⟨consume, k, v, b, hpc⟩ := Label.deed_bucket hd
    have hinv := h.pcs t
    rw [show s.pc t = _ from hpc] at hnext hp hinv
    cases move with
    | call c => cases hnext
    | go fails =>
        cases hnext
        show s.mem.value n = f (s.mem.key n)
        rw [hinv.1, hinv.2.1]
        exact hp
  · obtain ⟨hkey, hvalue⟩ := h.contents_step hnext hb
    rw [hkey, hvalue]
    exact hmem n hb

end Steps

/-! ## Runs -/

variable [DecidableEq K] [DecidableEq T] [Inhabited K] [Inhabited V] {trace : List (Label N K V T)}

/-- Pops stay on the pool chain, and the calls pass values of `f`. -/
def Memoizing (f : K → V) (s : State N K V T) (l : Label N K V T) : Prop :=
  PopsPooled s l ∧ ∀ c, l.move = .call c → c.faithful f

theorem Run.memoized (h : Run cfg (Memoizing f) s trace) :
    ∃ g pool, Inv cfg s g ∧ PoolInv s.mem g pool ∧ Memoized f s.mem g ∧
      ∀ t, (s.pc t).faithful f := by
  induction h with
  | start => exact ⟨_, _, .initial cfg, .initial, fun _ hn => hn.elim, fun _ => trivial⟩
  | @step s s' trace t move act _ hstep hok ih =>
      obtain ⟨g, pool, hinv, hpool, hmem, hpcs⟩ := ih
      obtain ⟨pc', hnext, rfl⟩ := step_eq hstep
      obtain ⟨g', hinv', he⟩ := hinv.step hnext fun n => hpool.popped_free hnext
      obtain ⟨pool', hpool'⟩ := hpool.step hinv hnext he hok.1
      refine ⟨g', pool', hinv', hpool', hinv.memoized_step hmem (hpcs t) hnext he, fun t' => ?_⟩
      show (Function.update s.pc t pc' t').faithful f
      by_cases ht : t' = t
      · subst ht
        rw [Function.update_self]
        exact hinv.faithful_step hmem (hpcs t') hok.2 hnext
      · rw [Function.update_of_ne ht]
        exact hpcs t'

/-- **Memoization.** In a run whose pops stay on the pool chain and whose calls pass values of `f`,
    every completed `consumeCachedOrCompute` has delivered the value of `f`. -/
theorem Run.memoizes (h : Run cfg (Memoizing f) s trace) (t : T) (k : K) (v : V)
    (hpc : s.pc t = .delivered k v) : v = f k := by
  obtain ⟨g, pool, -, -, -, hpcs⟩ := h.memoized
  have hp := hpcs t
  rw [hpc] at hp
  exact hp

/-- The function of the runs below. -/
def timesTen (k : ℕ) : ℕ := 10 * k

/-- The pop is fresh and a call is a `consumeCachedOrCompute` of `timesTen`. -/
def consumesTimesTen (s : State 2 ℕ ℕ ℕ) (l : Label 2 ℕ ℕ ℕ) : Bool :=
  linkUnchanged s l && match l.move with
    | .call (.consumeCachedOrCompute k x) => x = timesTen k
    | .call _ => false
    | .go _ => true

theorem memoizing_of_consumesTimesTen (s : State 2 ℕ ℕ ℕ) (l : Label 2 ℕ ℕ ℕ)
    (h : consumesTimesTen s l = true) : Memoizing timesTen s l := by
  unfold consumesTimesTen at h
  obtain ⟨hpop, hcall⟩ := Bool.and_eq_true_iff.1 h
  refine ⟨popsPooled_of_linkUnchanged s l hpop, fun c hc => ?_⟩
  rw [hc] at hcall
  cases c with
  | consumeCachedOrCompute k x =>
      have hx : x = timesTen k := of_decide_eq_true hcall
      exact hx
  | _ => cases hcall

/-- Thread 2 finds what thread 1 has computed and inserted. -/
theorem Run.memoizes_hit : ∃ (s : State 2 ℕ ℕ ℕ) (trace : List (Label 2 ℕ ℕ ℕ)) (v : ℕ),
    Run twoNodes (Memoizing timesTen) s trace ∧ s.pc 2 = .delivered 10 v ∧ v = timesTen 10 := by
  obtain ⟨s, trace, hrun, hgood⟩ := Run.of_play twoNodes (Memoizing timesTen) consumesTimesTen
    memoizing_of_consumesTimesTen
    ((1, .call (.consumeCachedOrCompute 10 100)) :: goes 1 23 ++
      (2, .call (.consumeCachedOrCompute 10 100)) :: goes 2 23)
    (fun s _ => match s.pc 2 with | .delivered 10 _ => true | _ => false) (by decide +kernel)
  split at hgood
  · rename_i v hpc
    exact ⟨s, trace, v, hrun, hpc, hrun.memoizes 2 10 v hpc⟩
  · cases hgood

/-- The calls pass values of `f`, but pops are as they come. -/
def Consuming (f : K → V) (_ : State N K V T) (l : Label N K V T) : Prop :=
  ∀ c, l.move = .call c → ∃ k, c = .consumeCachedOrCompute k (f k)

/-- Thread 1 reads node 0 and its link to node 1. Thread 2 computes three keys: the first two fill the
    cache, the third evicts node 0. The compare-exchange of thread 1 makes node 1, which holds key 30,
    the head of the pool; thread 3 takes it and stores key 50 in it; thread 4 finds key 50 there and
    is delivered the value of key 30. -/
theorem Run.not_memoizes_aba : ∃ (s : State 2 ℕ ℕ ℕ) (trace : List (Label 2 ℕ ℕ ℕ)),
    Run twoNodes (Consuming timesTen) s trace ∧ s.pc 4 = .delivered 50 300 ∧ 300 ≠ timesTen 50 := by
  obtain ⟨s, trace, hrun, hgood⟩ := Run.of_play twoNodes (Consuming timesTen)
    (fun _ l => match l.move with
      | .call (.consumeCachedOrCompute k x) => x = timesTen k
      | .call _ => false
      | .go _ => true)
    (fun s l h c hc => by
      rw [hc] at h
      cases c with
      | consumeCachedOrCompute k x =>
          have hx : x = timesTen k := of_decide_eq_true h
          exact ⟨k, by rw [hx]⟩
      | _ => cases h)
    ((1, .call (.consumeCachedOrCompute 10 100)) :: goes 1 7 ++
      (2, .call (.consumeCachedOrCompute 20 200)) :: goes 2 23 ++
      (2, .call (.consumeCachedOrCompute 30 300)) :: goes 2 25 ++
      (2, .call (.consumeCachedOrCompute 40 400)) :: goes 2 34 ++ goes 1 1 ++
      (3, .call (.consumeCachedOrCompute 50 500)) :: goes 3 11 ++
      (4, .call (.consumeCachedOrCompute 50 500)) :: goes 4 13)
    (fun s _ => match s.pc 4 with | .delivered 50 300 => true | _ => false) (by decide +kernel)
  split at hgood
  · rename_i hpc
    exact ⟨s, trace, hrun, hpc, by decide⟩
  · cases hgood

end DeferredLru.Threads
