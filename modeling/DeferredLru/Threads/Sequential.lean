import DeferredLru.Threads.Alone

set_option autoImplicit false

/-! # The threaded machine and the single-threaded code

The states in which a thread that uses the cache alone comes to rest are those that the functions of
`Deferred/Code.lean` compute for its calls (`Run.refines`), and all of those (`alone_iff`).

`Alone.lean` follows a call that completes to its end. A call that does not complete never returns
here either: the thread goes one way, and comes back again and again to the loop head of
`allocateNode`. A spurious failure of a compare-exchange only repeats the store before it
(`next_retries`). -/

namespace DeferredLru.Threads

open Intrusive

variable {N : ℕ} {K V : Type} {cfg : Config N K} {m m' : Mem N K V} {l : Option Unit}
  {b : ℕ → Option Unit} {act : Act N K V} {pc pc' : PC N K V} {s s' : State N K V Unit} {n : Fin N}
  {producer : Option V} {k : K} {v : V} {consume : Bool} {back : Back K V}

/-! ## Calls -/

/-- Not a call of one of the two private requests. -/
def Move.isPublic : Move K V → Bool
  | .call .requestPull => false
  | .call .requestPurge => false
  | _ => true

/-- The call that the machine makes for `op`. -/
def callOf : Op K V → Call K V
  | .find k => .find k
  | .insert k v => .insert k v
  | .consumeCachedOrCompute k x => .consumeCachedOrCompute k x

theorem callOf_injective : Function.Injective (callOf : Op K V → Call K V) := by
  intro op op' h
  cases op <;> cases op' <;> cases h <;> rfl

theorem callsOf_go {trace : List (Label N K V Unit)} {fails : Bool} :
    callsOf () (trace ++ [⟨(), pc, .go fails, act⟩]) = callsOf () trace := by
  unfold callsOf
  rw [filterMap_concat]
  exact List.append_nil _

/-! ## Spurious failures -/

/-- The node is as the next compare-exchange publishes it. -/
def AddPC.Prepared (m : Mem N K V) (last : Ptr N) : AddPC N → Prop
  | .cas c => last.isBase = true ∧ m.lruNext last = c
  | _ => True

/-- The same for the Recent list. -/
def MarkPC.Prepared (m : Mem N K V) (n : Fin N) : MarkPC N → Prop
  | .cas p => m.recentNext n = p
  | _ => True

/-- The same for the pool. -/
def DisposePC.Prepared (m : Mem N K V) (n : Fin N) : DisposePC N → Prop
  | .cas p => m.lruNext (.node n) = p
  | _ => True

/-- The link that the next compare-exchange installs is that of the node. -/
def AllocatePC.Prepared (m : Mem N K V) : AllocatePC N → Prop
  | .cas p link => p.isBase = true ∧ m.lruNext p = link
  | _ => True

/-- What the next compare-exchange of the thread relies on. -/
def PC.Prepared (m : Mem N K V) : PC N K V → Prop
  | .find _ _ (.mark n _ p) => p.Prepared m n
  | .insert _ _ _ (.allocate p) => p.Prepared m
  | .insert _ _ _ (.add n p) => p.Prepared m (.node n)
  | .consolidate _ (.purge (.dispose n _ _ p)) => p.Prepared m n
  | .consolidate _ (.pull (.add _ last p)) => p.Prepared m last
  | _ => True

section Prepared

variable {T : Type} {fails : Bool} {move : Move K V} {s : State N K V T}

theorem nextAdd_prepared {first last : Ptr N} {p p' : AddPC N}
    (h : nextAdd m fails first last p = some (act, some p')) : p'.Prepared (act.onMem m) last := by
  cases p with
  | storeNext c =>
      simp only [nextAdd] at h
      split_ifs at h with hbase
      cases h
      exact ⟨hbase, Function.update_self ..⟩
  | load =>
      cases h
      trivial
  | _ =>
      simp only [nextAdd] at h
      split_ifs at h
      all_goals
        cases h
        try trivial

theorem nextMark_prepared {p p' : MarkPC N} (h : nextMark m fails n p = some (act, some p')) :
    p'.Prepared (act.onMem m) n := by
  cases p with
  | test =>
      by_cases hmark : m.markedRecent n
      · simp [nextMark, hmark] at h
      · simp only [nextMark, if_neg hmark] at h
        cases h
        trivial
  | load =>
      cases h
      trivial
  | store q again =>
      cases h
      exact Function.update_self ..
  | cas q =>
      simp only [nextMark] at h
      split_ifs at h
      all_goals
        cases h
        trivial
  | count => cases h

theorem nextDispose_prepared {p p' : DisposePC N}
    (h : nextDispose m fails n p = some (act, some p')) : p'.Prepared (act.onMem m) n := by
  cases p with
  | load =>
      cases h
      trivial
  | store q =>
      cases h
      exact Function.update_self ..
  | cas q =>
      simp only [nextDispose] at h
      split_ifs at h
      · cases h
      · cases h
        trivial

theorem afterFind_prepared (r : Option V) : (afterFind producer k r : PC N K V).Prepared m := by
  cases producer <;> cases r <;> trivial

theorem Back.pc_prepared : (back.pc : PC N K V).Prepared m := by
  cases back with
  | find producer k r => exact afterFind_prepared r
  | _ => trivial

theorem allocateAt_prepared (p : Ptr N) : (allocateAt consume k v p).Prepared m := by
  cases p <;> trivial

theorem purgeAt_prepared {link : Ptr N} {freed : ℕ} :
    (purgeTo back (purgeAt cfg link freed)).Prepared m := by
  unfold purgeAt
  split_ifs <;> trivial

theorem pullAt_prepared {current prev : Ptr N} :
    (pullTo back (pullAt current prev)).Prepared m := by
  unfold pullAt
  split_ifs <;> trivial

theorem nextPurge_prepared {p : PurgePC N} {p' : Option (PurgePC N)}
    (h : nextPurge cfg s fails p = some (act, p')) :
    (purgeTo back p').Prepared (act.onMem s.mem) := by
  cases p with
  | tail =>
      cases h
      exact purgeAt_prepared
  | prev node freed =>
      cases node with
      | node n =>
          cases h
          split_ifs <;> trivial
      | _ => cases h
  | test n link freed =>
      cases h
      split_ifs
      · exact purgeAt_prepared
      · trivial
  | bucket n link freed p =>
      obtain ⟨⟨a, q⟩, hq, heq⟩ := Option.map_eq_some_iff.1 h
      cases heq
      rcases q with q | removed
      · trivial
      · cases removed
        · exact purgeAt_prepared
        · trivial
  | unlink n link freed p =>
      obtain ⟨⟨a, q⟩, hq, heq⟩ := Option.map_eq_some_iff.1 h
      cases heq
      cases q <;> trivial
  | dispose n link freed p =>
      obtain ⟨⟨a, q⟩, hq, heq⟩ := Option.map_eq_some_iff.1 h
      cases heq
      cases q with
      | none => exact purgeAt_prepared
      | some q => exact nextDispose_prepared hq
  | _ =>
      cases h
      trivial

theorem nextPull_prepared {p : PullPC N} {p' : Option (PullPC N)}
    (h : nextPull m fails p = some (act, p')) : (pullTo back p').Prepared (act.onMem m) := by
  cases p with
  | initHead slice =>
      cases h
      exact pullAt_prepared
  | prev current last =>
      cases current with
      | node n =>
          cases h
          split_ifs <;> trivial
      | _ => cases h
  | skipStore n next last =>
      cases h
      exact pullAt_prepared
  | takenStore n next =>
      cases h
      exact pullAt_prepared
  | unlink n last p =>
      obtain ⟨⟨a, q⟩, hq, heq⟩ := Option.map_eq_some_iff.1 h
      cases heq
      cases q <;> trivial
  | appendNext n last =>
      simp only [nextPull] at h
      split_ifs at h
      cases h
      trivial
  | add first last p =>
      obtain ⟨⟨a, q⟩, hq, heq⟩ := Option.map_eq_some_iff.1 h
      cases heq
      cases q with
      | none => trivial
      | some q => exact nextAdd_prepared hq
  | _ =>
      cases h
      trivial

theorem nextConsolidate_prepared {p : ConsolidatePC N}
    (h : nextConsolidate cfg s fails back p = some (act, pc')) : pc'.Prepared (act.onMem s.mem) := by
  cases p with
  | tryLock =>
      simp only [nextConsolidate] at h
      split_ifs at h <;> cases h
      · trivial
      · exact Back.pc_prepared
  | testPurge =>
      cases h
      split_ifs <;> trivial
  | testPull =>
      cases h
      split_ifs <;> trivial
  | purge p =>
      obtain ⟨⟨a, q⟩, hq, heq⟩ := Option.map_eq_some_iff.1 h
      cases heq
      have hpurge : (purgeTo back q).Prepared (act.onMem s.mem) := nextPurge_prepared hq
      cases q <;> exact hpurge
  | pull p =>
      obtain ⟨⟨a, q⟩, hq, heq⟩ := Option.map_eq_some_iff.1 h
      cases heq
      have hpull : (pullTo back q).Prepared (act.onMem s.mem) := nextPull_prepared hq
      cases q <;> exact hpull
  | unlock =>
      cases h
      exact Back.pc_prepared
  | _ =>
      cases h
      trivial

theorem nextInsert_prepared {p : InsertPC N}
    (h : nextInsert cfg s fails consume k v p = some (act, pc')) :
    pc'.Prepared (act.onMem s.mem) := by
  cases p with
  | allocate p =>
      cases p with
      | load =>
          cases h
          exact allocateAt_prepared _
      | loadNext node =>
          simp only [nextInsert] at h
          split_ifs at h with hbase
          cases h
          exact ⟨hbase, rfl⟩
      | cas node link =>
          simp only [nextInsert] at h
          split_ifs at h
          · cases node <;> cases h
            trivial
          · cases h
            exact allocateAt_prepared _
  | bucket n p =>
      obtain ⟨⟨a, q⟩, hq, heq⟩ := Option.map_eq_some_iff.1 h
      cases heq
      cases q <;> trivial
  | add n p =>
      obtain ⟨⟨a, q⟩, hq, heq⟩ := Option.map_eq_some_iff.1 h
      cases heq
      cases q with
      | none => trivial
      | some q => exact nextAdd_prepared hq
  | reset n =>
      cases h
      cases consume <;> trivial
  | _ =>
      cases h
      trivial

variable [DecidableEq K]

theorem nextFind_prepared {p : FindPC N V}
    (h : nextFind cfg s fails producer k p = some (act, pc')) : pc'.Prepared (act.onMem s.mem) := by
  cases p with
  | lock =>
      simp only [nextFind] at h
      split_ifs at h
      cases h
      trivial
  | load =>
      cases h
      cases s.mem.buckets (cfg.keyToBucketNr k) <;> trivial
  | key n =>
      cases h
      split_ifs <;> trivial
  | next n =>
      cases h
      cases s.mem.bucketNext n <;> trivial
  | mark n r p =>
      obtain ⟨⟨a, q⟩, hq, heq⟩ := Option.map_eq_some_iff.1 h
      cases heq
      cases q with
      | none => trivial
      | some q => exact nextMark_prepared hq
  | threshold r =>
      cases h
      split_ifs
      · trivial
      · exact afterFind_prepared r
  | _ =>
      cases h
      trivial

/-- **Before a compare-exchange** the thread has stored what it publishes. -/
theorem next_prepared (h : next cfg s pc move = some (act, pc')) :
    pc'.Prepared (act.onMem s.mem) := by
  cases next_transition h with
  | call hpc c => cases c <;> trivial
  | find h => exact nextFind_prepared h
  | insert h => exact nextInsert_prepared h
  | consolidate h => exact nextConsolidate_prepared h

end Prepared

variable [DecidableEq K]

/-- The thread repeats a store and is where it was. -/
theorem Calls.repeats {P : Type} {sub : State N K V Unit → P → Option (Act N K V × Option P)}
    {emb : P → PC N K V} {done : PC N K V} {p p' : P}
    (h : Calls cfg sub emb (Option.elim · done emb))
    (hstore : sub (solo m l b (emb p')) p' = some (act, some p)) (hmem : act.onMem m = m)
    (hlru : act.onLruLock () l = l) (hbucket : act.onBucketLock () b = b) :
    Reaches cfg (solo m l b (emb p')) (solo m l b (emb p)) := by
  refine .head (h m l b p' _ _ hstore) ?_
  rw [hmem, hlru, hbucket]
  exact .refl

/-- A spurious failure of the compare-exchange sends the thread back to the store before it. -/
theorem add_retries {first last : Ptr N} {p : AddPC N} {r : Option (AddPC N)} {done : PC N K V}
    {emb : AddPC N → PC N K V}
    (hcalls : Calls cfg (fun s => nextAdd s.mem false first last) emb (Option.elim · done emb))
    (hp : p.Prepared m last) (h : nextAdd m true first last p = some (act, r)) :
    nextAdd m false first last p = some (act, r) ∨
      (act = .read ∧ ∃ p', r = some p' ∧ Reaches cfg (solo m l b (emb p')) (solo m l b (emb p))) := by
  cases p with
  | cas c =>
      obtain ⟨hbase, hlink⟩ := hp
      by_cases hfront : m.lruNext .lruHead = c
      · subst hfront
        simp only [nextAdd, Bool.true_eq_false, and_false, if_false] at h
        cases h
        have hsame : m.setNext last (m.lruNext .lruHead) = m := by
          rw [← hlink, Mem.setNext, Function.update_eq_self]
        exact Or.inr ⟨rfl, _, rfl, hcalls.repeats (if_pos hbase) hsame rfl rfl⟩
      · refine Or.inl ?_
        simp only [nextAdd, hfront, false_and, if_false] at h ⊢
        exact h
  | _ => exact Or.inl h

theorem mark_retries {p : MarkPC N} {r : Option (MarkPC N)} {done : PC N K V}
    {emb : MarkPC N → PC N K V}
    (hcalls : Calls cfg (fun s => nextMark s.mem false n) emb (Option.elim · done emb))
    (hp : p.Prepared m n) (h : nextMark m true n p = some (act, r)) :
    nextMark m false n p = some (act, r) ∨
      (act = .read ∧ ∃ p', r = some p' ∧ Reaches cfg (solo m l b (emb p')) (solo m l b (emb p))) := by
  cases p with
  | cas c =>
      by_cases hhead : m.recentHead = c
      · subst hhead
        simp only [nextMark, Bool.true_eq_false, and_false, if_false] at h
        cases h
        have hlink : m.recentNext n = m.recentHead := hp
        have hsame : m.setRecent n m.recentHead = m := by
          rw [← hlink, Mem.setRecent, Function.update_eq_self]
        exact Or.inr ⟨rfl, _, rfl, hcalls.repeats rfl hsame rfl rfl⟩
      · refine Or.inl ?_
        simp only [nextMark, hhead, false_and, if_false] at h ⊢
        exact h
  | _ => exact Or.inl h

theorem dispose_retries {p : DisposePC N} {r : Option (DisposePC N)} {done : PC N K V}
    {emb : DisposePC N → PC N K V}
    (hcalls : Calls cfg (fun s => nextDispose s.mem false n) emb (Option.elim · done emb))
    (hp : p.Prepared m n) (h : nextDispose m true n p = some (act, r)) :
    nextDispose m false n p = some (act, r) ∨
      (act = .read ∧ ∃ p', r = some p' ∧ Reaches cfg (solo m l b (emb p')) (solo m l b (emb p))) := by
  cases p with
  | cas c =>
      by_cases hhead : m.emptyHead = c
      · subst hhead
        simp only [nextDispose, Bool.true_eq_false, and_false, if_false] at h
        cases h
        have hlink : m.lruNext (.node n) = m.emptyHead := hp
        have hsame : m.setNext (.node n) m.emptyHead = m := by
          rw [← hlink, Mem.setNext, Function.update_eq_self]
        exact Or.inr ⟨rfl, _, rfl, hcalls.repeats rfl hsame rfl rfl⟩
      · refine Or.inl ?_
        simp only [nextDispose, hhead, false_and, if_false] at h ⊢
        exact h
  | _ => exact Or.inl h

/-- **A step with a spurious failure** is a step without one, or the thread comes back to where it
    stood. -/
theorem next_retries (hp : pc.Prepared m)
    (h : next cfg (solo m l b pc) pc (.go true) = some (act, pc')) :
    next cfg (solo m l b pc) pc (.go false) = some (act, pc') ∨
      (act = .read ∧ Reaches cfg (solo m l b pc') (solo m l b pc)) := by
  cases pc with
  | idle => cases h
  | delivered k v => cases h
  | find producer k p =>
      cases p with
      | mark n r p =>
          obtain ⟨⟨a, q⟩, hq, heq⟩ := Option.map_eq_some_iff.1 h
          cases heq
          rcases mark_retries (find_calls_mark r) hp hq with hq' | ⟨hread, p', rfl, hback⟩
          · exact Or.inl (by simp only [next, nextFind, hq', Option.map_some])
          · exact Or.inr ⟨hread, hback⟩
      | _ => exact Or.inl h
  | insert consume k v p =>
      cases p with
      | allocate p =>
          cases p with
          | cas node link =>
              obtain ⟨hbase, hlink⟩ := hp
              by_cases hhead : m.emptyHead = node
              · -- the head is loaded again, and then the same link
                simp only [next, nextInsert, Bool.true_eq_false, and_false, if_false] at h
                cases h
                refine Or.inr ⟨rfl, ?_⟩
                rw [hhead]
                cases node with
                | null => cases hbase
                | dummy => cases hbase
                | _ =>
                    refine .read rfl ?_
                    rw [← hlink]
                    exact .refl
              · refine Or.inl ?_
                simp only [next, nextInsert, hhead, false_and, if_false] at h ⊢
                exact h
          | _ => exact Or.inl h
      | add n p =>
          obtain ⟨⟨a, q⟩, hq, heq⟩ := Option.map_eq_some_iff.1 h
          cases heq
          rcases add_retries insert_calls_add hp hq with hq' | ⟨hread, p', rfl, hback⟩
          · exact Or.inl (by simp only [next, nextInsert, hq', Option.map_some])
          · exact Or.inr ⟨hread, hback⟩
      | _ => exact Or.inl h
  | consolidate back p =>
      cases p with
      | purge p =>
          cases p with
          | dispose n link freed p =>
              obtain ⟨⟨a, q⟩, hpurge, heq⟩ := Option.map_eq_some_iff.1 h
              cases heq
              obtain ⟨⟨a', q'⟩, hq, heq⟩ := Option.map_eq_some_iff.1 hpurge
              cases heq
              rcases dispose_retries purge_calls_dispose hp hq with hq' | ⟨hread, p', rfl, hback⟩
              · exact Or.inl (by simp only [next, nextConsolidate, nextPurge, hq', Option.map_some])
              · exact Or.inr ⟨hread, hback⟩
          | prev node freed => cases node <;> exact Or.inl h
          | _ => exact Or.inl h
      | pull p =>
          cases p with
          | add first last p =>
              obtain ⟨⟨a, q⟩, hpull, heq⟩ := Option.map_eq_some_iff.1 h
              cases heq
              obtain ⟨⟨a', q'⟩, hq, heq⟩ := Option.map_eq_some_iff.1 hpull
              cases heq
              rcases add_retries pull_calls_add hp hq with hq' | ⟨hread, p', rfl, hback⟩
              · exact Or.inl (by simp only [next, nextConsolidate, nextPull, hq', Option.map_some])
              · exact Or.inr ⟨hread, hback⟩
          | prev current last => cases current <;> exact Or.inl h
          | _ => exact Or.inl h
      | _ => exact Or.inl h

/-! ## The thread goes one way -/

theorem advances_unique : Relator.RightUnique (Advances (V := V) cfg) := by
  rintro s s₁ s₂ ⟨act₁, h₁⟩ ⟨act₂, h₂⟩
  rw [h₁] at h₂
  cases h₂
  rfl

theorem Advances.running (h : Advances cfg s s') : (s.pc ()).atRest = false := by
  obtain ⟨act, hstep⟩ := h
  obtain ⟨pc', hnext, -⟩ := step_eq hstep
  exact next_go hnext

theorem Reaches.eq_of_atRest (h : Reaches cfg s s') (hrest : (s.pc ()).atRest = true) : s = s' := by
  rcases Relation.ReflTransGen.cases_head h with heq | ⟨s₁, hgo, -⟩
  · exact heq
  · rw [hgo.running] at hrest
    cases hrest

/-- The running call returns. -/
def Returns (cfg : Config N K) (s : State N K V Unit) : Prop :=
  ∃ s', Reaches cfg s s' ∧ (s'.pc ()).atRest = true

theorem Returns.of_reaches (h : Returns cfg s) (hreach : Reaches cfg s s') : Returns cfg s' := by
  obtain ⟨last, hlast, hrest⟩ := h
  rcases Relation.ReflTransGen.total_of_right_unique advances_unique hreach hlast with hon | hback
  · exact ⟨last, hon, hrest⟩
  · rw [← Reaches.eq_of_atRest hback hrest]
    exact ⟨last, .refl, hrest⟩

/-- A thread that comes back to such a state again and again does not return. -/
theorem not_returns_of_rounds {P : State N K V Unit → Prop}
    (hround : ∀ s, P s → ∃ s', P s' ∧ Relation.TransGen (Advances cfg) s s') (hs : P s) :
    ¬ Returns cfg s := by
  rintro ⟨last, hlast, hrest⟩
  suffices hnone : ∀ x, P x → ¬ Reaches cfg s x from hnone s hs .refl
  clear hs
  induction hlast using Relation.ReflTransGen.head_induction_on with
  | refl =>
      intro x hx hreach
      obtain ⟨y, -, hy⟩ := hround x hx
      obtain ⟨z, hgo, -⟩ := Relation.TransGen.head'_iff.1 hy
      rw [← hreach.eq_of_atRest hrest, Advances] at hgo
      exact absurd hrest (by simp [Advances.running hgo])
  | @head s₀ s₁ hgo _ ih =>
      intro x hx hreach
      rcases Relation.ReflTransGen.cases_head hreach with rfl | ⟨z, hz, hrest⟩
      · obtain ⟨y, hPy, hy⟩ := hround s₀ hx
        obtain ⟨z, hz, hzy⟩ := Relation.TransGen.head'_iff.1 hy
        rw [advances_unique hz hgo] at hzy
        exact ih y hPy hzy
      · rw [advances_unique hz hgo] at hrest
        exact ih x hx hrest

/-- The pool is empty and nothing is evictable: `allocateNode` asks for purges that free nothing. -/
theorem allocateNode_not_returns {a : Lists N} (h : Links cfg m a) (hpull : m.pullRequest = false)
    (hpool : a.pool = []) (hidle : a.evictable = []) :
    ¬ Returns cfg (solo m none unlocked (.insert consume k v (.allocate .load))) := by
  refine not_returns_of_rounds (P := fun s => ∃ m : Mem N K V, Links cfg m a ∧
    m.pullRequest = false ∧ s = solo m none unlocked (.insert consume k v (.allocate .load))) ?_
    ⟨m, h, hpull, rfl⟩
  rintro s ⟨m₁, h₁, hpull₁, rfl⟩
  obtain ⟨before, m₂, hreq, -, hlinks, hsame, -⟩ := requestPurge_spec h₁ hpull₁ (Nat.lt_succ_self N)
  have hempty : m₁.emptyHead = .null := by
    have := h₁.pool
    rwa [hpool, chain_nil] at this
  have hpurge : a.purge cfg.purgeThreshold = a := by
    rw [Lists.purge, hidle, List.take_nil, Lists.evict_nil]
  rw [hpurge] at hlinks
  refine ⟨_, ⟨{ m₂ with purgeRequest := false }, hlinks.flags _ _ _ _, hsame.pullRequest.trans hpull₁,
    rfl⟩, ?_⟩
  refine Relation.TransGen.head' (solo_advances rfl) ?_
  show Reaches cfg (solo m₁ none unlocked (allocateAt consume k v m₁.emptyHead)) _
  rw [hempty]
  exact .head rfl (consolidateCache_reaches hreq)

/-! ## Runs -/

/-- The call `op`, made in the memory `m`, completes in `m'`, and leaves a thread that makes it
    alone at `pc`. -/
inductive Rests (cfg : Config N K) (m : Mem N K V) :
    Op K V → Mem N K V → List (Event N K V) → PC N K V → Prop
  | find {k : K} {fuel : ℕ} {r : Option V} {m' : Mem N K V} {trace : List (Event N K V)} :
      DeferredLru.find cfg fuel m k = .returned r m' trace → Rests cfg m (.find k) m' trace .idle
  | insert {k : K} {v : V} {fuel : ℕ} {m' : Mem N K V} {trace : List (Event N K V)} :
      DeferredLru.insert cfg fuel m k v = .returned () m' trace →
      Rests cfg m (.insert k v) m' trace .idle
  | consume {k : K} {x r : V} {fuel : ℕ} {m' : Mem N K V} {trace : List (Event N K V)} :
      DeferredLru.consumeCachedOrCompute cfg fuel m k x = .returned r m' trace →
      Rests cfg m (.consumeCachedOrCompute k x) m' trace (.delivered k r)

section Rests

variable {op : Op K V} {trace : List (Event N K V)}

theorem Rests.completes (h : Rests cfg m op m' trace pc) : Completes cfg m op m' trace := by
  cases h with
  | find h => exact .find h
  | insert h => exact .insert h
  | consume h => exact .consume h

theorem Rests.atRest (h : Rests cfg m op m' trace pc) : pc.atRest = true := by
  cases h <;> rfl

/-- **A completed call** is what the thread does alone. -/
theorem Rests.reaches (h : Rests cfg m op m' trace pc) :
    Reaches cfg (solo m none unlocked (callOf op).pc) (solo m' none unlocked pc) := by
  cases h with
  | find h => exact find_reaches h
  | insert h => exact insert_reaches h
  | consume h => exact consumeCachedOrCompute_reaches h

end Rests

/-- An `insert` completes, or it has neither a pool node nor an evictable one and asks for purges. -/
theorem insert_rests_or {a : Lists N} (h : Rep cfg m a) (k : K) (v : V) :
    (∃ fuel m' trace, DeferredLru.insert cfg fuel m k v = .returned () m' trace) ∨
      ∀ consume, ¬ Returns cfg (solo m none unlocked (.insert consume k v .count)) := by
  by_cases havail : a.pool ≠ [] ∨ a.evictable ≠ []
  · obtain ⟨_, _, _, m', events, hrun, -⟩ := insert_spec h havail (Nat.lt_succ_self N) k v
    exact Or.inl ⟨N + 1, m', _, hrun⟩
  · refine Or.inr (fun consume hret => ?_)
    simp only [ne_eq, not_or, not_not] at havail
    have hlinks : Links cfg { m with currentElementCount := m.currentElementCount + 1 } a :=
      h.toLinks.flags _ _ _ _
    exact allocateNode_not_returns hlinks h.noPull havail.1 havail.2
      (hret.of_reaches (.head rfl .refl))

/-- A call completes, or the thread that makes it alone does not return. -/
theorem rests_or_not_returns {a : Lists N} (h : Rep cfg m a) (op : Op K V) :
    (∃ m' trace pc, Rests cfg m op m' trace pc) ∨
      ¬ Returns cfg (solo m none unlocked (callOf op).pc) := by
  have hfind : ∀ k : K, ∃ r m' trace, DeferredLru.find cfg (N + 1) m k = .returned r m' trace ∧
      (r = none → m' = m) := by
    intro k
    cases hk : a.lookup cfg m k with
    | none => exact ⟨_, _, _, find_miss h hk (Nat.lt_succ_self N), fun _ => rfl⟩
    | some n =>
        obtain ⟨m', _, _, hrun, -⟩ := find_hit h hk (Nat.lt_succ_self N)
        exact ⟨_, m', _, hrun, fun hr => by cases hr⟩
  cases op with
  | find k =>
      obtain ⟨r, m', trace, hrun, -⟩ := hfind k
      exact Or.inl ⟨m', trace, _, .find hrun⟩
  | insert k v =>
      rcases insert_rests_or h k v with ⟨fuel, m', trace, hrun⟩ | hnever
      · exact Or.inl ⟨m', trace, _, .insert hrun⟩
      · exact Or.inr (hnever false)
  | consumeCachedOrCompute k x =>
      obtain ⟨r, m₁, trace, hrun, hmiss⟩ := hfind k
      cases r with
      | some v =>
          have hcons : DeferredLru.consumeCachedOrCompute cfg (N + 1) m k x =
              .returned v m₁ trace := by
            rw [DeferredLru.consumeCachedOrCompute, hrun]
          exact Or.inl ⟨m₁, trace, _, .consume hcons⟩
      | none =>
          -- a miss leaves the memory as it is
          rcases insert_rests_or h k x with ⟨fuel, m', trace', hins⟩ | hnever
          · have hcons : DeferredLru.consumeCachedOrCompute cfg (max (N + 1) fuel) m k x =
                .returned x m' (trace ++ trace') := by
              rw [DeferredLru.consumeCachedOrCompute, find_mono hrun (le_max_left ..), hmiss rfl]
              dsimp only
              rw [insert_mono hins (le_max_right ..)]
            exact Or.inl ⟨m', _, _, .consume hcons⟩
          · refine Or.inr (fun hret => hnever true (hret.of_reaches ?_))
            rw [hmiss rfl] at hrun
            exact find_reaches hrun

theorem next_call_read {c : Call K V} (h : next cfg s pc (.call c) = some (act, pc')) :
    act = .read := by
  cases next_transition h
  rfl

/-- The calls `ops` have been made alone, one after the other, and the thread rests at `pc`. -/
def Alone [Inhabited K] [Inhabited V] (cfg : Config N K) (ops : List (Op K V)) (m : Mem N K V)
    (pc : PC N K V) : Prop :=
  (ops = [] ∧ m = allocateMemory N K V ∧ pc = .idle) ∨
    ∃ past op m₀ trace₀ trace, ops = past ++ [op] ∧ DeferredLru.Run cfg past m₀ trace₀ ∧
      Rests cfg m₀ op m trace pc

section Run

variable [Inhabited K] [Inhabited V] {ops : List (Op K V)}

theorem Alone.run (h : Alone cfg ops m pc) : ∃ trace, DeferredLru.Run cfg ops m trace := by
  rcases h with ⟨rfl, rfl, -⟩ | ⟨past, op, m₀, trace₀, trace, rfl, hrun, hrests⟩
  · exact ⟨[], .start⟩
  · exact ⟨_, hrun.call hrests.completes⟩

theorem Alone.atRest (h : Alone cfg ops m pc) : pc.atRest = true := by
  rcases h with ⟨-, -, rfl⟩ | ⟨_, _, _, _, _, -, -, hrests⟩
  · rfl
  · exact hrests.atRest

/-- Only calls of the public interface. -/
def Public (_ : State N K V Unit) (label : Label N K V Unit) : Prop := label.move.isPublic = true

/-- The running call, if any, ends as its function does. -/
def Ends (cfg : Config N K) (s : State N K V Unit) (trace : List (Label N K V Unit)) : Prop :=
  ∃ ops, callsOf () trace = ops.map callOf ∧
    (¬ Returns cfg s ∨ ∃ m pc, Alone cfg ops m pc ∧ Reaches cfg s (solo m none unlocked pc))

theorem Ends.go {trace : List (Label N K V Unit)} {fails : Bool} (h : Ends cfg s trace)
    (hgo : Advances cfg s s' ∨ Reaches cfg s' s) :
    Ends cfg s' (trace ++ [⟨(), pc, .go fails, act⟩]) := by
  obtain ⟨ops, hops, hend⟩ := h
  refine ⟨ops, callsOf_go.trans hops, ?_⟩
  rcases hend with hnever | ⟨m, pc, halone, hreach⟩
  · refine Or.inl (fun hret => hnever ?_)
    rcases hgo with hgo | hback
    · obtain ⟨last, hlast, hrest⟩ := hret
      exact ⟨last, Relation.ReflTransGen.head hgo hlast, hrest⟩
    · exact hret.of_reaches hback
  · refine Or.inr ⟨m, pc, halone, ?_⟩
    rcases hgo with hgo | hback
    · rcases Relation.ReflTransGen.cases_head hreach with rfl | ⟨s₁, hgo', hrest⟩
      · exact absurd halone.atRest (by simp [hgo.running])
      · rwa [advances_unique hgo hgo']
    · exact hback.trans hreach

/-- **A new call** is made in the state in which the last one left the cache. -/
theorem Ends.call {trace : List (Label N K V Unit)} {op : Op K V} (h : Ends cfg s trace)
    (hrest : (s.pc ()).atRest = true) :
    Ends cfg (solo s.mem s.lruLock s.bucketLock (callOf op).pc)
      (trace ++ [⟨(), s.pc (), .call (callOf op), act⟩]) := by
  obtain ⟨ops, hops, hend⟩ := h
  have hcalls : callsOf () (trace ++ [⟨(), s.pc (), .call (callOf op), act⟩]) =
      (ops ++ [op]).map callOf := by
    unfold callsOf at hops ⊢
    rw [filterMap_concat, hops, List.map_append]
    rfl
  refine ⟨ops ++ [op], hcalls, ?_⟩
  rcases hend with hnever | ⟨m, pc, halone, hreach⟩
  · exact absurd ⟨s, .refl, hrest⟩ hnever
  · rw [hreach.eq_of_atRest hrest]
    obtain ⟨trace₀, hrun⟩ := halone.run
    obtain ⟨a, ha⟩ := hrun.evolves
    rcases rests_or_not_returns ha.rep op with ⟨m', trace', pc', hrests⟩ | hnever
    · exact Or.inr ⟨m', pc', Or.inr ⟨ops, op, m, trace₀, trace', rfl, hrun, hrests⟩, hrests.reaches⟩
    · exact Or.inl hnever

theorem Run.prepared {ok : State N K V Unit → Label N K V Unit → Prop}
    {trace : List (Label N K V Unit)} (h : Run cfg ok s trace) : (s.pc ()).Prepared s.mem := by
  induction h with
  | start => trivial
  | step _ hstep _ _ =>
      obtain ⟨pc', hnext, rfl⟩ := step_eq hstep
      rw [State.apply_eq_solo]
      exact next_prepared hnext

theorem Run.ends {trace : List (Label N K V Unit)} (h : Run cfg Public s trace) :
    Ends cfg s trace := by
  induction h with
  | start => exact ⟨[], rfl, Or.inr ⟨_, _, Or.inl ⟨rfl, rfl, rfl⟩, .refl⟩⟩
  | @step s s' trace t move act hrun hstep hok ih =>
      cases move with
      | go fails =>
          refine ih.go ?_
          cases fails with
          | false => exact Or.inl ⟨act, hstep⟩
          | true =>
              obtain ⟨pc', hnext, rfl⟩ := step_eq hstep
              -- the state before is on the way on, so where the call ends stays the same
              rcases next_retries hrun.prepared hnext with hgo | ⟨rfl, hback⟩
              · exact Or.inl (solo_advances hgo)
              · exact Or.inr hback
      | call c =>
          obtain ⟨pc', hnext, rfl⟩ := step_eq hstep
          obtain ⟨hrest, rfl⟩ := next_call hnext
          have hread : act = .read := next_call_read hnext
          obtain ⟨op, rfl⟩ : ∃ op : Op K V, c = callOf op := by
            cases c with
            | find k => exact ⟨.find k, rfl⟩
            | insert k v => exact ⟨.insert k v, rfl⟩
            | consumeCachedOrCompute k x => exact ⟨.consumeCachedOrCompute k x, rfl⟩
            | requestPull => cases hok
            | requestPurge => cases hok
          rw [State.apply_eq_solo]
          rw [hread]
          exact ih.call hrest

/-- **Refinement.** Whenever a thread that uses the cache alone is at rest, the memory is the one that
    the single-threaded functions compute for its calls, no lock is taken, and what its last call has
    delivered is what the function returns. -/
theorem Run.refines {trace : List (Label N K V Unit)} (h : Run cfg Public s trace)
    (hrest : (s.pc ()).atRest = true) :
    s.lruLock = none ∧ (∀ i, s.bucketLock i = none) ∧ ∃ ops : List (Op K V),
      callsOf () trace = ops.map callOf ∧ Alone cfg ops s.mem (s.pc ()) ∧
      ∃ events, DeferredLru.Run cfg ops s.mem events := by
  obtain ⟨ops, hops, hnever | ⟨m, pc, halone, hreach⟩⟩ := h.ends
  · exact absurd ⟨s, .refl, hrest⟩ hnever
  · rw [hreach.eq_of_atRest hrest]
    exact ⟨rfl, fun _ => rfl, ops, hops, halone, halone.run⟩

/-- A thread inserts key 10, with a spurious failure on the way, and hits it. -/
theorem Run.refines_retry : ∃ (s : State 2 ℕ ℕ Unit) (trace : List (Label 2 ℕ ℕ Unit)),
    answersOf () trace = [.find 10 none, .insert 0 10 100, .find 10 (some 100)] ∧
      s.lruLock = none ∧ (∀ i, s.bucketLock i = none) ∧ ∃ ops : List (Op ℕ ℕ),
        callsOf () trace = ops.map callOf ∧ Alone twoNodes ops s.mem (s.pc ()) ∧
        ∃ events, DeferredLru.Run twoNodes ops s.mem events := by
  obtain ⟨s, trace, hrun, hgood⟩ := Run.of_play twoNodes Public (fun _ label => label.move.isPublic)
    (fun _ _ h => h)
    (((), .call (.consumeCachedOrCompute 10 100)) :: goes () 7 ++ ((), .go true) :: goes () 17 ++
      ((), .call (.consumeCachedOrCompute 10 200)) :: goes () 23)
    (fun (s : State 2 ℕ ℕ Unit) trace => (s.pc ()).atRest = true ∧
      answersOf () trace = [.find 10 none, .insert 0 10 100, .find 10 (some 100)]) (by decide +kernel)
  obtain ⟨hrest, hanswers⟩ := of_decide_eq_true hgood
  exact ⟨s, trace, hanswers, hrun.refines hrest⟩

/-! ## Every sequence of calls is played -/

theorem Run.reaches {trace : List (Label N K V Unit)} (h : Run cfg Public s trace)
    (hreach : Reaches cfg s s') :
    ∃ trace', Run cfg Public s' trace' ∧ callsOf () trace' = callsOf () trace := by
  induction hreach with
  | refl => exact ⟨trace, h, rfl⟩
  | @tail s₁ s₂ _ hgo ih =>
      obtain ⟨trace', hrun, hcalls⟩ := ih
      obtain ⟨act, hstep⟩ := hgo
      exact ⟨_, hrun.step hstep rfl, callsOf_go.trans hcalls⟩

theorem Run.call {trace : List (Label N K V Unit)} {op : Op K V} {events : List (Event N K V)}
    (h : Run cfg Public (solo m none unlocked pc) trace) (hrest : pc.atRest = true)
    (hrests : Rests cfg m op m' events pc') :
    ∃ trace', Run cfg Public (solo m' none unlocked pc') trace' ∧
      callsOf () trace' = callsOf () trace ++ [callOf op] := by
  have hnext : next cfg (solo m none unlocked pc) pc (.call (callOf op)) =
      some (.read, (callOf op).pc) := by
    cases pc with
    | idle => rfl
    | delivered k v => rfl
    | _ => cases hrest
  have hstep : Threads.step cfg (solo m none unlocked pc) () (.call (callOf op)) =
      some (Act.read, solo m none unlocked (callOf op).pc) := by
    rw [Threads.step, hnext, Option.map_some]
    exact congrArg (fun s => some (Act.read, s)) (State.apply_eq_solo _ () .read (callOf op).pc)
  have hpublic : Public (solo m none unlocked pc) ⟨(), pc, .call (callOf op), .read⟩ := by
    cases op <;> rfl
  obtain ⟨trace', hrun, hcalls⟩ := (h.step hstep hpublic).reaches hrests.reaches
  refine ⟨trace', hrun, hcalls.trans ?_⟩
  unfold callsOf
  rw [filterMap_concat]
  rfl

theorem Run.played {events : List (Event N K V)} (h : DeferredLru.Run cfg ops m events) :
    ∃ pc trace, pc.atRest = true ∧ Run cfg Public (solo m none unlocked pc) trace ∧
      callsOf () trace = ops.map callOf := by
  induction h with
  | start => exact ⟨.idle, [], rfl, .start, rfl⟩
  | @call ops op m m' events events' _ hcall ih =>
      obtain ⟨pc, trace, hrest, hrun, hcalls⟩ := ih
      obtain ⟨pc', hrests⟩ : ∃ pc', Rests cfg m op m' events' pc' := by
        cases hcall with
        | find h => exact ⟨_, .find h⟩
        | insert h => exact ⟨_, .insert h⟩
        | consume h => exact ⟨_, .consume h⟩
      obtain ⟨trace', hrun', hcalls'⟩ := hrun.call hrest hrests
      refine ⟨pc', trace', hrests.atRest, hrun', ?_⟩
      rw [hcalls', hcalls, List.map_append]
      rfl

/-- **The two models agree.** The states in which a thread that uses the cache alone can come to rest
    are exactly those that the single-threaded functions compute. -/
theorem alone_iff (cfg : Config N K) (ops : List (Op K V)) (m : Mem N K V) (pc : PC N K V) :
    Alone cfg ops m pc ↔ pc.atRest = true ∧ ∃ trace, Run cfg Public (solo m none unlocked pc) trace ∧
      callsOf () trace = ops.map callOf := by
  constructor
  · intro h
    refine ⟨h.atRest, ?_⟩
    rcases h with ⟨rfl, rfl, rfl⟩ | ⟨past, op, m₀, events₀, events, rfl, hrun, hrests⟩
    · exact ⟨[], .start, rfl⟩
    · obtain ⟨pc₀, trace, hrest, hplayed, hcalls⟩ := Run.played hrun
      obtain ⟨trace', hplayed', hcalls'⟩ := hplayed.call hrest hrests
      refine ⟨trace', hplayed', ?_⟩
      rw [hcalls', hcalls, List.map_append]
      rfl
  · rintro ⟨hrest, trace, hrun, hcalls⟩
    obtain ⟨ops', hops', hnever | ⟨m', pc', halone, hreach⟩⟩ := hrun.ends
    · exact absurd ⟨_, .refl, hrest⟩ hnever
    · have heq := hreach.eq_of_atRest hrest
      have hsame : ops = ops' := callOf_injective.list_map (hcalls.symm.trans hops')
      obtain ⟨rfl, -, -, hpc⟩ := State.mk.injEq .. ▸ heq
      rw [hsame, show pc = pc' from congrFun hpc ()]
      exact halone

end Run

end DeferredLru.Threads
