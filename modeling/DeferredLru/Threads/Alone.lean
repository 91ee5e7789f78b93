import DeferredLru.Deferred.Termination
import DeferredLru.Threads.ProgramOrder

set_option autoImplicit false

/-! # One thread runs the single-threaded code

`Deferred/Code.lean` and `Machine.lean` are two models of one source: whole functions there, single
accesses here. A thread that runs alone makes, access by access, what the functions do: from the entry
of a call it reaches its return with the memory that the function computes and with all locks free
(`find_reaches`, `insert_reaches`, `consumeCachedOrCompute_reaches`). For each function there is one
such lemma; a callee is followed wherever its caller embeds it (`Calls`). -/

namespace DeferredLru.Threads

open Intrusive

variable {N : ℕ} {K V : Type} [DecidableEq K] {cfg : Config N K} {m m' : Mem N K V}
  {l : Option Unit} {b : ℕ → Option Unit} {act : Act N K V} {pc pc' : PC N K V}
  {s s' : State N K V Unit} {n : Fin N} {producer : Option V} {k : K} {v : V} {consume : Bool}
  {back : Back K V} {fuel inner : ℕ}

/-! ## A thread alone -/

/-- The state with one thread, which stands at `pc`. -/
abbrev solo (m : Mem N K V) (l : Option Unit) (b : ℕ → Option Unit) (pc : PC N K V) :
    State N K V Unit :=
  ⟨m, l, b, fun _ => pc⟩

/-- The thread makes its next access, and no compare-exchange fails. -/
def Advances (cfg : Config N K) (s s' : State N K V Unit) : Prop :=
  ∃ act, step cfg s () (.go false) = some (act, s')

/-- The thread gets there by accesses of the running call. -/
def Reaches (cfg : Config N K) : State N K V Unit → State N K V Unit → Prop :=
  Relation.ReflTransGen (Advances cfg)

omit [DecidableEq K] in
theorem State.apply_eq_solo (s : State N K V Unit) (t : Unit) (act : Act N K V) (pc : PC N K V) :
    s.apply t act pc =
      solo (act.onMem s.mem) (act.onLruLock () s.lruLock) (act.onBucketLock () s.bucketLock) pc := by
  have hpc : Function.update s.pc t pc = fun _ => pc := by
    funext u
    exact Function.update_self ..
  rw [State.apply, hpc]

theorem solo_advances (h : next cfg (solo m l b pc) pc (.go false) = some (act, pc')) :
    Advances cfg (solo m l b pc)
      (solo (act.onMem m) (act.onLruLock () l) (act.onBucketLock () b) pc') := by
  refine ⟨act, ?_⟩
  rw [step, h, Option.map_some]
  exact congrArg (fun s => some (act, s)) (State.apply_eq_solo _ () act pc')

theorem Reaches.head (h : next cfg (solo m l b pc) pc (.go false) = some (act, pc'))
    (hrest : Reaches cfg (solo (act.onMem m) (act.onLruLock () l) (act.onBucketLock () b) pc') s') :
    Reaches cfg (solo m l b pc) s' :=
  Relation.ReflTransGen.head (solo_advances h) hrest

theorem Reaches.trans {s₁ : State N K V Unit} (h : Reaches cfg s s₁) (hrest : Reaches cfg s₁ s') :
    Reaches cfg s s' :=
  Relation.ReflTransGen.trans h hrest

/-- An access that leaves the memory and the locks as they are. -/
theorem Reaches.read (h : next cfg (solo m l b pc) pc (.go false) = some (.read, pc'))
    (hrest : Reaches cfg (solo m l b pc') s') : Reaches cfg (solo m l b pc) s' :=
  Reaches.head h hrest

/-- No bucket lock is taken. -/
def unlocked : ℕ → Option Unit := fun _ => none

/-- The lock of bucket `i` alone is taken. -/
def locked (i : ℕ) : ℕ → Option Unit := Function.update unlocked (lockIndex i) (some ())

theorem Reaches.unlock {i : ℕ}
    (h : next cfg (solo m l (locked i) pc) pc (.go false) = some (.unlockBucket i, pc'))
    (hrest : Reaches cfg (solo m l unlocked pc') s') : Reaches cfg (solo m l (locked i) pc) s' := by
  have hfree : Function.update (locked i) (lockIndex i) none = unlocked := by
    rw [locked, Function.update_idem]
    exact Function.update_eq_self _ unlocked
  refine Reaches.head h ?_
  show Reaches cfg (solo m l (Function.update (locked i) (lockIndex i) none) pc') s'
  rwa [hfree]

/-- A function that others call: `emb` is where the caller stands meanwhile, `ret` where the thread is
    after an access. -/
def Calls {P R : Type} (cfg : Config N K)
    (sub : State N K V Unit → P → Option (Act N K V × R)) (emb : P → PC N K V) (ret : R → PC N K V) :
    Prop :=
  ∀ m l b p act r, sub (solo m l b (emb p)) p = some (act, r) →
    next cfg (solo m l b (emb p)) (emb p) (.go false) = some (act, ret r)

theorem next_calls :
    Calls cfg (fun s p => next cfg s p (.go false)) (fun p => p) (fun p : PC N K V => p) :=
  fun _ _ _ _ _ _ h => h

/-- A function that calls another has its access made, and its own counter computed from the one of
    the other. -/
theorem Calls.nest {P R P' R' : Type} {sub : State N K V Unit → P → Option (Act N K V × R)}
    {sub' : State N K V Unit → P' → Option (Act N K V × R')} {emb : P' → PC N K V}
    {ret' : R' → PC N K V} {ret : R → PC N K V} {e : P → P'} {f : Act N K V × R → Act N K V × R'}
    (h : Calls cfg sub' emb ret') (hmap : ∀ s p, sub' s (e p) = (sub s p).map f)
    (hact : ∀ act r, (f (act, r)).1 = act) (hret : ∀ act r, ret' (f (act, r)).2 = ret r) :
    Calls cfg sub (fun p => emb (e p)) ret := by
  intro m l b p act r hr
  have hsub : sub' (solo m l b (emb (e p))) (e p) = some ((f (act, r)).1, (f (act, r)).2) := by
    rw [hmap, hr]
    rfl
  have hnext := h m l b (e p) _ _ hsub
  rwa [hact, hret] at hnext

/-! ## LRU list routines -/

section Callees

variable {done : PC N K V}

theorem removeNodeFromLru_reaches {emb : UnlinkPC N → PC N K V}
    (h : Calls cfg (fun s => nextUnlink s.mem n) emb (Option.elim · done emb))
    (hrun : removeNodeFromLru m (.node n) = some m') :
    Reaches cfg (solo m l b (emb .loadPrev)) (solo m' l b done) := by
  have hnode : (Ptr.node n).isBase = true := rfl
  simp only [removeNodeFromLru, Mem.loadPrev, Mem.loadNext, hnode, if_true, Mem.storeNext,
    Mem.storePrev, Option.bind_eq_bind, Option.bind_some, Option.bind_eq_some_iff,
    Option.ite_none_right_eq_some] at hrun
  obtain ⟨m₁, ⟨hprev, heq₁⟩, hnext, heq⟩ := hrun
  cases heq₁
  cases heq
  refine .read (h m l b .loadPrev _ _ rfl) ?_
  refine .read (h m l b (.loadNext _) _ _ rfl) ?_
  refine .head (h m l b (.storeNext _ _) _ _ (if_pos hprev)) ?_
  exact .head (h _ l b (.storePrev _ _) _ _ (if_pos hnext)) .refl

theorem addSublistToLruHead_reaches {first last : Ptr N} {emb : AddPC N → PC N K V}
    (h : Calls cfg (fun s => nextAdd s.mem false first last) emb (Option.elim · done emb))
    (hrun : addSublistToLruHead m first last = some m') :
    Reaches cfg (solo m l b (emb .storePrev)) (solo m' l b done) := by
  simp only [addSublistToLruHead, Mem.storeNext, Mem.storePrev, Option.bind_eq_bind,
    Option.bind_eq_some_iff, Option.ite_none_right_eq_some] at hrun
  obtain ⟨m₁, ⟨hfirst, heq₁⟩, m₂, ⟨hlast, heq₂⟩, hrepair, heq⟩ := hrun
  cases heq₁
  cases heq₂
  cases heq
  -- the front is still the one just read
  have hfront : ((m.setPrev first .lruHead).setNext last (m.lruNext .lruHead)).lruNext .lruHead =
      m.lruNext .lruHead := by
    simp only [Mem.setNext, Mem.setPrev, Function.update_apply]
    split_ifs <;> rfl
  refine .head (h m l b .storePrev _ _ (if_pos hfirst)) ?_
  refine .read (h _ l b .load _ _ rfl) ?_
  refine .head (h _ l b (.storeNext _) _ _ (if_pos hlast)) ?_
  refine .head (h _ l b (.cas _) _ _ (if_pos ⟨hfront, rfl⟩)) ?_
  exact .head (h _ l b (.repair _) _ _ (if_pos hrepair)) .refl

/-! ## Recent list routines -/

theorem markNodeRecent_reaches {emb : MarkPC N → PC N K V}
    (h : Calls cfg (fun s => nextMark s.mem false n) emb (Option.elim · done emb)) :
    Reaches cfg (solo m l b (emb .test)) (solo (markNodeRecent m n) l b done) := by
  unfold markNodeRecent
  refine .read (h m l b .test _ _ rfl) ?_
  by_cases hmark : m.markedRecent n
  · rw [if_pos hmark, if_pos hmark]
    exact .refl
  · rw [if_neg hmark, if_neg hmark]
    refine .read (h m l b .load _ _ rfl) ?_
    refine .head (h m l b (.store _ _) _ _ rfl) ?_
    refine .head (h _ l b (.cas _) _ _ (if_pos ⟨rfl, rfl⟩)) ?_
    exact .head (h _ l b .count _ _ rfl) .refl

/-! ## Empty node pool -/

theorem disposeNode_reaches {emb : DisposePC N → PC N K V}
    (h : Calls cfg (fun s => nextDispose s.mem false n) emb (Option.elim · done emb)) :
    Reaches cfg (solo m l b (emb .load)) (solo (disposeNode m n) l b done) := by
  refine .read (h m l b .load _ _ rfl) ?_
  refine .head (h m l b (.store _) _ _ rfl) ?_
  exact .head (h _ l b (.cas _) _ _ (if_pos ⟨rfl, rfl⟩)) .refl

/-! ## Hash table routines -/

theorem addNodeToBucket_reaches {emb : LinkPC N → PC N K V}
    (h : Calls cfg (fun s => nextLink cfg s n) emb (Option.elim · done emb)) :
    Reaches cfg (solo m l unlocked (emb .hash)) (solo (addNodeToBucket cfg m n) l unlocked done) := by
  refine .read (h m l unlocked .hash _ _ rfl) ?_
  refine .head (h m l unlocked (.lock _) _ _ rfl) ?_
  refine .read (h m l (locked _) (.load _) _ _ rfl) ?_
  refine .head (h m l (locked _) (.storeNext _ _) _ _ rfl) ?_
  refine .head (h _ l (locked _) (.storeHead _) _ _ rfl) ?_
  exact .unlock (h _ l (locked _) (.unlock _) _ _ rfl) .refl

variable {finish : Bool → PC N K V}

theorem unlinkBehind_reaches {emb : RemovePC N → PC N K V} {i : ℕ} {parent : Option (Fin N)}
    {removed : Bool} (h : Calls cfg (fun s => nextRemove cfg s n) emb (Sum.elim emb finish))
    (hrun : unlinkBehind m n fuel parent = some (removed, m')) :
    Reaches cfg (solo m l b (emb (walkTo i parent))) (solo m' l b (emb (.unlock i removed))) := by
  induction fuel generalizing parent with
  | zero => cases hrun
  | succ fuel ih =>
      cases parent with
      | none =>
          cases hrun
          exact .refl
      | some p =>
          simp only [unlinkBehind] at hrun
          refine .read (h m l b (.walk _ _) _ _ rfl) ?_
          by_cases hp : m.bucketNext p = some n
          · rw [if_pos hp] at hrun
            cases hrun
            rw [if_pos hp]
            refine .read (h m l b (.nodeNext _ _) _ _ rfl) ?_
            refine .head (h m l b (.storeParent _ _ _) _ _ rfl) ?_
            exact .head (h _ l b (.clear _) _ _ rfl) .refl
          · rw [if_neg hp] at hrun ⊢
            exact ih hrun

theorem removeNodeFromBucket_reaches {emb : RemovePC N → PC N K V} {removed : Bool}
    (h : Calls cfg (fun s => nextRemove cfg s n) emb (Sum.elim emb finish))
    (hrun : removeNodeFromBucket cfg fuel m n false = some (removed, m')) :
    Reaches cfg (solo m l unlocked (emb .hash)) (solo m' l unlocked (finish removed)) := by
  simp only [removeNodeFromBucket, Bool.not_false, Bool.true_and] at hrun
  refine .read (h m l unlocked .hash _ _ rfl) ?_
  refine .head (h m l unlocked (.lock _) _ _ rfl) ?_
  refine .read (h m l (locked _) (.recheck _) _ _ rfl) ?_
  -- all ways through the function end at the unlock
  suffices hwork : Reaches cfg
      (solo m l (locked (cfg.keyToBucketNr (m.key n)))
        (emb (if m.markedRecent n then .unlock (cfg.keyToBucketNr (m.key n)) false
          else .load (cfg.keyToBucketNr (m.key n)))))
      (solo m' l (locked (cfg.keyToBucketNr (m.key n)))
        (emb (.unlock (cfg.keyToBucketNr (m.key n)) removed))) from
    hwork.trans (Reaches.unlock (h _ l (locked _) (.unlock _ _) _ _ rfl) .refl)
  by_cases hmark : m.markedRecent n
  · rw [if_pos hmark] at hrun ⊢
    cases hrun
    exact .refl
  · rw [if_neg hmark] at hrun ⊢
    refine .read (h m l (locked _) (.load _) _ _ rfl) ?_
    by_cases hhead : m.buckets (cfg.keyToBucketNr (m.key n)) = some n
    · rw [if_pos hhead] at hrun
      cases hrun
      show Reaches cfg (solo m l (locked (cfg.keyToBucketNr (m.key n)))
        (emb (if m.buckets (cfg.keyToBucketNr (m.key n)) = some n then
          .headNext (cfg.keyToBucketNr (m.key n)) else _))) _
      rw [if_pos hhead]
      refine .read (h m l (locked _) (.headNext _) _ _ rfl) ?_
      refine .head (h m l (locked _) (.storeHead _ _) _ _ rfl) ?_
      exact .head (h _ l (locked _) (.clear _) _ _ rfl) .refl
    · rw [if_neg hhead] at hrun
      show Reaches cfg (solo m l (locked (cfg.keyToBucketNr (m.key n)))
        (emb (if m.buckets (cfg.keyToBucketNr (m.key n)) = some n then _
          else walkTo (cfg.keyToBucketNr (m.key n)) (m.buckets (cfg.keyToBucketNr (m.key n)))))) _
      rw [if_neg hhead]
      exact unlinkBehind_reaches h hrun

end Callees

/-! ## `find` -/

theorem searchBucket_reaches {cur found : Option (Fin N)}
    (hrun : searchBucket m k fuel cur = some found) :
    Reaches cfg (solo m l b (.find producer k (searchAt cur)))
      (solo m l b (.find producer k (found.elim (.unlock none) .value))) := by
  induction fuel generalizing cur with
  | zero => cases hrun
  | succ fuel ih =>
      cases cur with
      | none =>
          cases hrun
          exact .refl
      | some n =>
          simp only [searchBucket] at hrun
          refine .read rfl ?_
          by_cases hk : m.key n = k
          · rw [if_pos hk] at hrun ⊢
            cases hrun
            exact .refl
          · rw [if_neg hk] at hrun ⊢
            exact .read rfl (ih hrun)

theorem find_calls_mark (r : V) :
    Calls cfg (fun s => nextMark s.mem false n) (fun p => .find producer k (.mark n r p))
      (Option.elim · (.find producer k (.unlock (some r)))
        (fun p => .find producer k (.mark n r p))) := by
  refine next_calls.nest (fun _ _ => rfl) (fun _ _ => rfl) ?_
  intro act p
  cases p <;> rfl

/-- `find` up to the test of the threshold. -/
theorem find_reaches_threshold {found : Option (Fin N)}
    (hrun : searchBucket m k fuel (m.buckets (cfg.keyToBucketNr k)) = some found) :
    Reaches cfg (solo m l unlocked (.find producer k .lock))
      (solo (found.elim m (markNodeRecent m)) l unlocked
        (.find producer k (.threshold (found.map m.value)))) := by
  refine .head rfl ?_
  refine .read rfl ?_
  refine (searchBucket_reaches hrun).trans ?_
  cases found with
  | none => exact Reaches.unlock rfl .refl
  | some n =>
      refine .read rfl ?_
      refine (markNodeRecent_reaches (find_calls_mark (m.value n))).trans ?_
      exact Reaches.unlock rfl .refl

/-! ## Consolidation -/

/-- Where `purgeOld` stands within `consolidateCache`, or where this goes on. -/
def purgeTo (back : Back K V) : Option (PurgePC N) → PC N K V
  | some p => .consolidate back (.purge p)
  | none => .consolidate back .clearPurge

theorem consolidate_calls_purge :
    Calls cfg (fun s => nextPurge cfg s false) (fun p => .consolidate back (.purge p))
      (purgeTo back) := by
  refine next_calls.nest (fun _ _ => rfl) (fun _ _ => rfl) ?_
  intro act p
  cases p <;> rfl

/-- Where `pullRecent` stands within `consolidateCache`, or where this goes on. -/
def pullTo (back : Back K V) : Option (PullPC N) → PC N K V
  | some p => .consolidate back (.pull p)
  | none => .consolidate back .clearPull

theorem consolidate_calls_pull :
    Calls cfg (fun s => nextPull s.mem false) (fun p => .consolidate back (.pull p))
      (pullTo back) := by
  refine next_calls.nest (fun _ _ => rfl) (fun _ _ => rfl) ?_
  intro act p
  cases p <;> rfl

section Purge

variable {link : Ptr N} {freed : ℕ}

theorem purge_calls_bucket :
    Calls cfg (fun s => nextRemove cfg s n)
      (fun p => .consolidate back (.purge (.bucket n link freed p)))
      (Sum.elim (fun p => .consolidate back (.purge (.bucket n link freed p)))
        (fun removed => purgeTo back
          (if removed then some (.unlink n link freed .loadPrev) else purgeAt cfg link freed))) := by
  refine consolidate_calls_purge.nest (fun _ _ => rfl) (fun _ _ => rfl) ?_
  rintro act (p | removed)
  · rfl
  · cases removed <;> rfl

theorem purge_calls_unlink :
    Calls cfg (fun s => nextUnlink s.mem n)
      (fun p => .consolidate back (.purge (.unlink n link freed p)))
      (Option.elim · (.consolidate back (.purge (.onDelete n link freed)))
        (fun p => .consolidate back (.purge (.unlink n link freed p)))) := by
  refine consolidate_calls_purge.nest (fun _ _ => rfl) (fun _ _ => rfl) ?_
  intro act p
  cases p <;> rfl

theorem purge_calls_dispose :
    Calls cfg (fun s => nextDispose s.mem false n)
      (fun p => .consolidate back (.purge (.dispose n link freed p)))
      (Option.elim · (purgeTo back (purgeAt cfg link (freed + 1)))
        (fun p => .consolidate back (.purge (.dispose n link freed p)))) := by
  refine consolidate_calls_purge.nest (fun _ _ => rfl) (fun _ _ => rfl) ?_
  intro act p
  cases p <;> rfl

theorem purgeLoop_reaches {node : Ptr N} {deleted : List (K × V)}
    (hrun : purgeLoop cfg inner cfg.purgeThreshold fuel node freed m = some (deleted, m')) :
    Reaches cfg (solo m l unlocked (purgeTo back (purgeAt cfg node freed)))
      (solo m' l unlocked (.consolidate back .clearPurge)) := by
  induction fuel generalizing node freed m deleted with
  | zero => cases hrun
  | succ fuel ih =>
      -- the machine tests the loop condition at the end of a round, the function at its head
      unfold purgeLoop at hrun
      unfold purgeAt
      by_cases hend : node = .lruHead ∨ cfg.purgeThreshold ≤ freed
      · rw [if_pos hend] at hrun ⊢
        cases hrun
        exact .refl
      · rw [if_neg hend] at hrun ⊢
        cases node with
        | node n =>
            dsimp only at hrun
            refine .read rfl ?_
            show Reaches cfg (solo m l unlocked (purgeTo back (if m.lruPrev (.node n) = .lruHead
              then none else some (.test n (m.lruPrev (.node n)) freed)))) _
            by_cases hfront : m.lruPrev (.node n) = .lruHead
            · rw [if_pos hfront] at hrun ⊢
              cases hrun
              exact .refl
            · rw [if_neg hfront] at hrun ⊢
              refine .read rfl ?_
              show Reaches cfg (solo m l unlocked (purgeTo back (if m.markedRecent n
                then purgeAt cfg (m.lruPrev (.node n)) freed
                else some (.bucket n (m.lruPrev (.node n)) freed .hash)))) _
              by_cases hmark : m.markedRecent n = true
              · rw [if_pos hmark] at hrun ⊢
                exact ih hrun
              · rw [if_neg hmark] at hrun ⊢
                simp only [Option.bind_eq_bind, Option.bind_eq_some_iff] at hrun
                obtain ⟨⟨removed, m₁⟩, hbucket, hrun⟩ := hrun
                refine (removeNodeFromBucket_reaches purge_calls_bucket hbucket).trans ?_
                cases removed with
                | false => exact ih hrun
                | true =>
                    simp only [if_true, Option.bind_eq_some_iff] at hrun
                    obtain ⟨m₂, hlru, ⟨rest, m₃⟩, hloop, heq⟩ := hrun
                    cases heq
                    refine (removeNodeFromLru_reaches purge_calls_unlink hlru).trans ?_
                    refine .read rfl (.head rfl ?_)
                    exact (disposeNode_reaches purge_calls_dispose).trans (ih hloop)
        | _ => cases hrun

end Purge

section Pull

variable {prev last : Ptr N}

theorem pull_calls_unlink :
    Calls cfg (fun s => nextUnlink s.mem n)
      (fun p => .consolidate back (.pull (.unlink n prev p)))
      (Option.elim · (.consolidate back (.pull (.appendNext n prev)))
        (fun p => .consolidate back (.pull (.unlink n prev p)))) := by
  refine consolidate_calls_pull.nest (fun _ _ => rfl) (fun _ _ => rfl) ?_
  intro act p
  cases p <;> rfl

theorem pull_calls_add {first : Ptr N} :
    Calls cfg (fun s => nextAdd s.mem false first last)
      (fun p => .consolidate back (.pull (.add first last p)))
      (Option.elim · (.consolidate back .clearPull)
        (fun p => .consolidate back (.pull (.add first last p)))) := by
  refine consolidate_calls_pull.nest (fun _ _ => rfl) (fun _ _ => rfl) ?_
  intro act p
  cases p <;> rfl

theorem pullLoop_reaches {current : Ptr N}
    (hrun : pullLoop fuel current prev m = some (last, m')) :
    Reaches cfg (solo m l b (pullTo back (pullAt current prev)))
      (solo m' l b (pullTo back (pullAt .dummy last))) := by
  induction fuel generalizing current prev m with
  | zero => cases hrun
  | succ fuel ih =>
      cases current with
      | dummy =>
          cases hrun
          exact .refl
      | node n =>
          simp only [pullLoop] at hrun
          refine .read rfl ?_
          show Reaches cfg (solo m l b (.consolidate back (.pull (if m.lruPrev (.node n) = .lruHead
            then .skipLoad n prev else .unlink n prev .loadPrev)))) _
          by_cases hfront : m.lruPrev (.node n) = .lruHead
          · rw [if_pos hfront] at hrun ⊢
            exact .read rfl (.head rfl (ih hrun))
          · rw [if_neg hfront] at hrun ⊢
            simp only [Mem.storeNext, Option.bind_eq_bind, Option.bind_eq_some_iff,
              Option.ite_none_right_eq_some] at hrun
            obtain ⟨m₁, hlru, m₂, ⟨hbase, heq⟩, hloop⟩ := hrun
            cases heq
            refine (removeNodeFromLru_reaches pull_calls_unlink hlru).trans ?_
            refine .head (consolidate_calls_pull _ _ _ (.appendNext n prev) _ _ (if_pos hbase)) ?_
            refine .head rfl (.read rfl (.head rfl ?_))
            exact ih hloop
      | _ => cases hrun

theorem pullRecent_reaches (hrun : pullRecent fuel m = some m') :
    Reaches cfg (solo m l b (.consolidate back (.pull .exchange)))
      (solo m' l b (.consolidate back .clearPull)) := by
  simp only [pullRecent, popRecentListSlice, Option.bind_eq_bind, Option.bind_eq_some_iff] at hrun
  obtain ⟨⟨last, m₁⟩, hloop, hrun⟩ := hrun
  refine .head rfl (.head rfl (.head rfl ?_))
  refine (pullLoop_reaches hloop).trans ?_
  unfold pullAt
  rw [if_pos rfl]
  by_cases hlast : last = .localHead
  · rw [if_pos hlast] at hrun ⊢
    cases hrun
    exact .refl
  · rw [if_neg hlast] at hrun ⊢
    refine .read rfl ?_
    exact addSublistToLruHead_reaches pull_calls_add hrun

end Pull

theorem consolidateCache_reaches {events : List (Event N K V)}
    (hrun : consolidateCache cfg fuel m = some (events, m')) :
    Reaches cfg (solo m none unlocked (.consolidate back .tryLock))
      (solo m' none unlocked back.pc) := by
  simp only [consolidateCache, Option.bind_eq_bind, Option.bind_eq_some_iff] at hrun
  obtain ⟨⟨purged, m₁⟩, hpurge, ⟨pulled, m₂⟩, hpull, heq⟩ := hrun
  cases heq
  refine .head rfl (.read rfl ?_)
  have hpurged : Reaches cfg
      (solo m (some ()) unlocked
        (.consolidate back (if m.purgeRequest then .purge .tail else .testPull)))
      (solo m₁ (some ()) unlocked (.consolidate back .testPull)) := by
    unfold purgeStage at hpurge
    by_cases hreq : m.purgeRequest = true
    · rw [if_pos hreq] at hpurge ⊢
      simp only [Option.bind_eq_bind, Option.bind_eq_some_iff] at hpurge
      obtain ⟨⟨deleted, m₃⟩, hold, heq⟩ := hpurge
      cases heq
      have hpos : cfg.purgeThreshold ≠ 0 := Nat.ne_of_gt cfg.purgeThreshold_pos
      rw [purgeOld, if_neg hpos] at hold
      exact .read rfl ((purgeLoop_reaches hold).trans (.head rfl .refl))
    · rw [if_neg hreq] at hpurge ⊢
      cases hpurge
      exact .refl
  have hpulled : Reaches cfg (solo m₁ (some ()) unlocked (.consolidate back .testPull))
      (solo m₂ (some ()) unlocked (.consolidate back .unlock)) := by
    refine .read rfl ?_
    show Reaches cfg (solo m₁ (some ()) unlocked (.consolidate back (if m₁.pullRequest
      then .pull .exchange else .unlock))) _
    unfold pullStage at hpull
    by_cases hreq : m₁.pullRequest = true
    · rw [if_pos hreq] at hpull ⊢
      simp only [Option.bind_eq_bind, Option.bind_eq_some_iff] at hpull
      obtain ⟨m₃, hrecent, heq⟩ := hpull
      cases heq
      exact (pullRecent_reaches hrecent).trans (.head rfl .refl)
    · rw [if_neg hreq] at hpull ⊢
      cases hpull
      exact .refl
  exact hpurged.trans (hpulled.trans (.head rfl .refl))

/-! ## The public operations -/

theorem allocateLoop_reaches {node : Ptr N} {trace trace' : List (Event N K V)}
    (hrun : allocateLoop cfg inner fuel node m trace = .returned n m' trace') :
    Reaches cfg (solo m none unlocked (allocateAt consume k v node))
      (solo m' none unlocked (.insert consume k v (.key n))) := by
  induction fuel generalizing node m trace with
  | zero => cases hrun
  | succ fuel ih =>
      cases node with
      | null =>
          simp only [allocateLoop] at hrun
          cases hreq : requestPurge cfg inner m with
          | none =>
              rw [hreq] at hrun
              cases hrun
          | some r =>
              rw [hreq] at hrun
              refine .head rfl ?_
              exact (consolidateCache_reaches hreq).trans (.read rfl (ih hrun))
      | node x =>
          simp only [allocateLoop] at hrun
          refine .read rfl ?_
          by_cases hhead : m.emptyHead = .node x
          · rw [if_pos hhead] at hrun
            cases hrun
            exact .head (if_pos ⟨hhead, rfl⟩) .refl
          · -- the compare-exchange fails and loads the head
            rw [if_neg hhead] at hrun
            refine .read (if_neg ?_) (ih hrun)
            exact fun h => hhead h.1
      | _ => cases hrun

theorem allocateNode_reaches {trace : List (Event N K V)}
    (hrun : allocateNode cfg fuel m = .returned n m' trace) :
    Reaches cfg (solo m none unlocked (.insert consume k v (.allocate .load)))
      (solo m' none unlocked (.insert consume k v (.key n))) :=
  .read rfl (allocateLoop_reaches hrun)

theorem insert_calls_bucket :
    Calls cfg (fun s => nextLink cfg s n) (fun p => .insert consume k v (.bucket n p))
      (Option.elim · (.insert consume k v (.add n .storePrev))
        (fun p => .insert consume k v (.bucket n p))) := by
  refine next_calls.nest (fun _ _ => rfl) (fun _ _ => rfl) ?_
  intro act p
  cases p <;> rfl

theorem insert_calls_add :
    Calls cfg (fun s => nextAdd s.mem false (.node n) (.node n))
      (fun p => .insert consume k v (.add n p))
      (Option.elim · (.insert consume k v (.reset n)) (fun p => .insert consume k v (.add n p))) := by
  refine next_calls.nest (fun _ _ => rfl) (fun _ _ => rfl) ?_
  intro act p
  cases p <;> rfl

theorem insert_reaches {trace : List (Event N K V)}
    (hrun : DeferredLru.insert cfg fuel m k v = .returned () m' trace) :
    Reaches cfg (solo m none unlocked (.insert consume k v .count))
      (solo m' none unlocked (if consume then .delivered k v else .idle)) := by
  unfold DeferredLru.insert at hrun
  cases halloc : allocateNode cfg fuel { m with currentElementCount := m.currentElementCount + 1 } with
  | running m₁ t => simp [halloc] at hrun
  | stuck => simp [halloc] at hrun
  | returned n m₁ t =>
      simp only [halloc] at hrun
      refine .head rfl ((allocateNode_reaches halloc).trans ?_)
      refine .head rfl (.head rfl (.head rfl ?_))
      refine (addNodeToBucket_reaches insert_calls_bucket).trans ?_
      cases hadd : addSublistToLruHead (addNodeToBucket cfg
          (((m₁.setKey n k).setValue n v).setRecent n .dummy) n) (.node n) (.node n) with
      | none =>
          rw [hadd] at hrun
          cases hrun
      | some m₂ =>
          rw [hadd] at hrun
          cases hrun
          exact (addSublistToLruHead_reaches insert_calls_add hadd).trans (.head rfl .refl)

theorem find_reaches {r : Option V} {trace : List (Event N K V)}
    (hrun : DeferredLru.find cfg fuel m k = .returned r m' trace) :
    Reaches cfg (solo m none unlocked (.find producer k .lock))
      (solo m' none unlocked (afterFind producer k r)) := by
  unfold DeferredLru.find at hrun
  cases hsearch : searchBucket m k fuel (m.buckets (cfg.keyToBucketNr k)) with
  | none => simp [hsearch] at hrun
  | some found =>
      rw [hsearch] at hrun
      refine (find_reaches_threshold hsearch).trans (.read rfl ?_)
      have hstage : r = found.map m.value ∧
          ((recentThresholdHit cfg (found.elim m (markNodeRecent m)) = true ∧ ∃ events,
            requestPull cfg fuel (found.elim m (markNodeRecent m)) = some (events, m')) ∨
          (¬ recentThresholdHit cfg (found.elim m (markNodeRecent m)) = true ∧
            m' = found.elim m (markNodeRecent m))) := by
        cases found
        all_goals
          dsimp only at hrun
          split_ifs at hrun with hthr
          · split at hrun
            · cases hrun
            · cases hrun
              exact ⟨rfl, Or.inl ⟨hthr, _, ‹_›⟩⟩
          · cases hrun
            exact ⟨rfl, Or.inr ⟨hthr, rfl⟩⟩
      obtain ⟨rfl, ⟨hthr, events, hreq⟩ | ⟨hthr, rfl⟩⟩ := hstage
      · rw [if_pos hthr]
        exact .head rfl (consolidateCache_reaches hreq)
      · rw [if_neg hthr]
        exact .refl

theorem consumeCachedOrCompute_reaches {x r : V} {trace : List (Event N K V)}
    (hrun : DeferredLru.consumeCachedOrCompute cfg fuel m k x = .returned r m' trace) :
    Reaches cfg (solo m none unlocked (.find (some x) k .lock))
      (solo m' none unlocked (.delivered k r)) := by
  unfold DeferredLru.consumeCachedOrCompute at hrun
  cases hfind : DeferredLru.find cfg fuel m k with
  | stuck => simp [hfind] at hrun
  | running m₁ t => simp [hfind] at hrun
  | returned found m₁ t =>
      rw [hfind] at hrun
      refine (find_reaches hfind).trans ?_
      cases found with
      | some w =>
          cases hrun
          exact .refl
      | none =>
          dsimp only at hrun
          cases hinsert : DeferredLru.insert cfg fuel m₁ k x with
          | stuck => simp [hinsert] at hrun
          | running m₂ t => simp [hinsert] at hrun
          | returned u m₂ t =>
              rw [hinsert] at hrun
              cases hrun
              exact insert_reaches hinsert

end DeferredLru.Threads
