import DeferredLru.Deferred.Epochs
import Mathlib.Data.List.Find
import Mathlib.Data.List.Perm.Basic

set_option autoImplicit false

/-! # What `find` returns, by the history of the calls

An `insert` never looks for a node with its key, so the cache is a multiset of entries, several of
which may have one key. `liveEntries` reads them off a trace: the entries that inserts created and
purges have not passed to `onDelete`, newest first. Each bucket chain is the part of it that hashes to
the bucket, in the same order (`Recorded.bucket`), so a `find` returns the newest live entry with its
key (`Run.find_history`).

The pairs inserted are those of the calls (`Run.inserts`). Each of them is live or was passed to
`onDelete` (`Recorded.balance`), and the live ones are those `releaseMemory` finds in the buckets, so
all are deleted once in the end (`Run.deletes_inserted`). -/

namespace DeferredLru

open Intrusive

variable {N : ℕ} {K V : Type} {cfg : Config N K} {m m' : Mem N K V} {a a' : Lists N}
  {trace trace' : List (Event N K V)}

/-! ## The calls, case by case -/

/-- What a completed `find` was, whatever its fuel. -/
theorem find_cases [DecidableEq K] {fuel : ℕ} {k : K} {r : Option V} (h : Rep cfg m a)
    (hrun : find cfg fuel m k = .returned r m' trace) :
    (a.lookup cfg m k = none ∧ r = none ∧ m' = m ∧ trace = []) ∨
      ∃ n a', a.lookup cfg m k = some n ∧ r = some (m.value n) ∧ Rep cfg m' a' ∧ m'.key = m.key ∧
        m'.value = m.value ∧
        ((a' = a.mark n ∧ trace = [.hit n] ∧ (a.mark n).recent.length < cfg.pullThreshold) ∨
          (a' = (a.mark n).pull ∧ trace = [.hit n, .pull] ∧
            cfg.pullThreshold ≤ (a.mark n).recent.length)) := by
  have hlarge := find_mono hrun (le_max_left fuel (N + 1))
  have hfuel : N < max fuel (N + 1) := lt_of_lt_of_le (Nat.lt_succ_self N) (le_max_right ..)
  cases hk : a.lookup cfg m k with
  | none =>
      rw [find_miss h hk hfuel] at hlarge
      cases hlarge
      exact Or.inl ⟨rfl, rfl, rfl, rfl⟩
  | some n =>
      obtain ⟨m₁, a', events, hrun', hrep, hkey, hvalue, hcase⟩ := find_hit h hk hfuel
      rw [hrun'] at hlarge
      cases hlarge
      refine Or.inr ⟨n, a', rfl, rfl, hrep, hkey, hvalue, ?_⟩
      rcases hcase with ⟨rfl, rfl, hlt⟩ | ⟨rfl, rfl, hle⟩
      · exact Or.inl ⟨rfl, rfl, hlt⟩
      · exact Or.inr ⟨rfl, rfl, hle⟩

/-- What a completed `insert` was, whatever its fuel. -/
theorem insert_cases {fuel : ℕ} {k : K} {v : V} (h : Rep cfg m a)
    (hrun : insert cfg fuel m k v = .returned () m' trace) :
    ∃ a₁ n p events, trace = events ++ [.inserted n k v] ∧ a₁.pool = n :: p ∧ n ∉ a₁.lru ∧
      a₁ = a.evict (a.displaced cfg) ∧ Allocated cfg a a₁ events ∧
      Rep cfg m' ({ a₁ with pool := p }.link n (cfg.keyToBucketNr k)) ∧
      m'.key = Function.update m.key n k ∧ m'.value = Function.update m.value n v ∧
      onDeletes events = (a.displaced cfg).map (fun x => (m.key x, m.value x)) := by
  have hlarge := insert_mono hrun (le_max_left fuel (N + 1))
  have hfuel : N < max fuel (N + 1) := lt_of_lt_of_le (Nat.lt_succ_self N) (le_max_right ..)
  have havail : a.pool ≠ [] ∨ a.evictable ≠ [] := by
    by_contra hnone
    push Not at hnone
    exact insert_never h hnone.1 hnone.2 hrun
  obtain ⟨a₁, n, p, m₁, events, hrun', hp, hn, halloc, hrep, hkey, hvalue, hdel⟩ :=
    insert_spec h havail hfuel k v
  rw [hrun'] at hlarge
  cases hlarge
  exact ⟨a₁, n, p, events, rfl, hp, hn, halloc.lists (by simp [hp]), halloc, hrep, hkey, hvalue, hdel⟩

/-! ## Live entries -/

/-- An entry of the cache: the node that an `insert` filled, with the pair it stored. -/
structure Entry (N : ℕ) (K V : Type) where
  node : Fin N
  key : K
  value : V

/-- The pair that is passed to `onDelete`. -/
def Entry.pair (e : Entry N K V) : K × V := (e.key, e.value)

/-- The entry in the node `n`. -/
def Mem.entry (m : Mem N K V) (n : Fin N) : Entry N K V := ⟨n, m.key n, m.value n⟩

section Live

open Classical in
/-- The live entries after one more event: an insertion adds one; a purge passes those to `onDelete`
    whose nodes it takes out of the LRU list. -/
noncomputable def liveAfter (live : List (Entry N K V)) : Event N K V → List (Entry N K V)
  | .inserted n k v => ⟨n, k, v⟩ :: live
  | .purge _ after _ => live.filter (fun e => after.Resident e.node)
  | _ => live

/-- The entries that inserts created and purges have not passed to `onDelete`, newest first. -/
noncomputable def liveEntries (trace : List (Event N K V)) : List (Entry N K V) :=
  trace.foldl liveAfter []

/-- The pairs of all inserts of the trace. -/
def insertedPairs (trace : List (Event N K V)) : List (K × V) :=
  trace.flatMap fun e => match e with
    | .inserted _ k v => [(k, v)]
    | _ => []

open Classical in
/-- The live entries whose nodes are no longer in the LRU list. -/
noncomputable def evictedEntries (after : Mem N K V) (live : List (Entry N K V)) :
    List (Entry N K V) := live.filter (fun e => ¬ after.Resident e.node)

/-- At every purge of the trace, the pairs handed to `onDelete` are those of the live entries whose
    nodes leave the LRU list. -/
def PassesLive (trace : List (Event N K V)) : Prop :=
  ∀ past before after deleted rest, trace = past ++ .purge before after deleted :: rest →
    deleted.Perm ((evictedEntries after (liveEntries past)).map Entry.pair)

@[simp] theorem liveEntries_append (trace trace' : List (Event N K V)) :
    liveEntries (trace ++ trace') = trace'.foldl liveAfter (liveEntries trace) := by
  simp [liveEntries]

@[simp] theorem onDeletes_append (trace trace' : List (Event N K V)) :
    onDeletes (trace ++ trace') = onDeletes trace ++ onDeletes trace' := by
  simp [onDeletes]

@[simp] theorem insertedPairs_append (trace trace' : List (Event N K V)) :
    insertedPairs (trace ++ trace') = insertedPairs trace ++ insertedPairs trace' := by
  simp [insertedPairs]

/-- The lists of the cache agree with its trace. -/
structure Recorded (cfg : Config N K) (m : Mem N K V) (a : Lists N) (trace : List (Event N K V)) :
    Prop where
  entry : ∀ e ∈ liveEntries trace, e = m.entry e.node
  nodes : ((liveEntries trace).map Entry.node).Perm a.lru
  bucket : ∀ b, a.bucket b =
    ((liveEntries trace).filter (fun e => cfg.keyToBucketNr e.key = b)).map Entry.node
  passes : PassesLive trace
  balance : (onDeletes trace ++ (liveEntries trace).map Entry.pair).Perm (insertedPairs trace)

/-- Only purges matter to `PassesLive`. -/
theorem PassesLive.concat {e : Event N K V} (h : PassesLive trace)
    (he : ∀ before after deleted, e = .purge before after deleted →
      deleted.Perm ((evictedEntries after (liveEntries trace)).map Entry.pair)) :
    PassesLive (trace ++ [e]) := by
  intro past before after deleted rest heq
  rcases Intrusive.concat_split heq with ⟨rfl, rfl, -⟩ | ⟨rest', rfl, -⟩
  · exact he before after deleted rfl
  · exact h past before after deleted rest' rfl

theorem Lists.mark_recent_sub {n : Fin N} (hsub : ∀ x ∈ a.recent, x ∈ a.lru) (hn : n ∈ a.lru) :
    ∀ x ∈ (a.mark n).recent, x ∈ (a.mark n).lru := by
  intro x hx
  rw [Lists.mark_lru]
  unfold Lists.mark at hx
  split_ifs at hx with hmark
  · exact hsub x hx
  · rcases List.mem_cons.1 hx with rfl | hx
    · exact hn
    · exact hsub x hx

namespace Recorded

theorem lookup [DecidableEq K] (h : Recorded cfg m a trace) (k : K) :
    a.lookup cfg m k = ((liveEntries trace).find? (fun e => e.key = k)).map Entry.node := by
  have hkeys : ∀ e ∈ liveEntries trace, m.key e.node = e.key := by
    intro e he
    rw [h.entry e he]
    rfl
  unfold Lists.lookup
  rw [h.bucket, List.find?_map, List.find?_filter]
  congr 1
  refine List.find?_congr (fun e he => ?_)
  simp only [Function.comp, hkeys e he]
  by_cases hk : e.key = k
  · simp [hk]
  · simp [hk]

/-- A hit or a pull moves no entry. -/
theorem still {e : Event N K V} (h : Recorded cfg m a trace) (hkey : m'.key = m.key)
    (hvalue : m'.value = m.value) (hlru : a'.lru.Perm a.lru) (hbucket : a'.bucket = a.bucket)
    (he : (∃ n, e = .hit n) ∨ e = .pull) : Recorded cfg m' a' (trace ++ [e]) := by
  have hlive : liveEntries (trace ++ [e]) = liveEntries trace := by
    rw [liveEntries_append]
    rcases he with ⟨n, rfl⟩ | rfl <;> rfl
  have hsame : onDeletes [e] = [] ∧ insertedPairs [e] = [] := by
    rcases he with ⟨n, rfl⟩ | rfl <;> exact ⟨rfl, rfl⟩
  refine ⟨?_, ?_, ?_, h.passes.concat ?_, ?_⟩
  · rw [hlive]
    intro x hx
    rw [h.entry x hx, Mem.entry, Mem.entry, hkey, hvalue]
  · rw [hlive]
    exact h.nodes.trans hlru.symm
  · rw [hlive, hbucket]
    exact h.bucket
  · rintro before after deleted rfl
    rcases he with ⟨n, hn⟩ | hn <;> cases hn
  · rw [hlive, onDeletes_append, insertedPairs_append, hsame.1, hsame.2, List.append_nil,
      List.append_nil]
    exact h.balance

theorem node_mem {e : Entry N K V} (h : Recorded cfg m a trace) (he : e ∈ liveEntries trace) :
    e.node ∈ a.lru := h.nodes.mem_iff.1 (List.mem_map_of_mem he)

/-- A purge of the nodes `vs`. -/
theorem purge {before after : Mem N K V} {deleted : List (K × V)} {vs : List (Fin N)}
    (h : Recorded cfg m a trace) (hdup : a.lru.Nodup) (hafter : Links cfg after (a.evict vs))
    (hvs : vs.Nodup) (hsub : ∀ n ∈ vs, n ∈ a.lru)
    (hdel : deleted = vs.map (fun n => (m.key n, m.value n))) :
    Recorded cfg m (a.evict vs) (trace ++ [.purge before after deleted]) := by
  have hresident : ∀ e ∈ liveEntries trace, after.Resident e.node ↔ e.node ∉ vs := by
    intro e he
    rw [hafter.lru.resident_iff]
    show e.node ∈ a.lru.filter _ ↔ _
    simp [h.node_mem he]
  have hkept : liveEntries (trace ++ [.purge before after deleted]) =
      (liveEntries trace).filter (fun e => e.node ∉ vs) := by
    rw [liveEntries_append]
    show (liveEntries trace).filter _ = _
    exact List.filter_congr (fun e he => decide_eq_decide.2 (hresident e he))
  have hevicted : evictedEntries after (liveEntries trace) =
      (liveEntries trace).filter (fun e => e.node ∈ vs) := by
    refine List.filter_congr (fun e he => decide_eq_decide.2 ?_)
    rw [hresident e he, not_not]
  -- each victim is the node of exactly one live entry
  have hpairs : deleted.Perm ((evictedEntries after (liveEntries trace)).map Entry.pair) := by
    have hnodes : vs.Perm (((liveEntries trace).filter (fun e => e.node ∈ vs)).map Entry.node) := by
      refine (List.perm_ext_iff_of_nodup hvs ?_).2 (fun n => ?_)
      · exact (h.nodes.nodup_iff.2 hdup).sublist (List.filter_sublist.map _)
      · simp only [List.mem_map, List.mem_filter, decide_eq_true_eq]
        constructor
        · intro hn
          obtain ⟨e, he, rfl⟩ := List.mem_map.1 (h.nodes.mem_iff.2 (hsub n hn))
          exact ⟨e, ⟨he, hn⟩, rfl⟩
        · rintro ⟨e, ⟨-, he⟩, rfl⟩
          exact he
    rw [hdel, hevicted]
    refine (hnodes.map _).trans ?_
    rw [List.map_map]
    refine List.Perm.of_eq (List.map_congr_left (fun e he => ?_))
    have heq := h.entry e (List.mem_of_mem_filter he)
    rw [heq]
    rfl
  refine ⟨?_, ?_, ?_, h.passes.concat ?_, ?_⟩
  · rw [hkept]
    exact fun e he => h.entry e (List.mem_of_mem_filter he)
  · rw [hkept]
    show (((liveEntries trace).filter ((fun n => decide (n ∉ vs)) ∘ Entry.node)).map Entry.node).Perm
      (a.lru.filter _)
    rw [← List.filter_map]
    exact h.nodes.filter _
  · intro b
    rw [hkept]
    show (a.bucket b).filter _ = _
    rw [h.bucket b, List.filter_map, List.filter_filter, List.filter_filter]
    congr 2
    funext e
    exact Bool.and_comm _ _
  · intro b c d heq
    cases heq
    exact hpairs
  · -- what was live is live still or was just deleted
    have hsplit : (evictedEntries after (liveEntries trace) ++
        (liveEntries trace).filter (fun e => e.node ∉ vs)).Perm (liveEntries trace) := by
      rw [hevicted]
      simpa using List.filter_append_perm (fun e : Entry N K V => decide (e.node ∈ vs))
        (liveEntries trace)
    rw [hkept, onDeletes_append, insertedPairs_append]
    have hone : onDeletes [Event.purge before after deleted] = deleted := by simp [onDeletes]
    have hnone : insertedPairs [Event.purge before after deleted] = [] := rfl
    rw [hone, hnone, List.append_nil, List.append_assoc]
    refine List.Perm.trans (List.Perm.append_left _ ?_) h.balance
    refine (hpairs.append_right _).trans ?_
    rw [← List.map_append]
    exact hsplit.map _

/-- An insertion of the free node `n`. -/
theorem link {n : Fin N} {k : K} {v : V} {p : List (Fin N)} (h : Recorded cfg m a trace)
    (hn : n ∉ a.lru) (hkey : m'.key = Function.update m.key n k)
    (hvalue : m'.value = Function.update m.value n v) :
    Recorded cfg m' ({ a with pool := p }.link n (cfg.keyToBucketNr k))
      (trace ++ [.inserted n k v]) := by
  have hlive : liveEntries (trace ++ [.inserted n k v]) = ⟨n, k, v⟩ :: liveEntries trace := by
    rw [liveEntries_append]
    rfl
  refine ⟨?_, ?_, ?_, h.passes.concat (by simp), ?_⟩
  · rw [hlive]
    intro e he
    rcases List.mem_cons.1 he with rfl | he
    · simp [Mem.entry, hkey, hvalue]
    · have hne : e.node ≠ n := fun heq => hn (heq ▸ h.node_mem he)
      rw [Mem.entry, hkey, hvalue, Function.update_of_ne hne, Function.update_of_ne hne]
      exact h.entry e he
  · rw [hlive]
    exact h.nodes.cons n
  · intro b
    rw [hlive]
    show Function.update a.bucket (cfg.keyToBucketNr k) (n :: a.bucket (cfg.keyToBucketNr k)) b = _
    by_cases hb : b = cfg.keyToBucketNr k
    · subst hb
      rw [Function.update_self, List.filter_cons_of_pos (by simp), List.map_cons, h.bucket]
    · rw [Function.update_of_ne hb, List.filter_cons_of_neg (by simpa using Ne.symm hb), h.bucket]
  · rw [hlive, onDeletes_append, insertedPairs_append]
    show (onDeletes trace ++ [] ++ ((k, v) :: (liveEntries trace).map Entry.pair)).Perm
      (insertedPairs trace ++ [(k, v)])
    rw [List.append_nil]
    refine List.perm_middle.trans ?_
    exact (h.balance.cons (k, v)).trans (List.perm_append_singleton _ _).symm

/-- A completed `find` returns the newest live entry with its key, and changes nothing if there is
    none. -/
theorem find [DecidableEq K] {fuel : ℕ} {k : K} {r : Option V} (h : Recorded cfg m a trace)
    (hrep : Rep cfg m a) (hrun : find cfg fuel m k = .returned r m' trace') :
    (∃ a', Rep cfg m' a' ∧ Recorded cfg m' a' (trace ++ trace')) ∧
      r = ((liveEntries trace).find? (fun e => e.key = k)).map Entry.value ∧
      (r = none → m' = m ∧ trace' = []) := by
  have hlookup := h.lookup k
  rcases find_cases hrep hrun with ⟨hk, rfl, rfl, rfl⟩ | ⟨n, a', hk, rfl, hrep', hkey, hvalue, hcase⟩
  · refine ⟨⟨a, hrep, by rwa [List.append_nil]⟩, ?_, fun _ => ⟨rfl, rfl⟩⟩
    rw [hk] at hlookup
    rw [Option.map_eq_none_iff.1 hlookup.symm]
    rfl
  · have hn := (Lists.lookup_spec hrep.toLinks hk).1
    have hmark : Recorded cfg m (a.mark n) (trace ++ [.hit n]) :=
      h.still rfl rfl (by rw [Lists.mark_lru]) (by unfold Lists.mark; split <;> rfl)
        (Or.inl ⟨n, rfl⟩)
    refine ⟨⟨a', hrep', ?_⟩, ?_, fun hr => by cases hr⟩
    · rcases hcase with ⟨rfl, rfl, -⟩ | ⟨rfl, rfl, -⟩
      · exact h.still hkey hvalue (by rw [Lists.mark_lru]) (by unfold Lists.mark; split <;> rfl)
          (Or.inl ⟨n, rfl⟩)
      · rw [List.append_cons]
        refine hmark.still hkey hvalue ?_ rfl (Or.inr rfl)
        refine (List.perm_ext_iff_of_nodup hrep'.lru_nodup ?_).2
          (Lists.mem_pull_lru (Lists.mark_recent_sub hrep.recent_sub hn))
        rw [Lists.mark_lru]
        exact hrep.lru_nodup
    · rw [hk] at hlookup
      obtain ⟨e, he, rfl⟩ := Option.map_eq_some_iff.1 hlookup.symm
      have heq := h.entry e (List.mem_of_find?_eq_some he)
      rw [he, heq]
      rfl

/-- A completed `insert` adds an entry, after a purge if the pool was empty. -/
theorem insert {fuel : ℕ} {k : K} {v : V} (h : Recorded cfg m a trace) (hrep : Rep cfg m a)
    (hrun : insert cfg fuel m k v = .returned () m' trace') :
    ∃ a', Rep cfg m' a' ∧ Recorded cfg m' a' (trace ++ trace') := by
  obtain ⟨a₁, n, p, events, rfl, hp, hn, -, halloc, hrep', hkey, hvalue, hdel⟩ :=
    insert_cases hrep hrun
  refine ⟨_, hrep', ?_⟩
  rw [← List.append_assoc]
  refine link ?_ hn hkey hvalue
  cases halloc with
  | direct => rwa [List.append_nil]
  | @purged before after deleted hpool _ hafter =>
      have hsub : ∀ x ∈ a.evictable.take cfg.purgeThreshold, x ∈ a.lru := fun x hx =>
        (Lists.evictable_sub (List.mem_of_mem_take hx)).1
      refine h.purge hrep.lru_nodup hafter (hrep.evictable_nodup.sublist (List.take_sublist ..)) hsub ?_
      rw [Lists.displaced, if_pos hpool] at hdel
      rw [← hdel]
      simp [onDeletes]

end Recorded

theorem recorded_initial [Inhabited K] [Inhabited V] :
    Recorded cfg (allocateMemory N K V) (.initial N) [] :=
  ⟨by simp [liveEntries], List.Perm.refl _, fun _ => rfl, fun _ _ _ _ _ heq => absurd heq (by simp),
    List.Perm.refl _⟩

/-! ## Release -/

theorem releaseBucket_spec {fuel : ℕ} {node : Option (Fin N)} {l : List (Fin N)}
    (h : Chain m.bucketNext some node l none) (hfuel : l.length < fuel) :
    releaseBucket m fuel node = some (l.map (fun n => (m.key n, m.value n))) := by
  induction fuel generalizing node l with
  | zero => exact absurd hfuel (by omega)
  | succ fuel ih =>
      cases l with
      | nil =>
          obtain rfl := chain_nil.1 h
          rfl
      | cons x l =>
          obtain ⟨rfl, hrest⟩ := h
          rw [releaseBucket, ih hrest (by simpa using hfuel)]
          rfl

/-- The pairs in the buckets are those in the LRU list. -/
theorem Rep.flatten_buckets (h : Rep cfg m a) :
    ((List.range cfg.bucketCount).flatMap a.bucket).Perm a.lru := by
  refine (List.perm_ext_iff_of_nodup ?_ h.lru_nodup).2 (fun n => ?_)
  · refine List.nodup_flatMap.2 ⟨fun b _ => h.bucket_nodup b, ?_⟩
    refine List.Nodup.pairwise_of_forall_ne List.nodup_range ?_
    intro b _ c _ hne n hb hc
    exact hne (((h.mem_bucket b n).1 hb).2.symm.trans ((h.mem_bucket c n).1 hc).2)
  · rw [List.mem_flatMap]
    constructor
    · rintro ⟨b, -, hb⟩
      exact ((h.mem_bucket b n).1 hb).1
    · intro hn
      exact ⟨_, List.mem_range.2 (cfg.keyToBucketNr_lt (m.key n)), (h.mem_bucket _ n).2 ⟨hn, rfl⟩⟩

/-- `releaseMemory` deletes the entries bucket by bucket. -/
theorem releaseMemory_spec {fuel : ℕ} (h : Rep cfg m a) (hfuel : N < fuel) :
    releaseMemory fuel cfg.bucketCount m =
      some (((List.range cfg.bucketCount).flatMap a.bucket).map (fun n => (m.key n, m.value n)),
        0) := by
  have hbucket : (fun b => releaseBucket m fuel (m.buckets b)) =
      fun b => pure ((a.bucket b).map (fun n => (m.key n, m.value n))) := by
    funext b
    exact releaseBucket_spec (h.buckets b) ((length_le_capacity (h.bucket_nodup b)).trans_lt hfuel)
  rw [releaseMemory, hbucket, List.mapM_pure, List.map_flatMap, List.flatMap_def]
  rfl

/-- A released cache has no bucket left. -/
theorem releaseRepeatedly_zero (fuel calls : ℕ) (m : Mem N K V) :
    releaseRepeatedly fuel m calls 0 = some [] := by
  induction calls with
  | zero => rfl
  | succ calls ih =>
      rw [releaseRepeatedly]
      simp [releaseMemory, ih]

section Runs

variable [Inhabited K] [Inhabited V] [DecidableEq K]

theorem Run.recorded {ops : List (Op K V)} (h : Run cfg ops m trace) :
    ∃ a, Rep cfg m a ∧ Recorded cfg m a trace := by
  induction h with
  | start => exact ⟨_, allocateMemory_rep cfg, recorded_initial⟩
  | call _ hcall ih =>
      obtain ⟨a, hrep, hrec⟩ := ih
      cases hcall with
      | find hfind => exact (hrec.find hrep hfind).1
      | insert hins => exact hrec.insert hrep hins
      | consume hcons =>
          rcases consumeCachedOrCompute_cases hcons with hfind | ⟨m₁, t₁, t₂, hfind, hins, -, rfl⟩
          · exact (hrec.find hrep hfind).1
          · obtain ⟨a₁, hrep₁, hrec₁⟩ := (hrec.find hrep hfind).1
            rw [← List.append_assoc]
            exact hrec₁.insert hrep₁ hins

/-- The pairs that a call inserts where these entries are live. -/
def Op.inserts (live : List (Entry N K V)) : Op K V → List (K × V)
  | .find _ => []
  | .insert k v => [(k, v)]
  | .consumeCachedOrCompute k x => if live.any fun e => e.key = k then [] else [(k, x)]

/-- The insertions of the trace are those of the calls, in their order. -/
inductive Inserts : List (Op K V) → List (Event N K V) → Prop
  | start : Inserts [] []
  | call {ops : List (Op K V)} {op : Op K V} {trace trace' : List (Event N K V)} :
      Inserts ops trace → insertedPairs trace' = op.inserts (liveEntries trace) →
      Inserts (ops ++ [op]) (trace ++ trace')

omit [Inhabited K] [Inhabited V] in
/-- Without a `consumeCachedOrCompute` among them the calls alone tell what is inserted. -/
theorem Inserts.pairs {ops : List (Op K V)} (h : Inserts ops trace)
    (hops : ∀ op ∈ ops, op.isConsume = false) :
    insertedPairs trace = ops.flatMap (Op.inserts ([] : List (Entry N K V))) := by
  induction h with
  | start => rfl
  | @call ops op trace trace' _ hop ih =>
      rw [insertedPairs_append, ih fun o ho => hops o (by simp [ho]), hop, List.flatMap_append]
      have hprimitive := hops op (by simp)
      cases op with
      | consumeCachedOrCompute k x => cases hprimitive
      | _ => simp [Op.inserts]

omit [Inhabited K] [Inhabited V] in
theorem find_insertedPairs {fuel : ℕ} {k : K} {r : Option V} (hrep : Rep cfg m a)
    (hrun : find cfg fuel m k = .returned r m' trace) : insertedPairs trace = [] := by
  rcases find_cases hrep hrun with ⟨-, -, -, rfl⟩ | ⟨n, a', -, -, -, -, -, hcase⟩
  · rfl
  · rcases hcase with ⟨-, rfl, -⟩ | ⟨-, rfl, -⟩ <;> rfl

omit [Inhabited K] [Inhabited V] [DecidableEq K] in
theorem insert_insertedPairs {fuel : ℕ} {k : K} {v : V} (hrep : Rep cfg m a)
    (hrun : insert cfg fuel m k v = .returned () m' trace) : insertedPairs trace = [(k, v)] := by
  obtain ⟨a₁, n, p, events, rfl, -, -, -, halloc, -⟩ := insert_cases hrep hrun
  cases halloc <;> rfl

theorem Run.inserts {ops : List (Op K V)} (h : Run cfg ops m trace) : Inserts ops trace := by
  induction h with
  | start => exact .start
  | call hrun hcall ih =>
      obtain ⟨a, hrep, hrec⟩ := hrun.recorded
      refine ih.call ?_
      cases hcall with
      | find hfind => exact find_insertedPairs hrep hfind
      | insert hins => exact insert_insertedPairs hrep hins
      | consume hcons =>
          -- it inserts if its `find` has found no live entry
          rcases consumeCachedOrCompute_cases hcons with hfind | ⟨m₁, t₁, t₂, hfind, hins, -, rfl⟩
          · obtain ⟨-, hr, -⟩ := hrec.find hrep hfind
            obtain ⟨e, he, -⟩ := Option.map_eq_some_iff.1 hr.symm
            rw [Op.inserts, if_pos (List.any_eq_true.2 ⟨e, List.mem_of_find?_eq_some he,
              List.find?_some he⟩)]
            exact find_insertedPairs hrep hfind
          · obtain ⟨-, hr, hnone⟩ := hrec.find hrep hfind
            obtain ⟨rfl, rfl⟩ := hnone rfl
            have hmiss := List.find?_eq_none.1 (Option.map_eq_none_iff.1 hr.symm)
            rw [Op.inserts, if_neg]
            · exact insert_insertedPairs hrep hins
            · rintro hany
              obtain ⟨e, he, hkey⟩ := List.any_eq_true.1 hany
              exact hmiss e he hkey

/-- **`find` against the history.** The insertions are those of the calls, and purges pass the entries
    they take out to `onDelete`. After any completed calls a `find(k)` returns; it finds the key
    exactly if an insert with key `k` created an entry that no purge has passed to `onDelete`, and
    delivers the value of the newest such entry; if it finds none, it changes nothing. -/
theorem Run.find_history {ops : List (Op K V)} (h : Run cfg ops m trace) (k : K) :
    Inserts ops trace ∧ PassesLive trace ∧ ∃ r m' trace',
      (∀ fuel, N < fuel → find cfg fuel m k = .returned r m' trace') ∧
      r = ((liveEntries trace).find? (fun e => e.key = k)).map Entry.value ∧
      (r = none → m' = m) := by
  obtain ⟨a, hrep, hrec⟩ := h.recorded
  refine ⟨h.inserts, hrec.passes, ?_⟩
  obtain ⟨r, m', trace', hrun⟩ : ∃ r m' trace', find cfg (N + 1) m k = .returned r m' trace' := by
    cases hk : a.lookup cfg m k with
    | none => exact ⟨_, _, _, find_miss hrep hk (Nat.lt_succ_self N)⟩
    | some n =>
        obtain ⟨m', a', events, hrun, -⟩ := find_hit hrep hk (Nat.lt_succ_self N)
        exact ⟨_, _, _, hrun⟩
  obtain ⟨-, hr, hnone⟩ := hrec.find hrep hrun
  exact ⟨r, m', trace', fun fuel hfuel => find_mono hrun hfuel, hr, fun hr => (hnone hr).1⟩

/-- The newer of two entries with the key is found. -/
theorem Run.find_history_twoNodes : ∃ (m : Mem 2 ℕ ℕ) (trace : List (Event 2 ℕ ℕ)),
    Run twoNodes [.insert 7 70, .insert 7 71, .find 7] m trace ∧
      Inserts [.insert 7 70, .insert 7 71, .find 7] trace ∧ PassesLive trace ∧
      ∃ r m' trace', (∀ fuel, 2 < fuel → DeferredLru.find twoNodes fuel m 7 = .returned r m' trace') ∧
        r = ((liveEntries trace).find? (fun e => e.key = 7)).map Entry.value ∧
        (r = none → m' = m) ∧ r = some 71 := by
  have h : Run twoNodes [.insert 7 70, .insert 7 71, .find 7] _ _ :=
    ((Run.start.call (.insert (show DeferredLru.insert twoNodes 3 _ 7 70 = _ from rfl))).call
      (.insert (show DeferredLru.insert twoNodes 3 _ 7 71 = _ from rfl))).call
      (.find (show DeferredLru.find twoNodes 3 _ 7 = _ from rfl))
  obtain ⟨hinserts, hpasses, r, m', trace', hrun, hr, hnone⟩ := h.find_history 7
  have hfound := hrun 3 (by decide)
  refine ⟨_, _, h, hinserts, hpasses, r, m', trace', hrun, hr, hnone, ?_⟩
  cases hfound
  rfl

/-- **Every entry is deleted exactly once.** After any completed calls and then one or more calls of
    `releaseMemory`, the pairs handed to `onDelete` are the pairs inserted, which are those of the
    calls. -/
theorem Run.deletes_inserted {ops : List (Op K V)} (h : Run cfg ops m trace) (calls : ℕ) :
    Inserts ops trace ∧ ∃ deleted, (∀ fuel, N < fuel →
        releaseRepeatedly fuel m (calls + 1) cfg.bucketCount = some deleted) ∧
      (onDeletes trace ++ deleted).Perm (insertedPairs trace) := by
  obtain ⟨a, hrep, hrec⟩ := h.recorded
  refine ⟨h.inserts, ((List.range cfg.bucketCount).flatMap a.bucket).map
    (fun n => (m.key n, m.value n)), fun fuel hfuel => ?_, ?_⟩
  · rw [releaseRepeatedly, releaseMemory_spec hrep hfuel]
    simp [releaseRepeatedly_zero]
  · have hpairs : (liveEntries trace).map Entry.pair =
        ((liveEntries trace).map Entry.node).map (fun n => (m.key n, m.value n)) := by
      rw [List.map_map]
      refine List.map_congr_left (fun e he => ?_)
      rw [hrec.entry e he]
      rfl
    refine List.Perm.trans (List.Perm.append_left _ ?_) hrec.balance
    rw [hpairs]
    exact (hrep.flatten_buckets.trans hrec.nodes.symm).map _

theorem Run.deletes_inserted_twoNodes : ∃ (m : Mem 2 ℕ ℕ) (trace : List (Event 2 ℕ ℕ)),
    Run twoNodes [.insert 1 10, .insert 2 20, .insert 3 30] m trace ∧
      insertedPairs trace = [(1, 10), (2, 20), (3, 30)] ∧
      Inserts [.insert 1 10, .insert 2 20, .insert 3 30] trace ∧ ∃ deleted,
        (∀ fuel, 2 < fuel →
          releaseRepeatedly fuel m (1 + 1) twoNodes.bucketCount = some deleted) ∧
        (onDeletes trace ++ deleted).Perm (insertedPairs trace) := by
  have h : Run twoNodes [.insert 1 10, .insert 2 20, .insert 3 30] _ _ :=
    ((Run.start.call (.insert (show DeferredLru.insert twoNodes 3 _ 1 10 = _ from rfl))).call
      (.insert (show DeferredLru.insert twoNodes 3 _ 2 20 = _ from rfl))).call
      (.insert (show DeferredLru.insert twoNodes 3 _ 3 30 = _ from rfl))
  exact ⟨_, _, h, h.inserts.pairs (by decide), h.deletes_inserted 1⟩

end Runs

end Live

end DeferredLru
