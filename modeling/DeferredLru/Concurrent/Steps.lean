import DeferredLru.Concurrent.TableSteps
import DeferredLru.Concurrent.Transitions

set_option autoImplicit false

/-! # The steps of `ConcurrentLRU` keep the invariant

`find` and `insert` put the steps of the called functions together; `PC.onLists` is what the step of a
thread does to the abstract lists. -/

namespace DeferredLru.ConcurrentLru

open Intrusive

variable {N : ℕ} {K V T : Type} {cfg : Config N K} {s s' : State N K V T} {m m' : Mem N K V}
  {a a' : Lists N} {trace : List (Label N K V T)} {act : Act N K V} {t : T} {k : K} {v : V}
  {l : Label N K V T}

/-- The lists after the next access of the thread. -/
def PC.onLists (a : Lists N) : PC N K V → Lists N
  | .find _ _ (.remove n _ p) => p.onLists n a
  | .find _ _ (.insertLast n _ p) => p.onLists n a
  | .insert _ _ (.getNodeFromPool p) => p.onLists a
  | .insert _ _ (.lruEvictHead p) => p.onLists a
  | .insert _ _ (.htRemove n p) => p.onLists n a
  | .insert _ _ (.insertLast n p) => p.onLists n a
  | .insert _ _ (.htInsert n p) => p.onLists n a
  | _ => a

theorem Standing.mono {pc : PC N K V} {trace' : List (Label N K V T)}
    (h : Standing cfg m a trace pc) : Standing cfg m a (trace ++ trace') pc :=
  (within_nil.kept (by simp) (by simp)).standing h

theorem afterFind_holds (producer : Option V) (k : K) (r : Option V) :
    (afterFind (N := N) producer k r).holds = [] := by
  unfold afterFind
  split <;> rfl

theorem afterFind_bucket (producer : Option V) (k : K) (r : Option V) :
    (afterFind (N := N) producer k r).bucket cfg = [] := by
  unfold afterFind
  split <;> rfl

theorem afterFind_standing (producer : Option V) (k : K) (r : Option V) :
    Standing cfg m a trace (afterFind producer k r) := by
  unfold afterFind
  split <;> trivial

section

variable [DecidableEq T]

theorem Inv.advance {pc p : PC N K V} (h : Inv cfg s a trace) (hact : act.enabled s = true)
    (hpc : s.pc t = pc) (hl : l.pc = pc)
    (he : Effect cfg s.mem a a' trace act pc.holds p.holds (pc.bucket cfg) (p.bucket cfg))
    (hp : Standing cfg (act.onMem s.mem) a' trace p) :
    Inv cfg (s.apply t act p) a' (trace ++ [l]) := by
  subst hpc
  refine h.effect hact he hp.mono (fun producer k n v hfind => ?_)
  have hs := h.standing t
  rw [← hl, hfind] at hs
  exact hs.2 v rfl

theorem Inv.find [DecidableEq K] (h : Inv cfg s a trace) (hact : act.enabled s = true)
    {producer : Option V} {pc : FindPC N V} {p : PC N K V} (hpc : s.pc t = .find producer k pc)
    (hl : l.pc = .find producer k pc) (hstep : FindStep cfg s producer k pc act p) :
    Inv cfg (s.apply t act p) ((PC.find producer k pc).onLists a) (trace ++ [l]) := by
  have hshape := h.shape
  have hs := h.standing t
  have hdup := h.nodes.nodup t
  rw [hpc] at hs hdup
  cases hstep with
  | search hr =>
      obtain ⟨he, hpost⟩ := h.htFind hs hr
      exact h.advance hact hpc hl he hpost
  | found hr =>
      obtain ⟨he, -⟩ := h.htFind hs hr
      exact h.advance hact hpc hl he trivial
  | missing hr =>
      obtain ⟨he, -⟩ := h.htFind hs hr
      refine h.advance hact hpc hl ?_ (afterFind_standing producer k none)
      rw [afterFind_holds, afterFind_bucket]
      exact he
  | lock n =>
      exact h.advance hact hpc hl (Effect.lock hshape .rfl) (h.rest_of_enabled hact n rfl)
  | valid n hflag hkey =>
      obtain ⟨hmem, hlive⟩ := hshape.live_of_flag hs hflag
      exact h.advance hact hpc hl (Effect.read hshape .rfl) ⟨hmem, hlive, hkey⟩
  | invalid n => exact h.advance hact hpc hl (Effect.read hshape .rfl) ⟨hs, by simp⟩
  | value n =>
      obtain ⟨hmem, hlive, rfl⟩ := hs
      exact h.advance hact hpc hl (Effect.read hshape .rfl) ⟨⟨hmem, hlive⟩, hlive.stored⟩
  | remove hr =>
      obtain ⟨he, hpost⟩ := h.remove [] hact hs.1 hdup hr
      exact h.advance hact hpc hl he ⟨hpost, hs.2⟩
  | removed hr =>
      obtain ⟨he, hpost⟩ := h.remove [] hact hs.1 hdup hr
      exact h.advance hact hpc hl he ⟨hpost.1, hpost.2, hs.2⟩
  | gone hr =>
      obtain ⟨he, hpost⟩ := h.remove [] hact hs.1 hdup hr
      refine h.advance hact hpc hl he ⟨hpost, fun v hv => ?_⟩
      rw [← Option.some.inj hv]
      exact hs.2
  | insertLast hr =>
      obtain ⟨he, hsame, hpost⟩ := h.insertBefore [] hact hs.1 hr
      exact h.advance hact hpc hl he ⟨hpost, hsame.live hs.2.1, hs.2.2⟩
  | inserted hr =>
      obtain ⟨he, hsame, hpost⟩ := h.insertBefore [] hact hs.1 hr
      refine h.advance hact hpc hl he ⟨Or.inl ⟨hpost, hsame.live hs.2.1⟩, fun v hv => ?_⟩
      rw [← Option.some.inj hv]
      exact hs.2.2
  | unlock n r =>
      refine h.advance hact hpc hl ?_ (afterFind_standing producer k r)
      rw [afterFind_holds, afterFind_bucket]
      refine Effect.unlock hshape .rfl (fun x hx => ?_)
      obtain rfl := Ptr.node.inj hx
      exact hs.1

theorem Inv.insert (h : Inv cfg s a trace) (hact : act.enabled s = true) {pc : InsertPC N}
    {p : PC N K V} (hpc : s.pc t = .insert k v pc) (hstep : InsertStep cfg s k v pc act p) :
    Inv cfg (s.apply t act p) ((PC.insert k v pc).onLists a)
      (trace ++ [⟨t, .insert k v pc, .go, act⟩]) := by
  have hshape := h.shape
  have hs := h.standing t
  have hdup := h.nodes.nodup t
  rw [hpc] at hs hdup
  cases hstep with
  | getNodeFromPool hr =>
      obtain ⟨he, hpost⟩ := h.evict (i := .pool) [] hact hs hdup hr
      exact h.advance hact hpc rfl he hpost
  | pooled hr =>
      obtain ⟨he, hpost⟩ := h.evict (i := .pool) [] hact hs hdup hr
      exact h.advance hact hpc rfl he hpost
  | poolEmpty hr =>
      obtain ⟨he, -⟩ := h.evict (i := .pool) [] hact hs hdup hr
      exact h.advance hact hpc rfl he trivial
  | lruEvictHead hr =>
      obtain ⟨he, hpost⟩ := h.evict (i := .lru) [] hact hs hdup hr
      exact h.advance hact hpc rfl he hpost
  | evicted hr =>
      obtain ⟨he, hpost⟩ := h.evict (i := .lru) [] hact hs hdup hr
      exact h.advance hact hpc rfl he ⟨hpost.1, hpost.2.hashed⟩
  | lruEmpty hr =>
      obtain ⟨he, -⟩ := h.evict (i := .lru) [] hact hs hdup hr
      exact h.advance hact hpc rfl he trivial
  | unsetFlag n =>
      have hn : Ptr.node n ∈ (PC.insert k v (.unsetFlag n)).holds := by
        simp [PC.holds, InsertPC.holds]
      exact h.advance hact hpc rfl (Effect.lruSetFlag hshape hs.1.2 hn _) hs
  | published n => exact h.advance hact hpc rfl (Effect.read hshape .rfl) hs
  | await n => exact h.advance hact hpc rfl (Effect.read hshape .rfl) hs
  | @htRemove n q q' act hr =>
      obtain ⟨he, hpost⟩ := h.htRemove hact hs.2 hdup hr
      exact h.advance hact hpc rfl he ⟨(q.onLists_off n a).2 hs.1, hpost⟩
  | @unlinked n q act hr =>
      obtain ⟨he, hpost⟩ := h.htRemove hact hs.2 hdup hr
      exact h.advance hact hpc rfl he ⟨(q.onLists_off n a).2 hs.1, hpost⟩
  | @linked n q act hr =>
      obtain ⟨he, hpost⟩ := h.htRemove hact hs.2 hdup hr
      exact h.advance hact hpc rfl he ⟨(q.onLists_off n a).2 hs.1, hpost⟩
  | onDelete n => exact h.advance hact hpc rfl (Effect.read hshape .rfl) hs
  | loadDown n => exact h.advance hact hpc rfl (Effect.read hshape .rfl) hs
  | storeDown n c =>
      -- the wrapped value is irrelevant here: no part of the invariant reads the count
      generalize (c + (2 ^ 64 - 1)) % 2 ^ 64 = count at hact ⊢
      exact h.advance hact hpc rfl (Effect.setCount hshape count) hs
  | key n =>
      have hn : Ptr.node n ∈ (PC.insert k v (.key n)).holds := by simp [PC.holds, InsertPC.holds]
      exact h.advance hact hpc rfl (Effect.setKey hshape hs.2 hn k)
        ⟨hs.1, hs.2, Function.update_self ..⟩
  | value n =>
      refine h.effect hact ?_ ⟨hs.1, hs.2.1, hs.2.2, Function.update_self .., ?_⟩ (by simp)
      · rw [hpc]
        exact Effect.setValue hshape (by simp [PC.holds, InsertPC.holds]) v
      · -- this very step is the one that stored the value
        exact ⟨t, n, List.mem_append_right _ (List.mem_singleton_self _)⟩
  | loadUp n => exact h.advance hact hpc rfl (Effect.read hshape .rfl) hs
  | storeUp n c => exact h.advance hact hpc rfl (Effect.setCount hshape _) hs
  | setFlag n =>
      obtain ⟨hoff, hbare, rfl, rfl, hstored⟩ := hs
      exact h.advance hact hpc rfl
        (Effect.lruSetFlag hshape hoff.2 (by simp [PC.holds, InsertPC.holds]) _)
        ⟨hoff, hbare, Function.update_self .., hstored⟩
  | insertLast hr =>
      obtain ⟨he, hsame, hpost⟩ := h.insertBefore [] hact hs.1 hr
      exact h.advance hact hpc rfl he ⟨hpost, hsame.bare hs.2.1, hsame.filled hs.2.2⟩
  | inserted hr =>
      obtain ⟨he, hsame, hpost⟩ := h.insertBefore [] hact hs.1 hr
      exact h.advance hact hpc rfl he ⟨hpost, hsame.bare hs.2.1, hsame.filled hs.2.2⟩
  | @htInsert n q q' act hr =>
      obtain ⟨he, hfill, hpost⟩ := h.htInsert hs.1 hs.2.1 hr
      have hmem : n ∈ (q.onLists n a).lru := by
        rw [q.onLists_lru]
        exact hs.1
      exact h.advance hact hpc rfl he ⟨hmem, hpost, hfill hs.2.2⟩
  | @hashed n q act hr =>
      obtain ⟨he, hfill, hpost⟩ := h.htInsert hs.1 hs.2.1 hr
      have hfilled := hfill hs.2.2
      have hmem : n ∈ (q.onLists n a).lru := by
        rw [q.onLists_lru]
        exact hs.1
      exact h.advance hact hpc rfl he ⟨hmem, hfilled.1, hpost, hfilled.2⟩
  | unlock n =>
      refine h.advance hact hpc rfl (Effect.unlock hshape .rfl (fun x hx => ?_)) trivial
      obtain rfl := Ptr.node.inj hx
      exact Or.inl hs

omit [DecidableEq T] in
theorem Call.pc_fresh (c : Call K V) :
    c.pc.holds = ([] : List (Ptr N)) ∧ c.pc.bucket cfg = [] ∧ Standing cfg m a trace c.pc := by
  cases c <;> exact ⟨rfl, rfl, trivial⟩

/-- **Every step keeps the invariant.** -/
theorem Inv.step [DecidableEq K] {move : Move K V} (h : Inv cfg s a trace)
    (hstep : step cfg s t move = some (act, s')) :
    Inv cfg s' ((s.pc t).onLists a) (trace ++ [⟨t, s.pc t, move, act⟩]) := by
  obtain ⟨p, hmoved, hact, rfl⟩ := step_transition hstep
  generalize hpc : s.pc t = pc at hmoved ⊢
  cases hmoved with
  | call c =>
      obtain ⟨hholds, hbucket, hstanding⟩ := Call.pc_fresh c
      refine h.advance hact hpc rfl ?_ hstanding
      rw [hholds, hbucket]
      exact Effect.read h.shape .rfl
  | find hfind => exact h.find hact hpc rfl hfind
  | insert hinsert => exact h.insert hact hpc hinsert

end

end DeferredLru.ConcurrentLru
