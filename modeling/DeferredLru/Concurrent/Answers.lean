import DeferredLru.Concurrent.History

set_option autoImplicit false

/-! # What a lookup of `ConcurrentLRU` answers

`find` takes its time: `htFind` finds a node under the lock of the bucket, gives the lock back, and
only then `find` takes the lock of the node, tests it and reads the value. In between the node may have
been evicted and filled again. The value read is all the same the one of the newest entry at some
moment of the call: either the entry found is still there, or the one read was inserted in between. If
the test fails, the entry found was evicted in between (`Run.find_answers`).

A call of a thread begins with a step of the idle thread; `During` is about the operations before this
step and since. -/

namespace DeferredLru.ConcurrentLru

open Intrusive Table

variable {N : ℕ} {K V T : Type} {cfg : Config N K} {s s' : State N K V T} {a : Lists N}
  {trace : List (Label N K V T)} {act : Act N K V} {t : T} {n : Fin N} {k : K} {r : Option V}
  {pc p : PC N K V} {move : Move K V}

/-! ## The running call -/

/-- `P` holds of the operations before the last call of the thread and of those since. -/
def During (t : T) (trace : List (Label N K V T))
    (P : List (Table.Op (Fin N) K V) → List (Table.Op (Fin N) K V) → Prop) : Prop :=
  ∃ before c during, trace = before ++ ⟨t, .idle, .call c, .read⟩ :: during ∧
    (∀ l ∈ during, l.thread = t → l.pc ≠ .idle) ∧
    P (before.filterMap Label.op) (during.filterMap Label.op)

variable {P Q : List (Table.Op (Fin N) K V) → List (Table.Op (Fin N) K V) → Prop}

theorem During.start (c : Call K V) (hP : P (trace.filterMap Label.op) []) :
    During t (trace ++ [⟨t, .idle, .call c, .read⟩]) P :=
  ⟨trace, c, [], rfl, by simp, hP⟩

theorem During.step {l : Label N K V T} (h : During t trace P) (hl : l.thread = t → l.pc ≠ .idle)
    (hPQ : ∀ past ops, trace.filterMap Label.op = past ++ ops → P past ops →
      Q past (ops ++ l.op.toList)) : During t (trace ++ [l]) Q := by
  obtain ⟨before, c, during, rfl, hduring, hP⟩ := h
  refine ⟨before, c, during ++ [l], by simp, fun x hx => ?_, ?_⟩
  · rcases List.mem_append.1 hx with hx | hx
    · exact hduring x hx
    · rw [List.mem_singleton.1 hx]
      exact hl
  · rw [filterMap_concat]
    refine hPQ _ _ ?_ hP
    rw [List.filterMap_append, List.filterMap_cons_none rfl]

theorem During.imp (h : During t trace P)
    (hPQ : ∀ past ops, trace.filterMap Label.op = past ++ ops → P past ops → Q past ops) :
    During t trace Q := by
  obtain ⟨before, c, during, rfl, hduring, hP⟩ := h
  refine ⟨before, c, during, rfl, hduring, hPQ _ _ ?_ hP⟩
  rw [List.filterMap_append, List.filterMap_cons_none rfl]

/-! ## What a `find` knows of its answer -/

variable [DecidableEq K]

/-- The newest entry with the key had this handle at some moment. -/
def Found (n : Fin N) (k : K) (past ops : List (Table.Op (Fin N) K V)) : Prop :=
  ∃ ops₁ ops₂ l e, ops = ops₁ ++ ops₂ ∧ Replays (past ++ ops₁) l ∧
    (l.find? fun x => x.key = k) = some e ∧ e.handle = n

theorem Found.mono {past ops : List (Table.Op (Fin N) K V)} (h : Found n k past ops)
    (more : List (Table.Op (Fin N) K V)) : Found n k past (ops ++ more) := by
  obtain ⟨ops₁, ops₂, l, e, rfl, hl, hfind, hn⟩ := h
  exact ⟨ops₁, ops₂ ++ more, l, e, List.append_assoc .., hl, hfind, hn⟩

/-- What is known of the answer. -/
def FindPC.Knows (k : K) (past ops : List (Table.Op (Fin N) K V)) : FindPC N V → Prop
  | .search _ => True
  | .lock n => Found n k past ops
  | .test n => Found n k past ops
  | .value n => Found n k past ops
  | .remove _ r _ => Answer past ops k (some r)
  | .insertLast _ r _ => Answer past ops k (some r)
  | .unlock _ r => Answer past ops k r

theorem FindPC.Knows.mono {q : FindPC N V} {past ops : List (Table.Op (Fin N) K V)}
    (h : q.Knows k past ops) (more : List (Table.Op (Fin N) K V)) : q.Knows k past (ops ++ more) := by
  cases q with
  | search q => trivial
  | lock n => exact Found.mono h more
  | test n => exact Found.mono h more
  | value n => exact Found.mono h more
  | remove n r q => exact Answer.mono h more
  | insertLast n r q => exact Answer.mono h more
  | unlock n r => exact Answer.mono h more

/-- If the thread is in a `find`, it knows what its program counter says. -/
def PC.Finding (t : T) (trace : List (Label N K V T)) (pc : PC N K V) : Prop :=
  ∀ producer k q, pc = .find producer k q → During t trace fun past ops => q.Knows k past ops

theorem afterFind_finding (producer : Option V) (k : K) (r : Option V) :
    (afterFind producer k r).Finding t trace := by
  unfold afterFind
  split <;> nofun

/-- What a `find` returns, at its last access but the unlocks. -/
def PC.answer : PC N K V → Option (K × Option V)
  | .find _ k (.search (.unlock none)) => some (k, none)
  | .find _ k (.unlock _ r) => some (k, r)
  | _ => none

/-- The test of a node found that fails. -/
theorem test_invalid {producer : Option V}
    (hnext : next cfg s (.find producer k (.test n)) move =
      some (act, .find producer k (.unlock n none))) :
    ¬ (s.mem.lruFlag n = true ∧ s.mem.key n = k) := by
  intro hvalid
  cases move with
  | call c => cases hnext
  | go =>
      simp only [next, nextFind, if_pos hvalid] at hnext
      cases hnext

variable {l : List (Table.Entry (Fin N) K V)}

/-- A node that is in no bucket, or with another key, carries no entry with the key. -/
theorem Tabled.no_entry (ht : Tabled cfg s a l) (hshape : Shape cfg s.mem a)
    (hrest : AtRest cfg s.mem a trace n) (hinvalid : ¬ (s.mem.lruFlag n = true ∧ s.mem.key n = k)) :
    ∀ e ∈ l, e.handle = n → e.key ≠ k := by
  rintro e he rfl rfl
  have hkey := ht.parts.key e he
  rcases hrest with ⟨-, hlive⟩ | hpool
  · exact hinvalid ⟨hlive.flag, hkey⟩
  · exact (hshape.pooled _ hpool).2 _ ((ht.parts.mem_iff _).2 ⟨e, he, rfl, rfl⟩)

variable [DecidableEq T]

theorem step_next (hstep : step cfg s t move = some (act, s')) :
    ∃ p, next cfg s (s.pc t) move = some (act, p) ∧ s' = s.apply t act p := by
  obtain ⟨⟨act', p⟩, hnext, heq⟩ := Option.bind_eq_some_iff.1 hstep
  dsimp only at heq
  split at heq
  case isFalse => cases heq
  case isTrue =>
    cases heq
    exact ⟨p, hnext, rfl⟩

omit [DecidableEq T] in
/-- **A step of the `find`** itself. -/
theorem Tabled.finding_self (ht : Tabled cfg s a l) (h : Inv cfg s a trace)
    (hreplays : Replays (trace.filterMap Label.op) l)
    (hnext : next cfg s (s.pc t) move = some (act, p)) (hp : (s.pc t).Finding t trace) :
    p.Finding t (trace ++ [⟨t, s.pc t, move, act⟩]) := by
  have hmoved := next_transition hnext
  have hs := h.standing t
  have hsearch := ht.searching t
  generalize s.pc t = pc at hnext hp hmoved hs hsearch ⊢
  cases hmoved with
  | call c =>
      rintro producer k q hc
      cases c <;> cases hc <;> exact During.start _ trivial
  | insert hinsert =>
      rintro producer k q rfl
      cases hinsert
  | @find producer k q₀ _ _ hfind =>
      have hnow := hp producer k q₀ rfl
      have hknow : ∀ q' : FindPC N V, (∀ past ops, trace.filterMap Label.op = past ++ ops →
          q₀.Knows k past ops → q'.Knows k past ops) →
          (PC.find producer k q').Finding t
            (trace ++ [⟨t, .find producer k q₀, .go, act⟩]) := by
        rintro q' hq' _ _ _ heq
        cases heq
        exact hnow.step nofun fun past ops hops hP => (hq' past ops hops hP).mono _
      cases hfind with
      | search hr => exact hknow _ fun _ _ _ hP => hP
      | missing hr => exact afterFind_finding producer k none
      | unlock n r => exact afterFind_finding producer k r
      | @found q n _ hr =>
          -- the bucket is still locked, so the node found carries the newest entry
          have hq : (a.bucket (cfg.whichBucket k)).find? (fun x => s.mem.key x = k) = some n := by
            cases q with
            | unlock r' =>
                cases hr
                exact hsearch
            | _ => cases hr
          rw [← ht.parts.find k] at hq
          obtain ⟨e, he, hn⟩ := Option.map_eq_some_iff.1 hq
          refine hknow _ fun past ops heq _ => ?_
          rw [heq] at hreplays
          exact ⟨ops, [], l, e, (List.append_nil _).symm, hreplays, he, hn⟩
      | lock n => exact hknow _ fun _ _ _ hP => hP
      | valid n hflag hkey => exact hknow _ fun _ _ _ hP => hP
      | invalid n =>
          have hnone := ht.no_entry h.shape hs (test_invalid hnext)
          refine hknow _ fun past ops heq hP => ?_
          obtain ⟨ops₁, ops₂, l₁, e, rfl, hl₁, hfirst, rfl⟩ := hP
          rw [heq] at hreplays
          exact Answer.missed hl₁ (List.mem_of_find?_eq_some hfirst)
            (by simpa using List.find?_some hfirst) hreplays hnone
      | value n =>
          obtain ⟨-, hlive, rfl⟩ := hs
          obtain ⟨e, he, rfl, -⟩ := (ht.parts.mem_iff _).1 hlive.hashed.2
          refine hknow _ fun past ops heq hP => ?_
          obtain ⟨ops₁, ops₂, l₁, e₁, rfl, hl₁, hfirst, hfound⟩ := hP
          rw [heq] at hreplays
          have hlate := Answer.late hl₁ hfirst hreplays he hfound.symm (ht.parts.key e he).symm
          rw [← ht.parts.value e he] at hlate
          exact hlate
      | remove hr => exact hknow _ fun _ _ _ hP => hP
      | removed hr => exact hknow _ fun _ _ _ hP => hP
      | gone hr => exact hknow _ fun _ _ _ hP => hP
      | insertLast hr => exact hknow _ fun _ _ _ hP => hP
      | inserted hr => exact hknow _ fun _ _ _ hP => hP

omit [DecidableEq T] in
/-- What is returned is an answer. -/
theorem Tabled.answer (ht : Tabled cfg s a l) (hreplays : Replays (trace.filterMap Label.op) l)
    (hp : (s.pc t).Finding t trace) (hr : (s.pc t).answer = some (k, r)) :
    During t trace fun past ops => Answer past ops k r := by
  have hsearch := ht.searching t
  generalize s.pc t = pc at hp hr hsearch
  unfold PC.answer at hr
  split at hr <;> cases hr
  · -- nothing was found in the bucket, which is still locked
    have hnone : Table.lookup k l = none := by
      have hfind := ht.parts.find k
      rw [show (a.bucket (cfg.whichBucket k)).find? _ = none from hsearch] at hfind
      rw [Table.lookup, Option.map_eq_none_iff.1 hfind]
      rfl
    refine (hp _ _ _ rfl).imp fun past ops heq _ => ?_
    rw [heq] at hreplays
    rw [← hnone]
    exact .seen (List.append_nil _).symm hreplays
  · exact hp _ _ _ rfl

/-! ## Runs -/

variable [Inhabited K] [Inhabited V] {ok : State N K V T → Label N K V T → Prop}

theorem Run.finding (h : Run cfg ok s trace) :
    (∃ a l, Inv cfg s a trace ∧ Tabled cfg s a l ∧ Replays (trace.filterMap Label.op) l) ∧
      (∀ t, (s.pc t).Finding t trace) ∧
      ∀ past l rest, trace = past ++ l :: rest → ∀ k r, l.pc.answer = some (k, r) →
        During l.thread past fun past ops => Answer past ops k r := by
  induction h with
  | start => exact ⟨(Run.start : Run cfg ok _ _).tabled, fun _ => nofun, fun past l rest heq => by simp at heq⟩
  | @step s s' trace t move act hrun hstep hok ih =>
      obtain ⟨⟨a, l, hinv, htabled, hreplays⟩, hfinding, hanswers⟩ := ih
      refine ⟨(hrun.step hstep hok).tabled, fun u => ?_, fun past l' rest heq k r hr => ?_⟩
      · obtain ⟨p, hnext, rfl⟩ := step_next hstep
        show (Function.update s.pc t p u).Finding u _
        by_cases hu : u = t
        · subst hu
          rw [Function.update_self]
          exact htabled.finding_self hinv hreplays hnext (hfinding u)
        · rw [Function.update_of_ne hu]
          rintro producer k q hq
          exact (hfinding u producer k q hq).step (fun heq => absurd heq.symm hu)
            fun past ops _ hP => hP.mono _
      · rcases concat_split heq with ⟨rfl, rfl, -⟩ | ⟨rest', rfl, -⟩
        · exact htabled.answer hreplays (hfinding t) hr
        · exact hanswers past l' rest' rfl k r hr

/-- **What a lookup answers.** The insertions and evictions are a legal history of a table. A `find`
    that returns a value returns the one of the newest entry with the key at some moment of the call.
    One that returns none was made while there was no entry with the key at some moment, or while one
    of several was evicted. -/
theorem Run.find_answers (h : Run cfg ok s trace) {past rest : List (Label N K V T)}
    {l : Label N K V T} (heq : trace = past ++ l :: rest) (hr : l.pc.answer = some (k, r)) :
    (∃ table, Replays (trace.filterMap Label.op) table) ∧
      During l.thread past fun past ops => Answer past ops k r := by
  obtain ⟨⟨_, table, -, -, hreplays⟩, -, hanswers⟩ := h.finding
  exact ⟨⟨table, hreplays⟩, hanswers past l rest heq k r hr⟩

/-- Thread 2 finds the first of two nodes with key 10, and waits while thread 1 evicts it. -/
theorem Run.find_answers_hidden : ∃ (s : State 2 ℕ ℕ ℕ) (past rest : List (Label 2 ℕ ℕ ℕ))
    (l : Label 2 ℕ ℕ ℕ), Run twoNodes (fun _ _ => True) s (past ++ l :: rest) ∧
      past.filterMap Label.op = [.insert 0 10 100, .insert 1 10 200, .evict 0, .insert 0 20 300] ∧
      l.pc.answer = some (10, none) ∧
      (∃ table, Replays ((past ++ l :: rest).filterMap Label.op) table) ∧
      During l.thread past fun past ops => Answer past ops 10 none := by
  obtain ⟨s, trace, hrun, hgood⟩ := Run.of_play twoNodes (fun _ _ => True) (fun _ _ => true)
    (fun _ _ _ => trivial)
    (calls 1 (.insert 10 100) 28 ++ calls 2 (.find 10) 4 ++ calls 1 (.insert 10 200) 28 ++
      calls 1 (.insert 20 300) 47 ++ goes 2 3)
    (fun _ trace => (trace.dropLast.filterMap Label.op =
        [.insert 0 10 100, .insert 1 10 200, .evict 0, .insert 0 20 300]) ∧
      trace.getLast?.bind (fun l => l.pc.answer) = some (10, none)) (by decide +kernel)
  obtain ⟨hops, hlast⟩ := of_decide_eq_true hgood
  obtain ⟨l, hl, hr⟩ := Option.bind_eq_some_iff.1 hlast
  have htrace := List.dropLast_append_getLast? l hl
  rw [← htrace] at hrun
  exact ⟨s, trace.dropLast, [], l, hrun, hops, hr, hrun.find_answers rfl hr⟩

end DeferredLru.ConcurrentLru
