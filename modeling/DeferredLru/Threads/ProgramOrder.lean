import DeferredLru.Threads.Linearization
import DeferredLru.Threads.Lists
import Mathlib.Data.List.Forall2

set_option autoImplicit false

/-! # The order of the operations

The operations of a run take effect in one order (`Linearization.lean`). It agrees with the order in
which the calls were made: between its start and its return a call makes the operations that answer
it, once each, and nothing else (`Run.program_order`). A `consumeCachedOrCompute` that misses makes
two, so other threads may insert the key between them. -/

namespace DeferredLru.Threads

open Intrusive Table

variable {N : ℕ} {K V T : Type} {cfg : Config N K} {s : State N K V T} {t : T} {act : Act N K V}
  {pc pc' : PC N K V} {fails : Bool} {move : Move K V}

/-! ## Calls and their operations -/

/-- The operations that answer a call. -/
inductive Answers : Call K V → List (Table.Op (Fin N) K V) → Prop
  | find (k : K) (r : Option V) : Answers (.find k) [.find k r]
  | insert (k : K) (v : V) (n : Fin N) : Answers (.insert k v) [.insert n k v]
  | hit (k : K) (x v : V) : Answers (.consumeCachedOrCompute k x) [.find k (some v)]
  | miss (k : K) (x : V) (n : Fin N) :
      Answers (.consumeCachedOrCompute k x) [.find k none, .insert n k x]
  | requestPull : Answers .requestPull []
  | requestPurge : Answers .requestPurge []

/-- The call that runs as a `find`. -/
def findCall (k : K) : Option V → Call K V
  | none => .find k
  | some x => .consumeCachedOrCompute k x

/-- The call that runs as an `insert`. -/
def insertCall (consume : Bool) (k : K) (v : V) : Call K V :=
  if consume then .consumeCachedOrCompute k v else .insert k v

/-- What a call has done before its `insert`. -/
def insertPast (consume : Bool) (k : K) : List (Table.Op (Fin N) K V) :=
  if consume then [.find k none] else []

/-- The operations that a `find` has made. -/
def FindPC.done (k : K) : FindPC N V → List (Table.Op (Fin N) K V)
  | .threshold r => [.find k r]
  | _ => []

/-- The operations that an `insert` has made. -/
def InsertPC.done (k : K) (v : V) : InsertPC N → List (Table.Op (Fin N) K V)
  | .bucket n (.unlock _) => [.insert n k v]
  | .add n _ => [.insert n k v]
  | .reset n => [.insert n k v]
  | _ => []

/-- A thread that stands here runs the call `c` and has made the operations `done` of it. -/
def PC.Running (c : Call K V) (done : List (Table.Op (Fin N) K V)) : PC N K V → Prop
  | .find producer k p => c = findCall k producer ∧ done = p.done k
  | .insert consume k v p => c = insertCall consume k v ∧ done = insertPast consume k ++ p.done k v
  | .consolidate .request _ => (c = .requestPull ∨ c = .requestPurge) ∧ done = []
  | .consolidate (.find producer k r) _ => c = findCall k producer ∧ done = [.find k r]
  | .consolidate (.insert consume k v) _ => c = insertCall consume k v ∧ done = insertPast consume k
  | _ => False

/-- The value that was assigned to the consumer is the one of the last operation. -/
def PC.Delivers (done : List (Table.Op (Fin N) K V)) : PC N K V → Prop
  | .delivered k v => ∃ past, done = past ++ [.find k (some v)] ∨ ∃ n, done = past ++ [.insert n k v]
  | _ => True

/-- The call goes on, or has returned. -/
def Continues (c : Call K V) (done : List (Table.Op (Fin N) K V)) (pc : PC N K V) : Prop :=
  pc.Running c done ∨ (pc.atRest = true ∧ Answers c done ∧ pc.Delivers done)

/-- The operation of the thread's own call that takes effect with the step. -/
def Label.answer (l : Label N K V T) : Option (Table.Op (Fin N) K V) :=
  match l.op with
  | some (.evict _) => none
  | r => r

section Calls

variable {c : Call K V} {done : List (Table.Op (Fin N) K V)} {producer : Option V} {k : K} {v : V}
  {consume : Bool} {back : Back K V}

theorem afterFind_continues (hc : c = findCall k producer) (r : Option V) :
    Continues c [.find k r] (afterFind producer k r : PC N K V) := by
  subst hc
  cases producer with
  | none =>
      cases r with
      | none => exact Or.inr ⟨rfl, .find k none, trivial⟩
      | some v => exact Or.inr ⟨rfl, .find k (some v), trivial⟩
  | some x =>
      cases r with
      | none => exact Or.inl ⟨rfl, rfl⟩
      | some v => exact Or.inr ⟨rfl, .hit k x v, [], Or.inl rfl⟩

/-- `consolidateCache` returns to where the call goes on. -/
theorem Back.pc_continues {p : ConsolidatePC N}
    (h : (PC.consolidate back p : PC N K V).Running c done) : Continues c done back.pc := by
  cases back with
  | request =>
      obtain ⟨rfl | rfl, rfl⟩ := h
      · exact Or.inr ⟨rfl, .requestPull, trivial⟩
      · exact Or.inr ⟨rfl, .requestPurge, trivial⟩
  | find producer k r =>
      obtain ⟨hc, rfl⟩ := h
      exact afterFind_continues hc r
  | insert consume k v =>
      obtain ⟨hc, rfl⟩ := h
      exact Or.inl ⟨hc, (List.append_nil _).symm⟩

theorem PC.Running.consolidate {p p' : ConsolidatePC N}
    (h : (PC.consolidate back p : PC N K V).Running c done) :
    (PC.consolidate back p' : PC N K V).Running c done := by
  cases back <;> exact h

theorem nextConsolidate_continues {p : ConsolidatePC N}
    (h : (PC.consolidate back p : PC N K V).Running c done)
    (hnext : nextConsolidate cfg s fails back p = some (act, pc')) : Continues c done pc' := by
  cases p with
  | tryLock =>
      simp only [nextConsolidate] at hnext
      split_ifs at hnext <;> cases hnext
      · exact Or.inl h.consolidate
      · exact Back.pc_continues h
  | purge p =>
      obtain ⟨⟨a, q⟩, hq, heq⟩ := Option.map_eq_some_iff.1 hnext
      cases heq
      cases q <;> exact Or.inl h.consolidate
  | pull p =>
      obtain ⟨⟨a, q⟩, hq, heq⟩ := Option.map_eq_some_iff.1 hnext
      cases heq
      cases q <;> exact Or.inl h.consolidate
  | unlock =>
      cases hnext
      exact Back.pc_continues h
  | _ =>
      cases hnext
      exact Or.inl h.consolidate

theorem allocateAt_running (hc : c = insertCall consume k v) (p : Ptr N) :
    (allocateAt consume k v p).Running c (insertPast consume k) := by
  cases p with
  | null => exact ⟨hc, rfl⟩
  | _ => exact ⟨hc, (List.append_nil _).symm⟩

/-- `insert` makes one operation, when it puts the node in its bucket. -/
theorem nextInsert_continues {p : InsertPC N} (hc : c = insertCall consume k v)
    (hnext : nextInsert cfg s fails consume k v p = some (act, pc')) (t : T) :
    Continues c (insertPast consume k ++ p.done k v ++
      (Label.answer ⟨t, .insert consume k v p, .go fails, act⟩).toList) pc' := by
  cases p with
  | allocate p =>
      simp only [InsertPC.done, Label.answer, Label.op, Option.toList_none, List.append_nil]
      cases p with
      | load =>
          cases hnext
          exact Or.inl (allocateAt_running hc _)
      | loadNext node =>
          simp only [nextInsert] at hnext
          split_ifs at hnext
          cases hnext
          exact Or.inl ⟨hc, (List.append_nil _).symm⟩
      | cas node link =>
          simp only [nextInsert] at hnext
          split_ifs at hnext
          · cases node <;> cases hnext
            exact Or.inl ⟨hc, (List.append_nil _).symm⟩
          · cases hnext
            exact Or.inl (allocateAt_running hc _)
  | bucket n p =>
      obtain ⟨⟨a, q⟩, hq, heq⟩ := Option.map_eq_some_iff.1 hnext
      cases heq
      cases p with
      | lock b =>
          simp only [nextLink] at hq
          split_ifs at hq
          cases hq
          exact Or.inl ⟨hc, List.append_nil _⟩
      | storeHead b =>
          cases hq
          refine Or.inl ⟨hc, ?_⟩
          simp only [InsertPC.done, List.append_nil]
          rfl
      | _ =>
          cases hq
          exact Or.inl ⟨hc, List.append_nil _⟩
  | add n p =>
      obtain ⟨⟨a, q⟩, hq, heq⟩ := Option.map_eq_some_iff.1 hnext
      cases heq
      cases q <;> exact Or.inl ⟨hc, List.append_nil _⟩
  | reset n =>
      cases hnext
      simp only [InsertPC.done, Label.answer, Label.op, Option.toList_none, List.append_nil]
      subst hc
      cases consume with
      | false => exact Or.inr ⟨rfl, .insert k v n, trivial⟩
      | true => exact Or.inr ⟨rfl, .miss k v n, [.find k none], Or.inr ⟨n, rfl⟩⟩
  | _ =>
      cases hnext
      exact Or.inl ⟨hc, List.append_nil _⟩

variable [DecidableEq K]

/-- `find` makes one operation, when it gives the bucket lock back. -/
theorem nextFind_continues {p : FindPC N V} (hc : c = findCall k producer)
    (hnext : nextFind cfg s fails producer k p = some (act, pc')) (t : T) :
    Continues c (p.done k ++ (Label.answer ⟨t, .find producer k p, .go fails, act⟩).toList) pc' := by
  cases p with
  | lock =>
      simp only [nextFind] at hnext
      split_ifs at hnext
      cases hnext
      exact Or.inl ⟨hc, rfl⟩
  | load =>
      cases hnext
      refine Or.inl ⟨hc, ?_⟩
      cases s.mem.buckets (cfg.keyToBucketNr k) <;> rfl
  | key n =>
      cases hnext
      by_cases hk : s.mem.key n = k
      · rw [if_pos hk]
        exact Or.inl ⟨hc, rfl⟩
      · rw [if_neg hk]
        exact Or.inl ⟨hc, rfl⟩
  | next n =>
      cases hnext
      refine Or.inl ⟨hc, ?_⟩
      cases s.mem.bucketNext n <;> rfl
  | mark n r p =>
      obtain ⟨⟨a, q⟩, hq, heq⟩ := Option.map_eq_some_iff.1 hnext
      cases heq
      cases q <;> exact Or.inl ⟨hc, rfl⟩
  | threshold r =>
      cases hnext
      cases recentThresholdHit cfg s.mem with
      | true => exact Or.inl ⟨hc, rfl⟩
      | false => exact afterFind_continues hc r
  | _ =>
      cases hnext
      exact Or.inl ⟨hc, rfl⟩

/-- **A step of a running call** makes an operation of it, or none. -/
theorem next_continues (h : pc.Running c done) (hnext : next cfg s pc move = some (act, pc')) (t : T) :
    Continues c (done ++ (Label.answer ⟨t, pc, move, act⟩).toList) pc' := by
  cases next_transition hnext with
  | call hidle c' => rcases hidle with rfl | ⟨k, v, rfl⟩ <;> exact h.elim
  | find hfind =>
      obtain ⟨hc, rfl⟩ := h
      exact nextFind_continues hc hfind t
  | insert hinsert =>
      obtain ⟨hc, rfl⟩ := h
      exact nextInsert_continues hc hinsert t
  | @consolidate back p fails _ _ hconsolidate =>
      -- a consolidation only evicts
      have hnone : Label.answer ⟨t, .consolidate back p, .go fails, act⟩ = none := by
        unfold Label.answer Label.op
        split <;> split at * <;> simp_all
      rw [hnone, Option.toList_none, List.append_nil]
      exact nextConsolidate_continues h hconsolidate

end Calls

/-! ## Histories of one thread -/

section Moves

variable [DecidableEq K]

theorem next_call {c : Call K V} (h : next cfg s pc (.call c) = some (act, pc')) :
    pc.atRest = true ∧ pc' = c.pc := by
  cases pc with
  | idle =>
      cases h
      exact ⟨rfl, rfl⟩
  | delivered k v =>
      cases h
      exact ⟨rfl, rfl⟩
  | _ => cases h

theorem next_go (h : next cfg s pc (.go fails) = some (act, pc')) :
    pc.atRest = false := by
  cases pc with
  | idle => cases h
  | delivered k v => cases h
  | _ => rfl

end Moves

/-- The call that is made with the move. -/
def Move.called : Move K V → Option (Call K V)
  | .call c => some c
  | .go _ => none

variable [DecidableEq T]

/-- The calls that the thread has made. -/
def callsOf (t : T) (trace : List (Label N K V T)) : List (Call K V) :=
  trace.filterMap fun l => if l.thread = t then l.move.called else none

/-- The operations of the thread's own calls that have taken effect. -/
def answersOf (t : T) (trace : List (Label N K V T)) : List (Table.Op (Fin N) K V) :=
  trace.filterMap fun l => if l.thread = t then l.answer else none

/-- The past calls of the thread have been answered, each by its own operations, in order; of the
    running one some operations may have been made. -/
def InOrder (t : T) (trace : List (Label N K V T)) (pc : PC N K V) : Prop :=
  ∃ past answers, List.Forall₂ Answers past answers ∧
    ((callsOf t trace = past ∧ answersOf t trace = answers.flatten ∧ pc.atRest = true ∧
      pc.Delivers (answersOf t trace)) ∨
    ∃ c done, callsOf t trace = past ++ [c] ∧ answersOf t trace = answers.flatten ++ done ∧
      pc.Running c done)

theorem PC.Delivers.append {past done : List (Table.Op (Fin N) K V)} (h : pc.Delivers done) :
    pc.Delivers (past ++ done) := by
  cases pc with
  | delivered k v =>
      obtain ⟨ops, hops⟩ := h
      refine ⟨past ++ ops, ?_⟩
      rcases hops with rfl | ⟨n, rfl⟩
      · exact Or.inl (List.append_assoc ..).symm
      · exact Or.inr ⟨n, (List.append_assoc ..).symm⟩
  | _ => trivial

theorem Call.pc_running (c : Call K V) : (c.pc : PC N K V).Running c [] := by
  cases c with
  | requestPull => exact ⟨Or.inl rfl, rfl⟩
  | requestPurge => exact ⟨Or.inr rfl, rfl⟩
  | _ => exact ⟨rfl, rfl⟩

variable {trace : List (Label N K V T)}

/-- A step of another thread. -/
theorem InOrder.other {l : Label N K V T} (h : InOrder t trace pc) (hne : l.thread ≠ t) :
    InOrder t (trace ++ [l]) pc := by
  unfold InOrder callsOf answersOf at *
  simp only [filterMap_concat, if_neg hne, Option.toList_none, List.append_nil]
  exact h

variable [DecidableEq K]

/-- **A step of the thread itself.** -/
theorem InOrder.step (h : InOrder t trace pc) (hnext : next cfg s pc move = some (act, pc')) :
    InOrder t (trace ++ [⟨t, pc, move, act⟩]) pc' := by
  obtain ⟨past, answers, hanswers, hnow⟩ := h
  have hcalls : callsOf t (trace ++ [⟨t, pc, move, act⟩]) = callsOf t trace ++ move.called.toList := by
    unfold callsOf
    rw [filterMap_concat, if_pos rfl]
  have hops : answersOf t (trace ++ [⟨t, pc, move, act⟩]) =
      answersOf t trace ++ (Label.answer ⟨t, pc, move, act⟩).toList := by
    unfold answersOf
    rw [filterMap_concat, if_pos rfl]
  cases move with
  | call c =>
      obtain ⟨hrest, rfl⟩ := next_call hnext
      rcases hnow with ⟨hpast, hdone, -⟩ | ⟨c', done, -, -, hrun⟩
      · have hnone : Label.answer ⟨t, pc, .call c, act⟩ = none := by
          cases pc with
          | idle => rfl
          | delivered k v => rfl
          | _ => cases hrest
        refine ⟨past, answers, hanswers, Or.inr ⟨c, [], ?_, ?_, Call.pc_running c⟩⟩
        · rw [hcalls, hpast]
          rfl
        · rw [hops, hnone, hdone]
          rfl
      · cases pc with
        | idle => exact hrun.elim
        | delivered k v => exact hrun.elim
        | _ => cases hrest
  | go fails =>
      rcases hnow with ⟨-, -, hrest, -⟩ | ⟨c, done, hpast, hdone, hrun⟩
      · rw [next_go hnext] at hrest
        cases hrest
      · rw [show (Move.go fails : Move K V).called = none from rfl, Option.toList_none,
          List.append_nil, hpast] at hcalls
        rw [hdone, List.append_assoc] at hops
        rcases next_continues hrun hnext t with hrun' | ⟨hrest, hanswer, hdelivers⟩
        · exact ⟨past, answers, hanswers, Or.inr ⟨c, _, hcalls, hops, hrun'⟩⟩
        · -- the call has returned, and joins the past ones
          refine ⟨past ++ [c], answers ++ [_], List.rel_append hanswers (.cons hanswer .nil),
            Or.inl ⟨hcalls, ?_, hrest, ?_⟩⟩
          · rw [hops, List.flatten_append, List.flatten_singleton]
          · rw [hops]
            exact hdelivers.append

/-! ## Runs -/

variable [Inhabited K] [Inhabited V] {ok : State N K V T → Label N K V T → Prop}

theorem Run.inOrder (h : Run cfg ok s trace) (t : T) : InOrder t trace (s.pc t) := by
  induction h with
  | start => exact ⟨[], [], .nil, Or.inl ⟨rfl, rfl, rfl, trivial⟩⟩
  | @step s s' trace u move act _ hstep hok ih =>
      obtain ⟨pc', hnext, rfl⟩ := step_eq hstep
      show InOrder t _ (Function.update s.pc u pc' t)
      by_cases hu : u = t
      · subst hu
        rw [Function.update_self]
        exact ih.step hnext
      · rw [Function.update_of_ne (Ne.symm hu)]
        exact ih.other hu

/-- **Program order.** In every run, a thread that has returned from its calls has made exactly the
    operations that answer them, in the order of the calls; and the value that a
    `consumeCachedOrCompute` delivers is the one of its last operation. -/
theorem Run.program_order (h : Run cfg ok s trace) (t : T) (hrest : (s.pc t).atRest = true) :
    (∃ answers, List.Forall₂ Answers (callsOf t trace) answers ∧
      answersOf t trace = answers.flatten) ∧ (s.pc t).Delivers (answersOf t trace) := by
  obtain ⟨past, answers, hanswers, ⟨rfl, hops, -, hdelivers⟩ | ⟨c, done, -, -, hrun⟩⟩ := h.inOrder t
  · exact ⟨⟨answers, hanswers, hops⟩, hdelivers⟩
  · exfalso
    generalize s.pc t = pc at hrest hrun
    cases pc with
    | idle => exact hrun
    | delivered k v => exact hrun
    | _ => cases hrest

/-- Thread 2 inserts key 10 between the miss and the insertion of thread 1. -/
theorem Run.program_order_miss : ∃ (s : State 2 ℕ ℕ ℕ) (trace : List (Label 2 ℕ ℕ ℕ)),
    trace.filterMap Label.op = [.find 10 none, .insert 0 10 200, .insert 1 10 100] ∧
      answersOf 1 trace = [.find 10 none, .insert 1 10 100] ∧
      (∃ answers, List.Forall₂ Answers (callsOf 1 trace) answers ∧
        answersOf 1 trace = answers.flatten) ∧ (s.pc 1).Delivers (answersOf 1 trace) := by
  obtain ⟨s, trace, hrun, hgood⟩ := Run.of_play twoNodes (fun _ _ => True) (fun _ _ => true)
    (fun _ _ _ => trivial)
    ((1, .call (.consumeCachedOrCompute 10 100)) :: goes 1 4 ++ (2, .call (.insert 10 200)) ::
      goes 2 19 ++ goes 1 19)
    (fun (s : State 2 ℕ ℕ ℕ) trace => (s.pc 1).atRest = true ∧
      trace.filterMap Label.op = [.find 10 none, .insert 0 10 200, .insert 1 10 100] ∧
      answersOf 1 trace = [.find 10 none, .insert 1 10 100]) (by decide +kernel)
  obtain ⟨hrest, hops, hanswers⟩ := of_decide_eq_true hgood
  exact ⟨s, trace, hops, hanswers, hrun.program_order 1 hrest⟩

end DeferredLru.Threads
