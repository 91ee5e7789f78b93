import DeferredLru.Deferred.Runs
import DeferredLru.Lib.Trace
import DeferredLru.Threads.Sites

set_option autoImplicit false

/-! # Requests

`requestPull` and `requestPurge` raise a flag and leave the work to whoever holds `lru_lock_`. The
holder tests the flag, runs the stage and clears the flag, so a raise after the start of the stage and
before the clear is wiped out (`Run.not_requests_kept`). Raises at all other times are kept until a
stage that starts later (`Run.requests_kept`). The two flags are treated alike. -/

namespace DeferredLru.Threads

open Intrusive

variable {N : ℕ} {K V T : Type}

/-- What a thread can request of the consolidation. -/
inductive Request where
  | pull
  | purge
  deriving DecidableEq

namespace Request

/-- The flag of the request. -/
def flag : Request → Mem N K V → Bool
  | .pull, m => m.pullRequest
  | .purge, m => m.purgeRequest

/-- The store of `true` to the flag. -/
def raised (r : Request) (l : Label N K V T) : Bool :=
  match r, l.act with
  | .pull, .setPullRequest true => true
  | .purge, .setPurgeRequest true => true
  | _, _ => false

/-- The first access of `pullRecent` or `purgeOld`. -/
def started (r : Request) (l : Label N K V T) : Bool :=
  match r, l.pc with
  | .pull, .consolidate _ (.pull .exchange) => true
  | .purge, .consolidate _ (.purge .tail) => true
  | _, _ => false

/-- The stage has started and the flag is still to be cleared. -/
def serving : Request → PC N K V → Bool
  | .pull, .consolidate _ (.pull .exchange) => false
  | .pull, .consolidate _ (.pull _) => true
  | .pull, .consolidate _ .clearPull => true
  | .purge, .consolidate _ (.purge .tail) => false
  | .purge, .consolidate _ (.purge _) => true
  | .purge, .consolidate _ .clearPurge => true
  | _, _ => false

/-- The flag has been raised and no stage has started since. -/
def Unanswered (r : Request) (trace : List (Label N K V T)) : Prop :=
  Since (fun _ l => r.raised l = true) (fun l => r.started l = true) trace

instance (r : Request) (trace : List (Label N K V T)) : Decidable (r.Unanswered trace) :=
  inferInstanceAs (Decidable (Since _ _ trace))

end Request

/-- The thread is inside `consolidateCache`. -/
def PC.consolidating : PC N K V → Bool
  | .consolidate _ .raisePull => false
  | .consolidate _ .raisePurge => false
  | .consolidate _ _ => true
  | _ => false

/-! ## Steps -/

section Steps

variable {cfg : Config N K} {s : State N K V T} {t : T} {r : Request} {act : Act N K V}
  {pc pc' : PC N K V}

theorem Request.afterFind_serving (r : Request) (producer : Option V) (k : K) (x : Option V) :
    r.serving (afterFind producer k x : PC N K V) = false := by
  cases r <;> cases producer <;> cases x <;> rfl

theorem Request.back_serving (r : Request) (back : Back K V) :
    r.serving (back.pc : PC N K V) = false := by
  cases back with
  | find producer k x => exact r.afterFind_serving producer k x
  | _ => cases r <;> rfl

theorem Request.allocateAt_serving (r : Request) (consume : Bool) (k : K) (v : V) (p : Ptr N) :
    r.serving (allocateAt consume k v p) = false := by
  cases r <;> cases p <;> rfl

/-- A consolidation gets into a stage by starting it. -/
theorem nextConsolidate_serving {fails : Bool} {back : Back K V} {p : ConsolidatePC N} {move : Move K V}
    (h : nextConsolidate cfg s fails back p = some (act, pc')) (hserving : r.serving pc' = true) :
    r.serving (.consolidate back p : PC N K V) = true ∨
      r.started (⟨t, .consolidate back p, move, act⟩ : Label N K V T) = true := by
  cases p with
  | purge p =>
      cases r with
      | purge => cases p <;> simp [Request.serving, Request.started]
      | pull =>
          obtain ⟨⟨a, q⟩, hq, heq⟩ := Option.map_eq_some_iff.1 h
          cases heq
          cases q <;> cases hserving
  | pull p =>
      cases r with
      | pull => cases p <;> simp [Request.serving, Request.started]
      | purge =>
          obtain ⟨⟨a, q⟩, hq, heq⟩ := Option.map_eq_some_iff.1 h
          cases heq
          cases q <;> cases hserving
  | tryLock =>
      simp only [nextConsolidate] at h
      split_ifs at h <;> cases h
      · cases r <;> cases hserving
      · rw [r.back_serving] at hserving
        cases hserving
  | testPurge =>
      cases h
      cases r <;> cases hr : s.mem.purgeRequest <;> rw [hr] at hserving <;> cases hserving
  | testPull =>
      cases h
      cases r <;> cases hr : s.mem.pullRequest <;> rw [hr] at hserving <;> cases hserving
  | unlock =>
      cases h
      rw [r.back_serving] at hserving
      cases hserving
  | _ =>
      cases h
      cases r <;> cases hserving

variable [DecidableEq K] {move : Move K V}

theorem nextFind_serving {fails : Bool} {producer : Option V} {k : K} {p : FindPC N V}
    (h : nextFind cfg s fails producer k p = some (act, pc')) : r.serving pc' = false := by
  cases p with
  | lock =>
      simp only [nextFind] at h
      split_ifs at h
      cases h
      cases r <;> rfl
  | mark n x p =>
      obtain ⟨⟨a, q⟩, hq, heq⟩ := Option.map_eq_some_iff.1 h
      cases heq
      cases r <;> cases q <;> rfl
  | threshold x =>
      cases h
      split_ifs
      · cases r <;> rfl
      · exact r.afterFind_serving producer k x
  | _ =>
      cases h
      cases r <;> rfl

omit [DecidableEq K] in
theorem nextInsert_serving {fails consume : Bool} {k : K} {v : V} {p : InsertPC N}
    (h : nextInsert cfg s fails consume k v p = some (act, pc')) : r.serving pc' = false := by
  cases p with
  | allocate p =>
      cases p with
      | load =>
          cases h
          exact r.allocateAt_serving ..
      | loadNext node =>
          simp only [nextInsert] at h
          split_ifs at h
          cases h
          cases r <;> rfl
      | cas node link =>
          simp only [nextInsert] at h
          split_ifs at h
          · cases node <;> cases h
            cases r <;> rfl
          · cases h
            exact r.allocateAt_serving ..
  | bucket n p =>
      obtain ⟨⟨a, q⟩, hq, heq⟩ := Option.map_eq_some_iff.1 h
      cases heq
      cases r <;> cases q <;> rfl
  | add n p =>
      obtain ⟨⟨a, q⟩, hq, heq⟩ := Option.map_eq_some_iff.1 h
      cases heq
      cases r <;> cases q <;> rfl
  | reset n =>
      cases h
      cases r <;> cases consume <;> rfl
  | _ =>
      cases h
      cases r <;> rfl

/-- **A thread gets into a stage by starting it.** -/
theorem next_serving (h : next cfg s pc move = some (act, pc')) (hserving : r.serving pc' = true) :
    r.serving pc = true ∨ r.started (⟨t, pc, move, act⟩ : Label N K V T) = true := by
  cases next_transition h with
  | consolidate h => exact nextConsolidate_serving h hserving
  | find h => exact absurd hserving (by rw [nextFind_serving h]; nofun)
  | insert h => exact absurd hserving (by rw [nextInsert_serving h]; nofun)
  | call hidle c => cases r <;> cases c <;> cases hserving

/-- The flag is down after a step only if it was down before or is cleared by a stage. -/
theorem Request.flag_step (h : next cfg s (s.pc t) move = some (act, pc'))
    (hraised : r.raised (⟨t, s.pc t, move, act⟩ : Label N K V T) = false)
    (hflag : r.flag s.mem = true) (hserving : r.serving (s.pc t) = false) :
    r.flag (act.onMem s.mem) = true := by
  have hsite := next_site h
  cases r with
  | pull =>
      cases act with
      | setPullRequest b =>
          cases b with
          | true => rfl
          | false =>
              obtain ⟨back, hpc⟩ := hsite
              rw [hpc] at hserving
              cases hserving
      | _ => exact hflag
  | purge =>
      cases act with
      | setPurgeRequest b =>
          cases b with
          | true => rfl
          | false =>
              obtain ⟨back, hpc⟩ := hsite
              rw [hpc] at hserving
              cases hserving
      | _ => exact hflag

end Steps

/-! ## Runs -/

/-- No flag is raised between the start of its stage and the clear. -/
def RaisesOutside (s : State N K V T) (l : Label N K V T) : Prop :=
  ∀ r : Request, r.raised l = true → ∀ t, r.serving (s.pc t) = false

/-- An unanswered request is still flagged, and none is unanswered while its stage runs. -/
structure RequestInv (r : Request) (s : State N K V T) (trace : List (Label N K V T)) : Prop where
  flag : r.Unanswered trace → r.flag s.mem = true
  serving : ∀ t, r.serving (s.pc t) = true → ¬ r.Unanswered trace

variable [DecidableEq K] [DecidableEq T] {cfg : Config N K} {s : State N K V T} {r : Request}
  {trace : List (Label N K V T)}

theorem RequestInv.step {t : T} {move : Move K V} {act : Act N K V} {pc' : PC N K V}
    (h : RequestInv r s trace) (hnext : next cfg s (s.pc t) move = some (act, pc'))
    (hok : RaisesOutside s ⟨t, s.pc t, move, act⟩) :
    RequestInv r (s.apply t act pc') (trace ++ [⟨t, s.pc t, move, act⟩]) := by
  refine ⟨fun hu => ?_, fun t' hserving hu => ?_⟩ <;> unfold Request.Unanswered at hu <;>
    rw [since_concat] at hu
  · by_cases hraised : r.raised (⟨t, s.pc t, move, act⟩ : Label N K V T) = true
    · -- the flag has just been raised
      show r.flag (act.onMem s.mem) = true
      unfold Request.raised at hraised
      split at hraised
      · rename_i hact
        cases hact
        rfl
      · rename_i hact
        cases hact
        rfl
      · cases hraised
    · obtain ⟨hu, -⟩ := hu.resolve_left hraised
      refine Request.flag_step hnext (by simpa using hraised) (h.flag hu) ?_
      by_contra hserving
      exact h.serving t (by simpa using hserving) hu
  · by_cases ht : t' = t
    · subst ht
      rw [show (s.apply t' act pc').pc t' = pc' from Function.update_self ..] at hserving
      rcases next_serving (t := t') hnext hserving with hold | hstarted
      · rcases hu with hraised | ⟨hu, -⟩
        · -- a thread inside the stage forbids the raise
          rw [hok r hraised t'] at hold
          cases hold
        · exact h.serving t' hold hu
      · rcases hu with hraised | ⟨-, hu⟩
        · -- a stage does not start with a raise
          unfold Request.raised at hraised
          have hsite := next_site hnext
          split at hraised
          · rename_i hact
            cases hact
            obtain ⟨back, hpc⟩ := hsite
            rw [hpc] at hstarted
            cases hstarted
          · rename_i hact
            cases hact
            obtain ⟨back, hpc⟩ := hsite
            rw [hpc] at hstarted
            cases hstarted
          · cases hraised
        · exact hu hstarted
    · rw [show (s.apply t act pc').pc t' = s.pc t' from Function.update_of_ne ht _ _] at hserving
      rcases hu with hraised | ⟨hu, -⟩
      · rw [hok r hraised t'] at hserving
        cases hserving
      · exact h.serving t' hserving hu

variable [Inhabited K] [Inhabited V]

theorem Run.requestInv (h : Run cfg RaisesOutside s trace) (r : Request) :
    RequestInv r s trace := by
  induction h with
  | start => exact ⟨fun hu => absurd hu not_since_nil, fun _ _ => not_since_nil⟩
  | step _ hstep hok ih =>
      obtain ⟨⟨a, pc'⟩, hnext, heq⟩ := Option.map_eq_some_iff.1 hstep
      cases heq
      exact ih.step hnext hok

/-- Every raise of the flag has been followed by the start of a stage, or the flag is still up. -/
def Kept (r : Request) (s : State N K V T) (trace : List (Label N K V T)) : Prop :=
  ∀ past l rest, trace = past ++ l :: rest → r.raised l = true →
    (∃ x ∈ rest, r.started x = true) ∨ r.flag s.mem = true

omit [DecidableEq K] [DecidableEq T] [Inhabited K] [Inhabited V] in
theorem kept_iff : Kept r s trace ↔ (r.Unanswered trace → r.flag s.mem = true) := by
  constructor
  · rintro h ⟨past, l, rest, rfl, hl, hrest⟩
    exact (h past l rest rfl hl).resolve_left fun ⟨x, hx, hs⟩ => hrest x hx hs
  · rintro h past l rest rfl hl
    by_cases hex : ∃ x ∈ rest, r.started x = true
    · exact Or.inl hex
    · exact Or.inr (h ⟨past, l, rest, rfl, hl, fun x hx hs => hex ⟨x, hx, hs⟩⟩)

/-- **No request is lost** in a run that raises no flag while its stage runs. -/
theorem Run.requests_kept (h : Run cfg RaisesOutside s trace) (r : Request) : Kept r s trace :=
  kept_iff.2 (h.requestInv r).flag

/-- No flag is raised while its stage runs, as a test. -/
def raisesOutside (s : State 2 ℕ ℕ (Fin 2)) (l : Label 2 ℕ ℕ (Fin 2)) : Bool :=
  [Request.pull, .purge].all fun r => !r.raised l || ∀ t, r.serving (s.pc t) = false

theorem raisesOutside_spec (s : State 2 ℕ ℕ (Fin 2)) (l : Label 2 ℕ ℕ (Fin 2))
    (h : raisesOutside s l = true) : RaisesOutside s l := by
  intro r hraised t
  have hr := List.all_eq_true.1 h r (by cases r <;> simp)
  rw [hraised] at hr
  exact of_decide_eq_true hr t

/-- Thread 1 requests a pull before thread 0 starts one, and leaves it to thread 0. -/
theorem Run.requests_kept_pull : ∃ (s : State 2 ℕ ℕ (Fin 2)) (trace : List (Label 2 ℕ ℕ (Fin 2))),
    Run twoNodes RaisesOutside s trace ∧ (∀ t, (s.pc t).consolidating = false) ∧
      Kept .pull s trace := by
  obtain ⟨s, trace, hrun, hgood⟩ := Run.of_play twoNodes RaisesOutside raisesOutside
    raisesOutside_spec
    ((0, .call (.insert 10 100)) :: goes 0 19 ++ (0, .call (.find 10)) :: goes 0 15 ++
      (1, .call (.find 10)) :: goes 1 9 ++ goes 0 8)
    (fun s _ => ∀ t, (s.pc t).consolidating = false) (by decide +kernel)
  exact ⟨s, trace, hrun, of_decide_eq_true hgood, hrun.requests_kept .pull⟩

/-- Thread 0 finds a node and pulls; when it has popped the slice, but not reset the count yet, thread
    1 finds the node too, raises the flag and fails to get the lock. Thread 0 clears the flag. -/
theorem Run.not_requests_kept : ∃ (s : State 2 ℕ ℕ (Fin 2)) (trace : List (Label 2 ℕ ℕ (Fin 2))),
    Run twoNodes (fun _ _ => True) s trace ∧ (∀ t, (s.pc t).consolidating = false) ∧
      ¬ Kept .pull s trace := by
  obtain ⟨s, trace, hrun, hgood⟩ := Run.of_play twoNodes (fun _ _ => True) (fun _ _ => true)
    (fun _ _ _ => trivial)
    ((0, .call (.insert 10 100)) :: goes 0 19 ++ (0, .call (.find 10)) :: goes 0 16 ++
      (1, .call (.find 10)) :: goes 1 9 ++ goes 0 7)
    (fun (s : State 2 ℕ ℕ (Fin 2)) trace => (∀ t, (s.pc t).consolidating = false) ∧
      Request.Unanswered .pull trace ∧ s.mem.pullRequest = false) (by decide +kernel)
  obtain ⟨hout, hunanswered, hflag⟩ := of_decide_eq_true hgood
  refine ⟨s, trace, hrun, hout, fun hkept => ?_⟩
  rw [show s.mem.pullRequest = true from kept_iff.1 hkept hunanswered] at hflag
  cases hflag

end DeferredLru.Threads
