import Mathlib.Logic.Function.Basic
import Mathlib.Data.List.Basic
import Mathlib.Data.List.Nodup

set_option autoImplicit false

/-! # Shards

A machine serves requests, or fails to. A family of machines with a route for every request is again a
machine (`call`), which passes a request on to one of its shards. So it serves requests exactly if each
shard serves those routed to it, in their order (`serve_call_iff`), and each request is answered by its
shard (`serve_shard`).

`Balanced` is a machine that holds items: what it holds after a request is what it held, with what the
request brought and without what the answer took away. -/

namespace Shards

variable {σ τ R A ι : Type*}

/-! ## One machine -/

/-- Requests, one after the other. -/
def serve (step : σ → R → Option (A × σ)) : σ → List R → Option (List A × σ)
  | s, [] => some ([], s)
  | s, r :: rs => do
      let (a, s) ← step s r
      let (as, s) ← serve step s rs
      some (a :: as, s)

theorem serve_cons {step : σ → R → Option (A × σ)} {s s' : σ} {r : R} {rs : List R} {as : List A} :
    serve step s (r :: rs) = some (as, s') ↔
      ∃ a s₁ as', step s r = some (a, s₁) ∧ serve step s₁ rs = some (as', s') ∧ as = a :: as' := by
  constructor
  · intro h
    obtain ⟨⟨a, s₁⟩, hstep, h⟩ := Option.bind_eq_some_iff.1 h
    obtain ⟨⟨as', s₂⟩, hrest, h⟩ := Option.bind_eq_some_iff.1 h
    cases h
    exact ⟨a, s₁, as', hstep, hrest, rfl⟩
  · rintro ⟨a, s₁, as', hstep, hrest, rfl⟩
    rw [serve, hstep]
    simp [hrest]

/-- There is an answer to every request. -/
theorem serve_length {step : σ → R → Option (A × σ)} {s s' : σ} {rs : List R} {as : List A}
    (h : serve step s rs = some (as, s')) : as.length = rs.length := by
  induction rs generalizing s as with
  | nil =>
      cases h
      rfl
  | cons r rs ih =>
      obtain ⟨a, s₁, as', -, hrest, rfl⟩ := serve_cons.1 h
      rw [List.length_cons, List.length_cons, ih hrest]

/-- **Simulation.** A machine that does what another one does on the states related to its own serves
    the same requests with the same answers. -/
theorem serve_simulates {step : σ → R → Option (A × σ)} {spec : τ → R → Option (A × τ)}
    {Rel : σ → τ → Prop} (hstep : ∀ s c r a c', Rel s c → spec c r = some (a, c') →
      ∃ s', step s r = some (a, s') ∧ Rel s' c')
    {s : σ} {c c' : τ} {rs : List R} {as : List A} (h : Rel s c)
    (hspec : serve spec c rs = some (as, c')) :
    ∃ s', serve step s rs = some (as, s') ∧ Rel s' c' := by
  induction rs generalizing s c as with
  | nil =>
      cases hspec
      exact ⟨s, rfl, h⟩
  | cons r rs ih =>
      obtain ⟨a, c₁, as', hone, hrest, rfl⟩ := serve_cons.1 hspec
      obtain ⟨s₁, hrun, h₁⟩ := hstep s c r a c₁ h hone
      obtain ⟨s', hruns, h'⟩ := ih h₁ hrest
      exact ⟨s', serve_cons.2 ⟨a, s₁, as', hrun, hruns, rfl⟩, h'⟩

/-! ## Items -/

section Balance

variable {P : Type*}

/-- Nothing the machine `holds` is lost or doubled: requests and their answers make some items, and
    answers take some away. -/
def Balanced (step : σ → R → Option (A × σ)) (holds : σ → List P) (made : R → A → List P)
    (gone : A → List P) : Prop :=
  ∀ s r a s', step s r = some (a, s') → (gone a ++ holds s').Perm (holds s ++ made r a)

variable {step : σ → R → Option (A × σ)} {holds : σ → List P} {made : R → A → List P}
  {gone : A → List P} {s s' : σ} {rs : List R} {as : List A}

/-- **The balance of a run.** -/
theorem Balanced.serve (hb : Balanced step holds made gone)
    (h : Shards.serve step s rs = some (as, s')) :
    (as.flatMap gone ++ holds s').Perm (holds s ++ (rs.zip as).flatMap fun p => made p.1 p.2) := by
  induction rs generalizing s as with
  | nil =>
      cases h
      simp
  | cons r rs ih =>
      obtain ⟨a, s₁, as', hstep, hrest, rfl⟩ := serve_cons.1 h
      have hone := hb s r a s₁ hstep
      have hmore := ih hrest
      rw [List.flatMap_cons, List.zip_cons_cons, List.flatMap_cons, List.append_assoc]
      calc (gone a ++ (as'.flatMap gone ++ holds s')).Perm
            (gone a ++ (holds s₁ ++ (rs.zip as').flatMap fun p => made p.1 p.2)) :=
          hmore.append_left _
        _ = (gone a ++ holds s₁) ++ (rs.zip as').flatMap fun p => made p.1 p.2 :=
          (List.append_assoc ..).symm
        List.Perm _ ((holds s ++ made r a) ++ (rs.zip as').flatMap fun p => made p.1 p.2) :=
          hone.append_right _
        _ = holds s ++ (made r a ++ (rs.zip as').flatMap fun p => made p.1 p.2) :=
          List.append_assoc ..

end Balance

/-! ## A family of machines -/

variable {S : ι → Type*} [DecidableEq ι]

/-- The request is passed on to its shard. -/
def call (step : ∀ i, S i → R → Option (A × S i)) (route : R → ι) (s : ∀ i, S i) (r : R) :
    Option (A × ∀ i, S i) :=
  (step (route r) (s (route r)) r).map fun (a, x) => (a, Function.update s (route r) x)

/-- The answers to the requests of one shard. -/
def answersOf (route : R → ι) (i : ι) (rs : List R) (as : List A) : List A :=
  ((rs.zip as).filter fun p => route p.1 = i).map Prod.snd

variable {step : ∀ i, S i → R → Option (A × S i)} {route : R → ι} {s s' : ∀ i, S i} {r : R}
  {rs : List R} {a : A} {as : List A}

theorem answersOf_cons_self :
    answersOf route (route r) (r :: rs) (a :: as) = a :: answersOf route (route r) rs as := by
  rw [answersOf, List.zip_cons_cons, List.filter_cons_of_pos (by simp)]
  rfl

theorem answersOf_cons_of_ne {i : ι} (h : route r ≠ i) :
    answersOf route i (r :: rs) (a :: as) = answersOf route i rs as := by
  rw [answersOf, List.zip_cons_cons, List.filter_cons_of_neg (by simpa using h)]
  rfl

theorem call_eq_some : call step route s r = some (a, s') ↔
    ∃ x, step (route r) (s (route r)) r = some (a, x) ∧ s' = Function.update s (route r) x := by
  constructor
  · intro h
    obtain ⟨⟨a', x⟩, hstep, h⟩ := Option.map_eq_some_iff.1 h
    cases h
    exact ⟨x, hstep, rfl⟩
  · rintro ⟨x, hstep, rfl⟩
    rw [call, hstep]
    rfl

/-- **Each shard serves its own requests**, if all are served. -/
theorem serve_shard (h : serve (call step route) s rs = some (as, s')) (i : ι) :
    serve (step i) (s i) (rs.filter fun r => route r = i) =
      some (answersOf route i rs as, s' i) := by
  induction rs generalizing s as with
  | nil =>
      cases h
      rfl
  | cons r rs ih =>
      obtain ⟨a, s₁, as', hcall, hrest, rfl⟩ := serve_cons.1 h
      obtain ⟨x, hstep, rfl⟩ := call_eq_some.1 hcall
      have hgo := ih hrest
      by_cases hi : route r = i
      · subst hi
        rw [Function.update_self] at hgo
        rw [List.filter_cons_of_pos (by simp), answersOf_cons_self]
        exact serve_cons.2 ⟨a, x, _, hstep, hgo, rfl⟩
      · rw [Function.update_of_ne (Ne.symm hi)] at hgo
        rw [List.filter_cons_of_neg (by simpa using hi), answersOf_cons_of_ne hi]
        exact hgo

/-- All requests are served if each shard serves its own. -/
theorem serve_call (h : ∀ i, (serve (step i) (s i) (rs.filter fun r => route r = i)).isSome = true) :
    ∃ as s', serve (call step route) s rs = some (as, s') := by
  induction rs generalizing s with
  | nil => exact ⟨[], s, rfl⟩
  | cons r rs ih =>
      -- the first request is the first one of its shard
      have hfirst := h (route r)
      rw [List.filter_cons_of_pos (by simp)] at hfirst
      obtain ⟨⟨bs, y⟩, hserve⟩ := Option.isSome_iff_exists.1 hfirst
      obtain ⟨a, x, bs', hstep, hrest, rfl⟩ := serve_cons.1 hserve
      obtain ⟨as, s', hgo⟩ := ih (s := Function.update s (route r) x) fun i => by
        by_cases hi : route r = i
        · subst hi
          rw [Function.update_self, hrest]
          rfl
        · have hother := h i
          rw [List.filter_cons_of_neg (by simpa using hi)] at hother
          rw [Function.update_of_ne (Ne.symm hi)]
          exact hother
      exact ⟨a :: as, s', serve_cons.2 ⟨a, _, as, call_eq_some.2 ⟨x, hstep, rfl⟩, hgo, rfl⟩⟩

/-- **The family serves what its shards serve.** -/
theorem serve_call_iff : (∃ as s', serve (call step route) s rs = some (as, s')) ↔
    ∀ i, (serve (step i) (s i) (rs.filter fun r => route r = i)).isSome = true := by
  refine ⟨fun ⟨as, s', h⟩ i => ?_, serve_call⟩
  rw [serve_shard h i]
  rfl

/-- Shards that simulate others make a family that simulates the family of the others. -/
theorem call_simulates {S' : ι → Type*} {spec : ∀ i, S' i → R → Option (A × S' i)}
    {Rel : ∀ i, S i → S' i → Prop} (hstep : ∀ i s c r a c', Rel i s c →
      spec i c r = some (a, c') → ∃ s', step i s r = some (a, s') ∧ Rel i s' c')
    {c c' : ∀ i, S' i} (h : ∀ i, Rel i (s i) (c i)) (hspec : call spec route c r = some (a, c')) :
    ∃ s', call step route s r = some (a, s') ∧ ∀ i, Rel i (s' i) (c' i) := by
  obtain ⟨y, hone, rfl⟩ := call_eq_some.1 hspec
  obtain ⟨x, hrun, hrel⟩ := hstep _ _ _ _ _ _ (h (route r)) hone
  refine ⟨_, call_eq_some.2 ⟨x, hrun, rfl⟩, fun i => ?_⟩
  by_cases hi : i = route r
  · subst hi
    rw [Function.update_self, Function.update_self]
    exact hrel
  · rw [Function.update_of_ne hi, Function.update_of_ne hi]
    exact h i

/-- **A family of balanced machines is balanced**: what it holds is what its shards hold. -/
theorem Balanced.call {P : Type*} {holds : ∀ i, S i → List P} {made : R → A → List P}
    {gone : A → List P} (hb : ∀ i, Balanced (step i) (holds i) made gone) {all : List ι}
    (hnodup : all.Nodup) (hall : ∀ i, i ∈ all) :
    Balanced (Shards.call step route) (fun s => all.flatMap fun i => holds i (s i)) made gone := by
  intro s r a s' h
  obtain ⟨x, hstep, rfl⟩ := call_eq_some.1 h
  have hsplit : ∀ s : ∀ i, S i, (all.flatMap fun i => holds i (s i)).Perm
      (holds (route r) (s (route r)) ++ (all.erase (route r)).flatMap fun i => holds i (s i)) :=
    fun s => (List.perm_cons_erase (hall (route r))).flatMap_right _
  have hothers : ((all.erase (route r)).flatMap fun i =>
      holds i (Function.update s (route r) x i)) =
      (all.erase (route r)).flatMap fun i => holds i (s i) := by
    refine List.flatMap_congr fun i hi => ?_
    rw [Function.update_of_ne ((hnodup.mem_erase_iff).1 hi).1]
  have hone := hb _ _ _ _ _ hstep
  have hnew := hsplit (Function.update s (route r) x)
  rw [Function.update_self, hothers] at hnew
  have hold := hsplit s
  generalize (all.erase (route r)).flatMap (fun i => holds i (s i)) = others at hnew hold
  calc (gone a ++ all.flatMap fun i => holds i (Function.update s (route r) x i)).Perm
        (gone a ++ (holds (route r) x ++ others)) := hnew.append_left _
    _ = (gone a ++ holds (route r) x) ++ others := (List.append_assoc ..).symm
    List.Perm _ ((holds (route r) (s (route r)) ++ made r a) ++ others) := hone.append_right _
    _ = holds (route r) (s (route r)) ++ (made r a ++ others) := List.append_assoc ..
    List.Perm _ (holds (route r) (s (route r)) ++ (others ++ made r a)) :=
      List.perm_append_comm.append_left _
    _ = (holds (route r) (s (route r)) ++ others) ++ made r a := (List.append_assoc ..).symm
    List.Perm _ ((all.flatMap fun i => holds i (s i)) ++ made r a) :=
      hold.symm.append_right _

end Shards
