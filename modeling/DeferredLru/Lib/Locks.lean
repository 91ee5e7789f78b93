import Mathlib.Data.List.Nodup
import Mathlib.Logic.Function.Basic

set_option autoImplicit false

/-! # Locks held at program counters

Where a thread stands determines the locks it holds. `Held holds pc lock` says that exactly these
locks are taken, each by the thread that holds it, so that no two threads hold one lock. A step of a
thread keeps its locks, takes one that is free, or gives one back. -/

namespace Intrusive

variable {T A P : Type*} {holds : P → List A} {pc : T → P} {lock : A → Option T} {t u : T} {a : A}
  {p : P}

/-- A lock has the owner that holds it at its program counter, and nobody holds it twice. -/
structure Held (holds : P → List A) (pc : T → P) (lock : A → Option T) : Prop where
  lock_eq_some : ∀ t a, lock a = some t ↔ a ∈ holds (pc t)
  nodup : ∀ t, (holds (pc t)).Nodup

namespace Held

theorem unique (h : Held holds pc lock) (ht : a ∈ holds (pc t)) (hu : a ∈ holds (pc u)) : t = u :=
  Option.some.inj (((h.lock_eq_some t a).2 ht).symm.trans ((h.lock_eq_some u a).2 hu))

theorem not_mem (h : Held holds pc lock) (ha : lock a = none) (t : T) : a ∉ holds (pc t) := fun ht => by
  rw [(h.lock_eq_some t a).2 ht] at ha
  cases ha

variable [DecidableEq T]

/-- The step takes no lock and gives none back. -/
theorem keep (h : Held holds pc lock) (hp : (holds p).Perm (holds (pc t))) :
    Held holds (Function.update pc t p) lock := by
  refine ⟨fun u b => ?_, fun u => ?_⟩
  · by_cases hu : u = t
    · rw [hu, Function.update_self, hp.mem_iff]
      exact h.lock_eq_some t b
    · rw [Function.update_of_ne hu]
      exact h.lock_eq_some u b
  · by_cases hu : u = t
    · rw [hu, Function.update_self, hp.nodup_iff]
      exact h.nodup t
    · rw [Function.update_of_ne hu]
      exact h.nodup u

variable [DecidableEq A]

theorem acquire (h : Held holds pc lock) (ha : lock a = none)
    (hp : (holds p).Perm (a :: holds (pc t))) :
    Held holds (Function.update pc t p) (Function.update lock a (some t)) := by
  refine ⟨fun u b => ?_, fun u => ?_⟩
  · by_cases hb : b = a
    · rw [hb, Function.update_self]
      by_cases hu : u = t
      · rw [hu, Function.update_self, hp.mem_iff]
        simp
      · rw [Function.update_of_ne hu]
        exact iff_of_false (fun h' => hu (Option.some.inj h').symm) (h.not_mem ha u)
    · rw [Function.update_of_ne hb]
      by_cases hu : u = t
      · rw [hu, Function.update_self, hp.mem_iff, List.mem_cons]
        exact (h.lock_eq_some t b).trans ⟨Or.inr, fun h' => h'.resolve_left hb⟩
      · rw [Function.update_of_ne hu]
        exact h.lock_eq_some u b
  · by_cases hu : u = t
    · rw [hu, Function.update_self, hp.nodup_iff]
      exact List.nodup_cons.2 ⟨h.not_mem ha t, h.nodup t⟩
    · rw [Function.update_of_ne hu]
      exact h.nodup u

theorem release (h : Held holds pc lock) (hp : (holds (pc t)).Perm (a :: holds p)) :
    Held holds (Function.update pc t p) (Function.update lock a none) := by
  have hdup := hp.nodup_iff.1 (h.nodup t)
  obtain ⟨ha, hdup⟩ := List.nodup_cons.1 hdup
  have hat : a ∈ holds (pc t) := hp.mem_iff.2 List.mem_cons_self
  refine ⟨fun u b => ?_, fun u => ?_⟩
  · by_cases hb : b = a
    · rw [hb, Function.update_self]
      by_cases hu : u = t
      · rw [hu, Function.update_self]
        exact iff_of_false (by simp) ha
      · rw [Function.update_of_ne hu]
        exact iff_of_false (by simp) (fun hmem => hu (h.unique hmem hat))
    · rw [Function.update_of_ne hb]
      by_cases hu : u = t
      · rw [hu, Function.update_self, h.lock_eq_some t b, hp.mem_iff, List.mem_cons]
        exact ⟨fun h' => h'.resolve_left hb, Or.inr⟩
      · rw [Function.update_of_ne hu]
        exact h.lock_eq_some u b
  · by_cases hu : u = t
    · rw [hu, Function.update_self]
      exact hdup
    · rw [Function.update_of_ne hu]
      exact h.nodup u

end Held

end Intrusive
