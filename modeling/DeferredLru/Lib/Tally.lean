import Mathlib.Algebra.BigOperators.Group.Finset.Piecewise
import Mathlib.Algebra.Order.BigOperators.Group.Finset
import Mathlib.Data.Fintype.Card

set_option autoImplicit false

/-! # Tallies over threads

What threads have in flight at their program counters, summed over all of them. A step of one thread
changes the sum by what changes at its own program counter. -/

namespace Intrusive

variable {T P : Type*} [Fintype T] {pc : T → P} {f : P → ℕ}

/-- The sum of `f` over the program counters of all threads. -/
def tally (f : P → ℕ) (pc : T → P) : ℕ := ∑ t, f (pc t)

theorem tally_eq_zero (h : ∀ t, f (pc t) = 0) : tally f pc = 0 :=
  Finset.sum_eq_zero fun t _ => h t

theorem le_tally (f : P → ℕ) (pc : T → P) (t : T) : f (pc t) ≤ tally f pc :=
  Finset.single_le_sum (f := fun u => f (pc u)) (fun _ _ => Nat.zero_le _) (Finset.mem_univ t)

theorem tally_le_card (h : ∀ p, f p ≤ 1) : tally f pc ≤ Fintype.card T := by
  have hle : tally f pc ≤ ∑ _t : T, 1 := Finset.sum_le_sum fun t _ => h (pc t)
  simpa using hle

theorem tally_lt_card {t : T} (h : ∀ p, f p ≤ 1) (ht : f (pc t) = 0) :
    tally f pc < Fintype.card T := by
  have hlt : tally f pc < ∑ _t : T, 1 :=
    Finset.sum_lt_sum (fun u _ => h (pc u)) ⟨t, Finset.mem_univ t, by rw [ht]; exact Nat.one_pos⟩
  simpa using hlt

theorem tally_update [DecidableEq T] (f : P → ℕ) (pc : T → P) (t : T) (p : P) :
    tally f (Function.update pc t p) + f (pc t) = tally f pc + f p := by
  have hupdate : (fun u => f (Function.update pc t p u)) =
      Function.update (fun u => f (pc u)) t (f p) := by
    funext u
    by_cases hu : u = t
    · rw [hu, Function.update_self, Function.update_self]
    · rw [Function.update_of_ne hu, Function.update_of_ne hu]
  unfold tally
  rw [hupdate, Finset.sum_update_of_mem (Finset.mem_univ t),
    ← Finset.add_sum_erase _ _ (Finset.mem_univ t), Finset.sdiff_singleton_eq_erase]
  omega

/-! ## Counting threads

Where the type of threads is not finite, but only finitely many stand at a place. -/

/-- Exactly `k` threads stand where `p` holds. -/
def Counts {T P : Type*} (p : P → Bool) (pc : T → P) (k : ℕ) : Prop :=
  ∃ threads : Finset T, (∀ t, t ∈ threads ↔ p (pc t) = true) ∧ threads.card = k

section Counts

variable {T P : Type*} {p : P → Bool} {pc : T → P} {k : ℕ}

theorem Counts.zero (h : ∀ t, p (pc t) = false) : Counts p pc 0 :=
  ⟨∅, fun t => by simp [h t], rfl⟩

theorem Counts.eq_zero (hc : Counts p pc k) (h : ∀ t, p (pc t) = false) : k = 0 := by
  obtain ⟨threads, hmem, rfl⟩ := hc
  rw [Finset.card_eq_zero]
  refine Finset.eq_empty_of_forall_notMem fun t ht => ?_
  rw [hmem t, h t] at ht
  cases ht

theorem Counts.update [DecidableEq T] (hc : Counts p pc k) (t : T) (q : P) :
    ∃ k', Counts p (Function.update pc t q) k' ∧ k' + (p (pc t)).toNat = k + (p q).toNat := by
  obtain ⟨threads, hmem, rfl⟩ := hc
  have hother : ∀ u, u ≠ t → Function.update pc t q u = pc u := fun u hu =>
    Function.update_of_ne hu _ _
  cases hq : p q with
  | true =>
      refine ⟨(insert t threads).card, ⟨insert t threads, fun u => ?_, rfl⟩, ?_⟩
      · by_cases hu : u = t
        · rw [hu, Function.update_self, hq]
          simp
        · rw [hother u hu, ← hmem u, Finset.mem_insert, or_iff_right hu]
      · cases hold : p (pc t) with
        | true => rw [Finset.insert_eq_of_mem ((hmem t).2 hold)]
        | false =>
            rw [Finset.card_insert_of_notMem fun ht => by rw [(hmem t).1 ht] at hold; cases hold]
            rfl
  | false =>
      refine ⟨(threads.erase t).card, ⟨threads.erase t, fun u => ?_, rfl⟩, ?_⟩
      · by_cases hu : u = t
        · rw [hu, Function.update_self, hq]
          simp
        · rw [hother u hu, ← hmem u, Finset.mem_erase, and_iff_right hu]
      · cases hold : p (pc t) with
        | true => exact Finset.card_erase_add_one ((hmem t).2 hold)
        | false =>
            rw [Finset.erase_eq_of_notMem fun ht => by rw [(hmem t).1 ht] at hold; cases hold]

end Counts

end Intrusive
