import Mathlib.Data.List.Basic

set_option autoImplicit false

/-! # Schedules

A partial step function `S → M → Option (L × S)`, which a scheduler drives by moves. `play` follows a
schedule and gives the state it ends in, with the labels of the steps; what holds at the start and is
kept by the steps that pass the check holds at the end. -/

namespace Intrusive

variable {S M L : Type*}

/-- Follows the schedule; each step must pass the check. -/
def play (step : S → M → Option (L × S)) (check : S → L → Bool) : S → List M → Option (S × List L)
  | s, [] => some (s, [])
  | s, move :: moves =>
      match step s move with
      | none => none
      | some (l, s') =>
          if check s l then (play step check s' moves).map fun r => (r.1, l :: r.2) else none

variable {step : S → M → Option (L × S)} {check : S → L → Bool} {P : S → List L → Prop}
  {s s' : S} {trace trace' : List L} {moves : List M}

theorem play_induction
    (hstep : ∀ s trace move l s', P s trace → step s move = some (l, s') → check s l = true →
      P s' (trace ++ [l])) (h : P s trace) (hplay : play step check s moves = some (s', trace')) :
    P s' (trace ++ trace') := by
  induction moves generalizing s trace trace' with
  | nil =>
      cases hplay
      rw [List.append_nil]
      exact h
  | cons move moves ih =>
      simp only [play] at hplay
      cases hs : step s move with
      | none =>
          rw [hs] at hplay
          cases hplay
      | some r =>
          obtain ⟨l, s₁⟩ := r
          rw [hs] at hplay
          dsimp only at hplay
          split_ifs at hplay with hc
          obtain ⟨⟨s₂, rest⟩, hrest, heq⟩ := Option.map_eq_some_iff.1 hplay
          cases heq
          rw [List.append_cons]
          exact ih (hstep s trace move l s₁ h hs hc) hrest

/-- A schedule that can be followed to a good end shows that there is such an end. -/
theorem exists_of_play
    (hstep : ∀ s trace move l s', P s trace → step s move = some (l, s') → check s l = true →
      P s' (trace ++ [l])) (h : P s []) (moves : List M) (good : S → List L → Bool)
    (hgood : (play step check s moves).any (fun r => good r.1 r.2) = true) :
    ∃ s' trace, P s' trace ∧ good s' trace = true := by
  cases hplay : play step check s moves with
  | none =>
      rw [hplay] at hgood
      cases hgood
  | some r =>
      rw [hplay] at hgood
      exact ⟨r.1, r.2, play_induction hstep h hplay, hgood⟩

end Intrusive
