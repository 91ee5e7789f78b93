import Mathlib.Data.List.Induction

set_option autoImplicit false

/-! # Traces that grow at the end

`Since P Q trace`: an event that met `P`, given the events before it, has happened and no event that
meets `Q` has happened after it. A property of this form of the trace is what a state remembers of
it: `since_concat` says how one more event changes it. -/

namespace Intrusive

variable {E : Type*}

/-- An event that meets `P` after its past has happened, and since then none that meets `Q`. -/
def Since (P : List E → E → Prop) (Q : E → Prop) (trace : List E) : Prop :=
  ∃ past e rest, trace = past ++ e :: rest ∧ P past e ∧ ∀ x ∈ rest, ¬ Q x

variable {P : List E → E → Prop} {Q : E → Prop} {trace : List E} {e : E}

/-- An event of the longer trace is the new one, or was there before. -/
theorem concat_split {past rest : List E} {x : E} (h : trace ++ [e] = past ++ x :: rest) :
    (trace = past ∧ e = x ∧ rest = []) ∨ ∃ rest', trace = past ++ x :: rest' ∧ rest = rest' ++ [e] := by
  rcases List.eq_nil_or_concat rest with rfl | ⟨rest, y, rfl⟩
  · obtain ⟨hpast, hlast⟩ := List.append_inj' h rfl
    exact Or.inl ⟨hpast, List.singleton_inj.1 hlast, rfl⟩
  · rw [List.concat_eq_append, ← List.cons_append, ← List.append_assoc] at h
    obtain ⟨htrace, hlast⟩ := List.append_inj' h rfl
    exact Or.inr ⟨rest, htrace, by rw [List.concat_eq_append, hlast]⟩

theorem not_since_nil : ¬ Since P Q [] := by
  rintro ⟨past, e, rest, heq, -, -⟩
  simp at heq

theorem since_concat : Since P Q (trace ++ [e]) ↔ P trace e ∨ (Since P Q trace ∧ ¬ Q e) := by
  constructor
  · rintro ⟨past, x, rest, heq, hx, hrest⟩
    rcases concat_split heq with ⟨rfl, rfl, -⟩ | ⟨rest', rfl, rfl⟩
    · exact Or.inl hx
    · exact Or.inr ⟨⟨past, x, rest', rfl, hx, fun z hz => hrest z (by simp [hz])⟩,
        hrest e (by simp)⟩
  · rintro (he | ⟨⟨past, x, rest, rfl, hx, hrest⟩, he⟩)
    · exact ⟨trace, e, [], rfl, he, by simp⟩
    · refine ⟨past, x, rest ++ [e], by simp, hx, fun z hz => ?_⟩
      rcases List.mem_append.1 hz with hz | hz
      · exact hrest z hz
      · rw [List.mem_singleton.1 hz]
        exact he

/-- Computed event by event, where `P` does not look back. -/
theorem since_iff_foldl {p q : E → Bool} {trace : List E} :
    Since (fun _ e => p e = true) (fun e => q e = true) trace ↔
      trace.foldl (fun b e => p e || (b && !q e)) false = true := by
  induction trace using List.reverseRecOn with
  | nil => exact iff_of_false not_since_nil (by simp)
  | append_singleton trace e ih =>
      rw [since_concat, ih, List.foldl_append]
      simp

instance {p q : E → Bool} (trace : List E) :
    Decidable (Since (fun _ e => p e = true) (fun e => q e = true) trace) :=
  decidable_of_iff _ since_iff_foldl.symm

/-- What one more event adds to an extract of the trace. -/
theorem filterMap_concat {A : Type*} (f : E → Option A) (trace : List E) (e : E) :
    (trace ++ [e]).filterMap f = trace.filterMap f ++ (f e).toList := by
  rw [List.filterMap_append]
  cases he : f e with
  | none => simp [he]
  | some a => simp [he]

end Intrusive
