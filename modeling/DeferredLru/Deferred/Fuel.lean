import DeferredLru.Deferred.Code

set_option autoImplicit false

/-! # More fuel never changes a result

The fuel of `Code.lean` only bounds loops: what a function returns within some fuel it returns
within any larger one. So "the call completes" may say "for some fuel", and the specifications,
which are proved for enough fuel, apply to every completed call. -/

namespace DeferredLru

variable {N : ℕ} {K V : Type} {cfg : Config N K} {fuel fuel' inner inner' : ℕ}

theorem searchBucket_mono [DecidableEq K] {m : Mem N K V} {k : K} {cur r : Option (Fin N)}
    (h : searchBucket m k fuel cur = some r) (hle : fuel ≤ fuel') :
    searchBucket m k fuel' cur = some r := by
  induction fuel generalizing fuel' cur with
  | zero => simp [searchBucket] at h
  | succ fuel ih =>
      obtain ⟨f, rfl⟩ : ∃ f, fuel' = f + 1 := ⟨fuel' - 1, by omega⟩
      cases cur with
      | none => exact h
      | some n =>
          by_cases hk : m.key n = k
          · simpa [searchBucket, hk] using h
          · simp only [searchBucket, hk, if_false] at h ⊢
            exact ih h (by omega)

theorem unlinkBehind_mono {m : Mem N K V} {n : Fin N} {cur : Option (Fin N)}
    {r : Bool × Mem N K V} (h : unlinkBehind m n fuel cur = some r) (hle : fuel ≤ fuel') :
    unlinkBehind m n fuel' cur = some r := by
  induction fuel generalizing fuel' cur with
  | zero => simp [unlinkBehind] at h
  | succ fuel ih =>
      obtain ⟨f, rfl⟩ : ∃ f, fuel' = f + 1 := ⟨fuel' - 1, by omega⟩
      cases cur with
      | none => exact h
      | some parent =>
          by_cases hp : m.bucketNext parent = some n
          · simpa [unlinkBehind, hp] using h
          · simp only [unlinkBehind, hp, if_false] at h ⊢
            exact ih h (by omega)

theorem removeNodeFromBucket_mono {m : Mem N K V} {n : Fin N} {force : Bool} {r : Bool × Mem N K V}
    (h : removeNodeFromBucket cfg fuel m n force = some r) (hle : fuel ≤ fuel') :
    removeNodeFromBucket cfg fuel' m n force = some r := by
  unfold removeNodeFromBucket at h ⊢
  dsimp only at h ⊢
  split_ifs at h ⊢ with hmark hhead
  · exact h
  · exact h
  · exact unlinkBehind_mono h hle

theorem pullLoop_mono {m : Mem N K V} {current prev : Ptr N} {r : Ptr N × Mem N K V}
    (h : pullLoop fuel current prev m = some r) (hle : fuel ≤ fuel') :
    pullLoop fuel' current prev m = some r := by
  induction fuel generalizing fuel' current prev m with
  | zero => simp [pullLoop] at h
  | succ fuel ih =>
      obtain ⟨f, rfl⟩ : ∃ f, fuel' = f + 1 := ⟨fuel' - 1, by omega⟩
      have hle' : fuel ≤ f := by omega
      cases current with
      | dummy => exact h
      | node n =>
          simp only [pullLoop] at h ⊢
          by_cases hfront : m.lruPrev (.node n) = .lruHead
          · rw [if_pos hfront] at h ⊢
            exact ih h hle'
          · rw [if_neg hfront] at h ⊢
            simp only [Option.bind_eq_bind, Option.bind_eq_some_iff] at h ⊢
            obtain ⟨m₁, h₁, m₂, h₂, h₃⟩ := h
            exact ⟨m₁, h₁, m₂, h₂, ih h₃ hle'⟩
      | _ => simp [pullLoop] at h

theorem pullRecent_mono {m m' : Mem N K V} (h : pullRecent fuel m = some m') (hle : fuel ≤ fuel') :
    pullRecent fuel' m = some m' := by
  simp only [pullRecent, Option.bind_eq_bind, Option.bind_eq_some_iff] at h ⊢
  obtain ⟨r, hloop, hr⟩ := h
  exact ⟨r, pullLoop_mono hloop hle, hr⟩

theorem purgeLoop_mono {m : Mem N K V} {required freed : ℕ} {node : Ptr N}
    {r : List (K × V) × Mem N K V} (h : purgeLoop cfg inner required fuel node freed m = some r)
    (hinner : inner ≤ inner') (hle : fuel ≤ fuel') :
    purgeLoop cfg inner' required fuel' node freed m = some r := by
  induction fuel generalizing fuel' node freed m r with
  | zero => simp [purgeLoop] at h
  | succ fuel ih =>
      obtain ⟨f, rfl⟩ : ∃ f, fuel' = f + 1 := ⟨fuel' - 1, by omega⟩
      have hle' : fuel ≤ f := by omega
      unfold purgeLoop at h ⊢
      by_cases hstop : node = .lruHead ∨ required ≤ freed
      · rw [if_pos hstop] at h ⊢
        exact h
      rw [if_neg hstop] at h ⊢
      cases node with
      | node n =>
          dsimp only at h ⊢
          by_cases hfront : m.lruPrev (.node n) = .lruHead
          · rw [if_pos hfront] at h ⊢
            exact h
          rw [if_neg hfront] at h ⊢
          by_cases hmark : m.markedRecent n = true
          · rw [if_pos hmark] at h ⊢
            exact ih h hle'
          rw [if_neg hmark] at h ⊢
          simp only [Option.bind_eq_bind, Option.bind_eq_some_iff] at h ⊢
          obtain ⟨⟨removed, m₁⟩, hbucket, h⟩ := h
          refine ⟨(removed, m₁), removeNodeFromBucket_mono hbucket hinner, ?_⟩
          cases removed with
          | false => exact ih h hle'
          | true =>
              simp only [if_true, Option.bind_eq_some_iff] at h ⊢
              obtain ⟨m₂, hlru, ⟨deleted, m₃⟩, hrest, hr⟩ := h
              exact ⟨m₂, hlru, (deleted, m₃), ih hrest hle', hr⟩
      | _ => exact absurd h (by simp)

theorem purgeOld_mono {m : Mem N K V} {required : ℕ} {r : List (K × V) × Mem N K V}
    (h : purgeOld cfg fuel m required = some r) (hle : fuel ≤ fuel') :
    purgeOld cfg fuel' m required = some r :=
  purgeLoop_mono h hle hle

theorem purgeStage_mono {m : Mem N K V} {r : List (Event N K V) × Mem N K V}
    (h : purgeStage cfg fuel m = some r) (hle : fuel ≤ fuel') : purgeStage cfg fuel' m = some r := by
  unfold purgeStage at h ⊢
  by_cases hreq : m.purgeRequest = true
  · rw [if_pos hreq] at h ⊢
    simp only [Option.bind_eq_bind, Option.bind_eq_some_iff] at h ⊢
    obtain ⟨d, hold, hr⟩ := h
    exact ⟨d, purgeOld_mono hold hle, hr⟩
  · rw [if_neg hreq] at h ⊢
    exact h

theorem pullStage_mono {m : Mem N K V} {r : List (Event N K V) × Mem N K V}
    (h : pullStage fuel m = some r) (hle : fuel ≤ fuel') : pullStage fuel' m = some r := by
  unfold pullStage at h ⊢
  by_cases hreq : m.pullRequest = true
  · rw [if_pos hreq] at h ⊢
    simp only [Option.bind_eq_bind, Option.bind_eq_some_iff] at h ⊢
    obtain ⟨m', hpull, hr⟩ := h
    exact ⟨m', pullRecent_mono hpull hle, hr⟩
  · rw [if_neg hreq] at h ⊢
    exact h

theorem consolidateCache_mono {m : Mem N K V} {r : List (Event N K V) × Mem N K V}
    (h : consolidateCache cfg fuel m = some r) (hle : fuel ≤ fuel') :
    consolidateCache cfg fuel' m = some r := by
  simp only [consolidateCache, Option.bind_eq_bind, Option.bind_eq_some_iff] at h ⊢
  obtain ⟨p, hpurge, q, hpull, hr⟩ := h
  exact ⟨p, purgeStage_mono hpurge hle, q, pullStage_mono hpull hle, hr⟩

/-- More fuel for the inner loops leaves an `allocateNode` that is not stuck as it is. -/
theorem allocateLoop_mono_inner {m : Mem N K V} {node : Ptr N} {trace : List (Event N K V)}
    {o : Outcome N K V (Fin N)} (h : allocateLoop cfg inner fuel node m trace = o)
    (ho : o ≠ .stuck) (hinner : inner ≤ inner') :
    allocateLoop cfg inner' fuel node m trace = o := by
  induction fuel generalizing node m trace with
  | zero => exact h
  | succ fuel ih =>
      cases node with
      | null =>
          simp only [allocateLoop] at h ⊢
          cases hreq : requestPurge cfg inner m with
          | none => exact absurd (by simpa [hreq] using h.symm) ho
          | some r =>
              simp only [hreq] at h
              simp only [show requestPurge cfg inner' m = some r from
                consolidateCache_mono hreq hinner]
              exact ih h
      | node n =>
          simp only [allocateLoop] at h ⊢
          by_cases hhead : m.emptyHead = .node n
          · rw [if_pos hhead] at h ⊢
            exact h
          · rw [if_neg hhead] at h ⊢
            exact ih h
      | _ => exact h

/-- More rounds change nothing once `allocateNode` has returned. -/
theorem allocateLoop_mono {m m' : Mem N K V} {node : Ptr N} {trace trace' : List (Event N K V)}
    {n : Fin N} (h : allocateLoop cfg inner fuel node m trace = .returned n m' trace')
    (hle : fuel ≤ fuel') : allocateLoop cfg inner fuel' node m trace = .returned n m' trace' := by
  induction fuel generalizing fuel' node m trace with
  | zero => simp [allocateLoop] at h
  | succ fuel ih =>
      obtain ⟨f, rfl⟩ : ∃ f, fuel' = f + 1 := ⟨fuel' - 1, by omega⟩
      have hle' : fuel ≤ f := by omega
      cases node with
      | null =>
          simp only [allocateLoop] at h ⊢
          cases hreq : requestPurge cfg inner m with
          | none => simp [hreq] at h
          | some r =>
              simp only [hreq] at h ⊢
              exact ih h hle'
      | node x =>
          simp only [allocateLoop] at h ⊢
          by_cases hhead : m.emptyHead = .node x
          · rw [if_pos hhead] at h ⊢
            exact h
          · rw [if_neg hhead] at h ⊢
            exact ih h hle'
      | _ => simp [allocateLoop] at h

theorem allocateNode_mono {m m' : Mem N K V} {trace : List (Event N K V)} {n : Fin N}
    (h : allocateNode cfg fuel m = .returned n m' trace) (hle : fuel ≤ fuel') :
    allocateNode cfg fuel' m = .returned n m' trace :=
  allocateLoop_mono (allocateLoop_mono_inner h (by simp) hle) hle

theorem insert_mono {m m' : Mem N K V} {k : K} {v : V} {trace : List (Event N K V)}
    (h : insert cfg fuel m k v = .returned () m' trace) (hle : fuel ≤ fuel') :
    insert cfg fuel' m k v = .returned () m' trace := by
  unfold insert at h ⊢
  cases halloc : allocateNode cfg fuel { m with currentElementCount := m.currentElementCount + 1 } with
  | running m₁ t => simp [halloc] at h
  | stuck => simp [halloc] at h
  | returned n m₁ t =>
      rw [allocateNode_mono halloc hle]
      rw [halloc] at h
      exact h

variable [DecidableEq K]

theorem find_mono {m m' : Mem N K V} {k : K} {r : Option V} {trace : List (Event N K V)}
    (h : find cfg fuel m k = .returned r m' trace) (hle : fuel ≤ fuel') :
    find cfg fuel' m k = .returned r m' trace := by
  have hpull : ∀ (m₁ : Mem N K V) (s : List (Event N K V) × Mem N K V),
      requestPull cfg fuel m₁ = some s → requestPull cfg fuel' m₁ = some s :=
    fun _ _ hreq => consolidateCache_mono hreq hle
  unfold find at h ⊢
  cases hsearch : searchBucket m k fuel (m.buckets (cfg.keyToBucketNr k)) with
  | none => simp [hsearch] at h
  | some found =>
      rw [searchBucket_mono hsearch hle]
      rw [hsearch] at h
      cases found with
      | none =>
          dsimp only at h ⊢
          by_cases hthr : recentThresholdHit cfg m = true
          · rw [if_pos hthr] at h ⊢
            cases hreq : requestPull cfg fuel m with
            | none => simp [hreq] at h
            | some s =>
                rw [hpull _ _ hreq]
                rwa [hreq] at h
          · rwa [if_neg hthr] at h ⊢
      | some n =>
          dsimp only at h ⊢
          by_cases hthr : recentThresholdHit cfg (markNodeRecent m n) = true
          · rw [if_pos hthr] at h ⊢
            cases hreq : requestPull cfg fuel (markNodeRecent m n) with
            | none => simp [hreq] at h
            | some s =>
                rw [hpull _ _ hreq]
                rwa [hreq] at h
          · rwa [if_neg hthr] at h ⊢

end DeferredLru
