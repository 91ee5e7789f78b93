import DeferredLru.Threads.PurgeSteps

set_option autoImplicit false

/-! # The steps of `pullRecent`

The pulling thread owns the slice it has popped: a node keeps its mark while it waits there, so nobody
marks it again and, the puller being inside, nobody evicts it. Each node either stays where it is (its
`lru_prev` leads to the head sentinel) or moves to the temporary list; the head compare-exchange at
the end puts all moved nodes back at once. -/

namespace DeferredLru.Threads

open Intrusive

variable {N : ℕ} {K V T : Type} {cfg : Config N K} {s : State N K V T} {g : Ghost N T} {t t' : T}
  {n : Fin N} {back : Back K V} {first last next c : Ptr N}

/-! ## The slice and the temporary list -/

/-- The slice that starts at a node begins with it. -/
theorem slice_cons {m : Mem N K V} {slice : List (Fin N)}
    (h : Chain m.recentNext .node (.node n) slice .dummy) :
    ∃ rest, slice = n :: rest ∧ Chain m.recentNext .node (m.recentNext n) rest .dummy ∧
      n ∉ rest := by
  cases slice with
  | nil => cases h
  | cons x rest =>
      have hdup := Chain.nodup Ptr.node_injective (by simp) h
      obtain rfl : n = x := Ptr.node_injective h.1
      exact ⟨rest, rfl, h.2, (List.nodup_cons.1 hdup).1⟩

/-- Where a consolidation goes after a step of `pullRecent`. -/
def pulling (back : Back K V) : Option (PullPC N) → PC N K V
  | some p => .consolidate back (.pull p)
  | none => .consolidate back .clearPull

theorem pullAt_detached (back : Back K V) (current prev : Ptr N) :
    (pulling back (pullAt current prev)).Detached := by
  unfold pullAt
  split_ifs <;> exact ⟨rfl, rfl, rfl, rfl⟩

theorem pullAt_inside (back : Back K V) (current prev : Ptr N) :
    (pulling back (pullAt current prev)).inside = true := by
  unfold pullAt
  split_ifs <;> rfl

theorem pullAt_lockedBucket (cfg : Config N K) (back : Back K V) (current prev : Ptr N) :
    (pulling back (pullAt current prev)).lockedBucket cfg = none := by
  unfold pullAt
  split_ifs <;> rfl

theorem pullAt_inv {m : Mem N K V} {current : Ptr N} (hs : SliceFrom m g current)
    (ht : TempList m g.temp last) : (pulling back (pullAt current last)).inv cfg m g := by
  unfold pullAt
  by_cases hc : current = .dummy
  · subst hc
    have hslice : g.slice = [] := by
      have hchain := hs.1
      cases hl : g.slice with
      | nil => rfl
      | cons x l =>
          rw [hl] at hchain
          cases hchain.1
    rw [if_pos rfl]
    by_cases hlast : last = .localHead
    · subst hlast
      rw [if_pos rfl]
      refine ⟨hslice, ?_⟩
      generalize g.temp = l at ht
      cases ht
      rfl
    · rw [if_neg hlast]
      refine ⟨hslice, ?_, ht⟩
      rintro htemp
      rw [htemp] at ht
      have hcell := ht.last_isCell
      simp only [IsCell, List.not_mem_nil, false_and, exists_false, or_false] at hcell
      exact hlast hcell
  · rw [if_neg hc]
    exact ⟨hs, ht⟩

theorem Inv.pull_inv (h : Inv cfg s g) {p : PullPC N}
    (hpc : s.pc t = .consolidate back (.pull p)) :
    (s.pc t).inside = true ∧ p.inv s.mem g := by
  have hinv := h.pcs t
  rw [hpc] at hinv ⊢
  exact ⟨rfl, hinv⟩

/-- The temporary list does not meet the LRU list. -/
theorem Inv.temp_not_lru (h : Inv cfg s g) {x : Fin N} (hx : x ∈ g.temp) : x ∉ g.lru := by
  intro hl
  have hlru := (h.lru.mem x).1 hl
  rw [(h.lru.temp x).1 hx] at hlru
  exact hlru

/-- A cell of the temporary list is no cell of the LRU list. -/
theorem Inv.temp_cell_ne (h : Inv cfg s g) {c : Ptr N} (hc : IsCell .node .localHead g.temp c) :
    c ≠ .lruHead ∧ ∀ x ∈ g.lru, c ≠ .node x := by
  rcases hc with rfl | ⟨y, hy, rfl⟩
  · exact ⟨by simp, fun _ _ => by simp⟩
  · refine ⟨by simp, fun x hx heq => ?_⟩
    obtain rfl := Ptr.node_injective heq
    exact h.temp_not_lru hy hx

theorem Inv.slice_role (h : Inv cfg s g) {x : Fin N} (hx : x ∈ g.slice) :
    g.role x = .rest .slice := (h.recent.slice x).1 hx

/-- A marking thread marks no node of the slice. -/
theorem Inv.marks_ne_slice (h : Inv cfg s g) (hn : g.role n = .rest .slice) {x : Fin N} {y : Mark}
    (hv : (s.pc t).marks = some (x, y)) : x ≠ n := by
  rintro rfl
  exact h.role.ne_of_rest hn t y hv

/-- The temporary list as a sublist. -/
theorem sublist_of_tempList {m : Mem N K V} (h : TempList m g.temp last) (hne : g.temp ≠ []) :
    Sublist m g (m.lruNext .localHead) last := by
  unfold Sublist
  generalize g.temp = l at h hne
  cases h with
  | nil => exact absurd rfl hne
  | @snoc t x hlinked hback hx =>
      exact ⟨t, x, rfl, hx, rfl, hlinked, fun y hy => hback _ (isCell_node hy)⟩

/-- The ends of a sublist are nodes of the temporary list. -/
theorem Sublist.ends {m : Mem N K V} (h : Sublist m g first last) :
    (∃ x ∈ g.temp, first = .node x) ∧ ∃ x ∈ g.temp, last = .node x := by
  obtain ⟨t, x, htemp, -, rfl, hchain, -⟩ := h
  refine ⟨?_, x, by simp [htemp], rfl⟩
  rcases Chain.start_mem hchain with hx | ⟨y, hy, hx⟩
  · exact ⟨x, by simp [htemp], hx⟩
  · exact ⟨y, by simp [htemp, hy], hx⟩

/-- The statuses after the temporary list has been put back. -/
def spliced (status : Fin N → Status T) (n : Fin N) : Status T :=
  match status n with
  | .rest .temp => .rest .resident
  | σ => σ

section Spliced

variable {status : Fin N → Status T}

theorem spliced_temp (h : status n = .rest .temp) : spliced status n = .rest .resident := by
  unfold spliced
  rw [h]

theorem spliced_of_ne (h : status n ≠ .rest .temp) : spliced status n = status n := by
  unfold spliced
  split
  · rename_i ht
    exact absurd ht h
  · rfl

theorem spliced_held {x : Stage} : spliced status n = .held t x ↔ status n = .held t x := by
  by_cases h : status n = .rest .temp
  · rw [spliced_temp h, h]
    simp
  · rw [spliced_of_ne h]

theorem spliced_inLru :
    (spliced status n).inLru ↔ (status n).inLru ∨ status n = .rest .temp := by
  by_cases h : status n = .rest .temp
  · rw [spliced_temp h, h]
    simp [Status.inLru]
  · rw [spliced_of_ne h]
    simp [h]

theorem spliced_inBucket : (spliced status n).inBucket ↔ (status n).inBucket := by
  by_cases h : status n = .rest .temp
  · rw [spliced_temp h, h]
    exact Iff.rfl
  · rw [spliced_of_ne h]

theorem spliced_free : spliced status n = .rest .free ↔ status n = .rest .free := by
  by_cases h : status n = .rest .temp
  · rw [spliced_temp h, h]
    simp
  · rw [spliced_of_ne h]

theorem spliced_ne_temp : spliced status n ≠ .rest .temp := by
  by_cases h : status n = .rest .temp
  · rw [spliced_temp h]
    simp
  · rw [spliced_of_ne h]
    exact h

end Spliced

/-- A mark that suits a node in the temporary list suits it in the LRU list. -/
theorem Compatible.put_back {ρ : Role T} (h : Compatible ρ (.rest .temp)) :
    Compatible ρ (.rest .resident) := by
  cases ρ with
  | rest p => cases p <;> simp [Compatible]
  | held t x => cases x <;> first | exact h.elim | simp [Compatible]

/-- While the puller holds no node, what it has moved is in the temporary list. -/
theorem Inv.moved_iff (h : Inv cfg s g) (hin : (s.pc t).inside = true)
    (hholds : (s.pc t).holds = none) (n : Fin N) :
    (g.status n).moved ↔ g.status n = .rest .temp := by
  cases hs : g.status n with
  | rest p => cases p <;> simp [Status.moved]
  | held t' x =>
      cases x with
      | limbo =>
          exfalso
          have hv := h.status.view_eq hs
          by_cases hne : t' = t
          · rw [hne, hholds] at hv
            cases hv
          · exact h.alone hin hne (PC.inside_of_holds hv (Or.inr rfl))
      | _ => simp [Status.moved]

variable [DecidableEq T]

/-! ## Taking the slice -/

/-- The exchange of the head of the Recent list. -/
theorem Inv.slice (h : Inv cfg s g) (hpc : s.pc t = .consolidate back (.pull .exchange)) :
    Preserves cfg s t (.setRecentHead .dummy)
      (.consolidate back (.pull (.reset s.mem.recentHead))) .slice g := by
  obtain ⟨hin, hslice, htemp⟩ := h.pull_inv hpc
  have hrecent := h.recent
  rw [hslice] at hrecent
  have hnoslice : ∀ x, g.role x ≠ .rest .slice := fun x hx => by
    have := (hrecent.slice x).2 hx
    simp at this
  refine ⟨{ g with role := sliced g.role, recent := [], slice := g.recent }, ?_,
    ⟨fun _ => Iff.rfl, fun _ => Iff.rfl, fun _ => Iff.rfl, fun _ => Iff.rfl, rfl⟩⟩
  refine h.apply (by rw [hpc]; exact ⟨rfl, rfl⟩) (h.status.keep (by rw [hpc]; rfl))
    ((h.role.congr fun _ _ _ => sliced_held).keep (by rw [hpc]; rfl)) (fun x => ?_) h.buckets
    hrecent.exchange (h.lru.settled (by rw [hpc]; exact ⟨rfl, rfl, rfl, rfl⟩)) (fun hl => ?_)
    ⟨⟨h.recent.chain, fun x hx => ?_⟩, htemp⟩ (fun t' hne => { Rely.refl cfg (s.pc t') s.mem g with
      inside := h.rely_inside hin hne })
  · show Compatible (sliced g.role x) (g.status x)
    have hc := h.compatible x
    unfold sliced
    split
    · rename_i hr
      rw [hr] at hc
      cases hs : g.status x with
      | rest p =>
          rw [hs] at hc
          exact hc
      | held t' y =>
          rw [hs] at hc
          exact hc.elim
    · exact hc
  · rw [(h.locks.lru t).1 hin] at hl
    cases hl
  · have hc := h.compatible x
    have ht := h.lru.temp x
    rw [(h.recent.recent x).1 hx] at hc
    rw [htemp] at ht
    cases hs : g.status x with
    | rest p =>
        rw [hs] at hc ht
        cases p with
        | free => exact absurd rfl hc
        | resident => rfl
        | temp => simp at ht
    | held t' y =>
        rw [hs] at hc
        exact hc.elim

/-- The local head of the temporary list is set up. -/
theorem Inv.initHead (h : Inv cfg s g) {current : Ptr N}
    (hpc : s.pc t = .consolidate back (.pull (.initHead current))) :
    Preserves cfg s t (.setNext .localHead .null)
      (pulling back (pullAt current .localHead)) .nothing g := by
  obtain ⟨hin, hslice, htemp⟩ := h.pull_inv hpc
  have hd := pullAt_detached back current (.localHead : Ptr N)
  have hlocks : LockStep cfg s (s.pc t) (.setNext .localHead .null)
      (pulling back (pullAt current .localHead)) := by
    rw [hpc]
    exact ⟨pullAt_inside .., pullAt_lockedBucket ..⟩
  have hnode : ∀ x : Fin N,
      (s.mem.setNext .localHead .null).lruNext (.node x) = s.mem.lruNext (.node x) := by
    intro x
    show Function.update s.mem.lruNext .localHead .null (.node x) = _
    exact Function.update_of_ne (by simp) _ _
  refine ⟨g, ?_, .nothing rfl rfl⟩
  refine h.apply hlocks (h.status.keep (by rw [hpc]; exact hd.holds))
    (h.role.keep (by rw [hpc]; exact hd.marks)) h.compatible h.buckets h.recent
    ((h.lru.foreignNext (by simp) (by simp) _).settled
      (by rw [hpc]; exact ⟨rfl, rfl, hd.repairing, hd.gap⟩)) h.quiet
    (pullAt_inv hslice (by rw [htemp]; exact .nil))
    (fun t' hne => { Rely.refl cfg (s.pc t') s.mem g with
      holds := fun x y hv => ⟨rfl, rfl, fun _ => rfl, fun _ => hnode x, fun _ => rfl⟩
      inside := h.rely_inside hin hne })

/-! ## Unmarking -/

/-- The first node of the slice has been dealt with; its mark is cleared. -/
theorem Inv.unmark (h : Inv cfg s g) {p : PullPC N}
    (hpc : s.pc t = .consolidate back (.pull p)) (hholds : p.holds = none)
    (hsettled : Settled (s.pc t) (pulling back (pullAt next last)))
    (hchain : Chain s.mem.recentNext .node (.node n) g.slice .dummy)
    (hresident : ∀ x ∈ g.slice, x ≠ n → g.status x = .rest .resident)
    (hnext : s.mem.recentNext n = next) (htemp : TempList s.mem g.temp last)
    (hs : g.status n = .rest .resident ∨ g.status n = .rest .temp) :
    Preserves cfg s t (.setRecent n .null) (pulling back (pullAt next last)) .nothing g := by
  have hin : (s.pc t).inside = true := by rw [hpc]; rfl
  have hd := pullAt_detached back next last
  obtain ⟨rest, hrest, hchain', hnr⟩ := slice_cons hchain
  have hr : g.role n = .rest .slice := h.slice_role (by rw [hrest]; simp)
  have hrecent := h.recent
  rw [hrest] at hrecent
  refine ⟨{ g with role := Function.update g.role n (.rest .unmarked), slice := rest }, ?_,
    .nothing rfl rfl⟩
  refine h.apply ?_ (h.status.keep ?_) ?_ (h.compatible_role ?_) h.buckets (hrecent.unmark hnr)
    (h.lru.settled hsettled) (fun hl => ?_) (pullAt_inv ⟨?_, fun x hx => ?_⟩
      (htemp.congr (fun _ _ _ => rfl) fun _ _ => rfl))
    (fun t' hne => { Rely.refl cfg (s.pc t') s.mem g with
      marks := fun x y hv => Function.update_of_ne (h.marks_ne_slice hr hv) _ _
      inside := h.rely_inside hin hne })
  · rw [hpc]
    exact ⟨pullAt_inside .., pullAt_lockedBucket ..⟩
  · rw [hpc]
    exact hd.holds.trans hholds.symm
  · refine (h.role.keep (by rw [hpc]; exact hd.marks)).congr fun x t' y => ?_
    show Function.update g.role n _ x = _ ↔ _
    by_cases hx : x = n
    · subst hx
      rw [Function.update_self, hr]
      exact iff_of_false (by simp) (by simp)
    · rw [Function.update_of_ne hx]
  · rcases hs with hs | hs <;> rw [hs] <;> trivial
  · rw [(h.locks.lru t).1 hin] at hl
    cases hl
  · show Chain (Function.update s.mem.recentNext n .null) _ _ rest _
    rw [← hnext]
    exact hchain'.update hnr
  · exact hresident x (by rw [hrest]; exact List.mem_cons_of_mem _ hx)
      (fun hxn => hnr (hxn ▸ hx))

/-! ## To the temporary list -/

/-- The first store of `removeNodeFromLru` takes the node out of the list. -/
theorem Inv.moveOut (h : Inv cfg s g) {prev behind : Ptr N}
    (hpc : s.pc t = .consolidate back (.pull (.unlink n last (.storeNext prev behind)))) :
    Preserves cfg s t (.setNext prev behind)
      (.consolidate back (.pull (.unlink n last (.storePrev prev behind)))) (.move n) g := by
  obtain ⟨hin, hslice, htemp, hres, hn, hne, rfl, rfl⟩ := h.pull_inv hpc
  have hholds : (s.pc t).holds = none := by rw [hpc]; rfl
  have hrept : (s.pc t).repairing = none := by rw [hpc]; rfl
  have hgap := h.no_gap hin (by rw [hpc]; rfl)
  have hs : g.status n = .rest .resident := hres rfl
  have hr : g.role n = .rest .slice := by
    obtain ⟨rest, hrest, -, -⟩ := slice_cons hslice.1
    exact h.slice_role (by rw [hrest]; simp)
  obtain ⟨x, hx, hpx, -, -⟩ := h.lru.prev_spec hn hne hgap
  refine ⟨{ g with
    status := Function.update g.status n (.held t .limbo)
    lru := g.lru.erase n }, ?_,
    Effect.single (n := n) (u := .held t .limbo) rfl rfl rfl ?_ ?_ ?_ ?_⟩
  · refine h.apply (by rw [hpc]; exact ⟨rfl, rfl⟩) (h.status.take hholds hs rfl)
      (h.role.keep (by rw [hpc]; rfl)) (h.compatible_status ?_) (h.buckets.restatus ?_) h.recent
      (h.lru.unlink hn hne hgap id (by simp) (by rw [hs]; simp)
        (h.resident_not_repairing hin hrept hs) hrept rfl rfl) (fun hl => ?_)
      ⟨⟨hslice.1, fun y hy hyn => ?_⟩, htemp.congr (fun c hc _ => ?_) fun _ _ => rfl,
        by simp [UnlinkPC.unlinked], trivial⟩
      (fun t' hne' => { Rely.refl cfg (s.pc t') s.mem g with
        holds := fun z w hz => ⟨rfl, rfl, fun _ => rfl, fun hw => ?_, fun _ => rfl⟩
        inside := h.rely_inside hin hne' })
    · rw [hr]
      trivial
    · rw [hs]
      exact Iff.rfl
    · rw [(h.locks.lru t).1 hin] at hl
      cases hl
    · show Function.update g.status n _ y = _
      rw [Function.update_of_ne hyn]
      exact hslice.2 y hy hyn
    · refine Function.update_of_ne ?_ _ _
      rw [hpx]
      exact (h.temp_cell_ne hc).2 x hx
    · refine Function.update_of_ne ?_ _ _
      rw [hpx]
      have hzl : ¬ (g.status z).inLru := by
        rw [h.held hz]
        rcases hw with rfl | rfl <;> exact id
      simpa using (h.not_lru hzl hx).symm
  · exact iff_of_false id (fun hh => hh.2 rfl)
  · exact iff_of_true trivial (Or.inl rfl)
  · rw [hs]
    exact iff_of_false (by simp) (by simp [Deed.free])
  · rw [hs]
    exact Iff.rfl

/-- The second store makes the back link exact again. -/
theorem Inv.closeMove (h : Inv cfg s g) {prev behind : Ptr N}
    (hpc : s.pc t = .consolidate back (.pull (.unlink n last (.storePrev prev behind)))) :
    Preserves cfg s t (.setPrev behind prev) (.consolidate back (.pull (.appendNext n last)))
      .nothing g := by
  obtain ⟨hin, hslice, htemp, -, -⟩ := h.pull_inv hpc
  have hg : (s.pc t).gap = some (prev, n, behind) := by rw [hpc]; rfl
  have hgaps : ∀ t', t' ≠ t → (s.pc t').gap = none := by
    intro t' hne
    cases hg' : (s.pc t').gap with
    | none => rfl
    | some r => exact absurd (PC.gap_inside hg') (h.alone hin hne)
  obtain ⟨hnx, -, x, hx, rfl⟩ := h.lru.gap t _ _ _ hg
  have hbehind : ∀ z, ¬ (g.status z).inLru → .node z ≠ behind := by
    rintro z hzl rfl
    rcases h.lru.linked.next_mem (isCell_node hx) with hn | ⟨y, hy, hn⟩
    · rw [hnx] at hn
      cases hn
    · rw [hnx] at hn
      exact h.not_lru hzl hy (Ptr.node_injective hn).symm
  refine ⟨g, ?_, .nothing rfl rfl⟩
  refine h.apply (by rw [hpc]; exact ⟨rfl, rfl⟩) (h.status.keep (by rw [hpc]; rfl))
    (h.role.keep (by rw [hpc]; rfl)) h.compatible h.buckets h.recent
    (h.lru.close hg hgaps (by rw [hpc]; rfl) rfl rfl) h.quiet
    ⟨hslice, htemp.congr (fun _ _ _ => rfl) fun z hz => ?_⟩
    (fun t' hne => { Rely.refl cfg (s.pc t') s.mem g with
      holds := fun z w hz => ⟨rfl, rfl, fun _ => rfl, fun _ => rfl, fun hw => ?_⟩
      inside := h.rely_inside hin hne })
  · refine Function.update_of_ne (hbehind z ?_) _ _
    rw [(h.lru.temp z).1 hz]
    exact id
  · refine Function.update_of_ne (hbehind z ?_) _ _
    rw [h.held hz, hw]
    exact id

/-- The node is linked behind the last cell of the temporary list. -/
theorem Inv.appendNext (h : Inv cfg s g)
    (hpc : s.pc t = .consolidate back (.pull (.appendNext n last))) :
    Preserves cfg s t (.setNext last (.node n)) (.consolidate back (.pull (.appendPrev n last)))
      .nothing g := by
  obtain ⟨hin, hslice, htemp⟩ := h.pull_inv hpc
  have hlast := h.temp_cell_ne htemp.last_isCell
  refine ⟨g, ?_, .nothing rfl rfl⟩
  refine h.apply (by rw [hpc]; exact ⟨rfl, rfl⟩) (h.status.keep (by rw [hpc]; rfl))
    (h.role.keep (by rw [hpc]; rfl)) h.compatible h.buckets h.recent
    ((h.lru.foreignNext hlast.1 hlast.2 _).settled (by rw [hpc]; exact ⟨rfl, rfl, rfl, rfl⟩))
    h.quiet ⟨hslice, htemp.congr (fun c _ hc => Function.update_of_ne hc _ _) fun _ _ => rfl,
      Function.update_self ..⟩
    (fun t' hne => { Rely.refl cfg (s.pc t') s.mem g with
      holds := fun z w hz => ⟨rfl, rfl, fun _ => rfl, fun _ => ?_, fun _ => rfl⟩
      inside := h.rely_inside hin hne })
  refine Function.update_of_ne ?_ _ _
  rcases htemp.last_isCell with rfl | ⟨y, hy, rfl⟩
  · simp
  · rintro heq
    obtain rfl := Ptr.node_injective heq
    have hzy := (h.lru.temp z).1 hy
    rw [h.held hz] at hzy
    cases hzy

/-- The back link to the cell before makes the node a member. -/
theorem Inv.appendPrev (h : Inv cfg s g)
    (hpc : s.pc t = .consolidate back (.pull (.appendPrev n last))) :
    Preserves cfg s t (.setPrev (.node n) last) (.consolidate back (.pull (.takenLoad n))) .nothing
      g := by
  obtain ⟨hin, hslice, htemp, hlink⟩ := h.pull_inv hpc
  have hv : (s.pc t).holds = some (n, .limbo) := by rw [hpc]; rfl
  have hs := h.held hv
  have hnl : ¬ (g.status n).inLru := by rw [hs]; exact id
  have hnt : g.status n ≠ .rest .temp := by rw [hs]; simp
  have hr : g.role n = .rest .slice := by
    obtain ⟨rest, hrest, -, -⟩ := slice_cons hslice.1
    exact h.slice_role (by rw [hrest]; simp)
  have hnm : n ∉ g.temp := fun hm => h.not_temp hnt hm rfl
  refine ⟨{ g with
    status := Function.update g.status n (.rest .temp)
    temp := g.temp ++ [n] }, ?_,
    Effect.single (n := n) (u := .rest .temp) trivial rfl rfl ?_ ?_ ?_ ?_⟩
  · refine h.apply (by rw [hpc]; exact ⟨rfl, rfl⟩) (h.status.drop hv rfl)
      (h.role.keep (by rw [hpc]; rfl)) (h.compatible_status ?_) (h.buckets.restatus ?_) h.recent
      (((h.lru.append hs).foreignPrev (by simp) (fun x hx => ?_) _).settled
        (by rw [hpc]; exact ⟨rfl, rfl, rfl, rfl⟩)) (fun hl => ?_)
      ⟨⟨hslice.1, fun y hy hyn => ?_⟩, TempList.append (htemp.congr (fun _ _ _ => rfl) fun x hx => ?_)
        hlink (Function.update_self ..) hnm⟩
      (fun t' hne => { Rely.refl cfg (s.pc t') s.mem g with
        holds := fun z w hz => ⟨rfl, rfl, fun _ => rfl, fun _ => rfl, fun _ => ?_⟩
        inside := h.rely_inside hin hne })
    · rw [hr]
      simp [Compatible]
    · rw [hs]
      exact Iff.rfl
    · simpa using (h.not_lru hnl hx).symm
    · rw [(h.locks.lru t).1 hin] at hl
      cases hl
    · show Function.update g.status n _ y = _
      rw [Function.update_of_ne hyn]
      exact hslice.2 y hy hyn
    · exact Function.update_of_ne (by simpa using h.not_temp hnt hx) _ _
    · exact Function.update_of_ne (by simpa using h.holds_ne hne hs hz) _ _
  · rw [hs]
    exact Iff.rfl
  · rw [hs]
    exact Iff.rfl
  · rw [hs]
    exact iff_of_false (by simp) (by simp [Deed.free])
  · rw [hs]
    exact Iff.rfl

/-! ## Back to the front -/

theorem Inv.addPrev (h : Inv cfg s g)
    (hpc : s.pc t = .consolidate back (.pull (.add first last .storePrev))) :
    Preserves cfg s t (.setPrev first .lruHead) (.consolidate back (.pull (.add first last .load)))
      .nothing g := by
  obtain ⟨hin, hslice, hsub⟩ := h.pull_inv hpc
  obtain ⟨y, hy, rfl⟩ := hsub.ends.1
  have hs := (h.lru.temp y).1 hy
  obtain ⟨l, x, htemp, hx, rfl, hchain, hback⟩ := hsub
  refine ⟨g, ?_, .nothing rfl rfl⟩
  refine h.apply (by rw [hpc]; exact ⟨rfl, rfl⟩) (h.status.keep (by rw [hpc]; rfl))
    (h.role.keep (by rw [hpc]; rfl)) h.compatible h.buckets h.recent
    ((h.lru.foreignPrev (by simp) (fun z hz => ?_) _).settled
      (by rw [hpc]; exact ⟨rfl, rfl, rfl, rfl⟩)) h.quiet
    ⟨hslice, ⟨l, x, htemp, hx, rfl, hchain, fun z hz => ?_⟩, Function.update_self ..⟩
    (fun t' hne => { Rely.refl cfg (s.pc t') s.mem g with
      holds := fun z w hz => ⟨rfl, rfl, fun _ => rfl, fun _ => rfl, fun _ => ?_⟩
      inside := h.rely_inside hin hne })
  · simpa using (h.not_lru (by rw [hs]; exact id) hz).symm
  · have hend : ∀ w ∈ l, Ptr.node x ≠ .node w := fun w hw heq =>
      hx (Ptr.node_injective heq ▸ hw)
    have hzy := Chain.next_ne_start Ptr.node_injective hend hchain hz
    exact (Function.update_of_ne hzy _ _).trans (hback z hz)
  · refine Function.update_of_ne ?_ _ _
    rintro heq
    obtain rfl := Ptr.node_injective heq
    rw [h.held hz] at hs
    cases hs

theorem Inv.addNext (h : Inv cfg s g)
    (hpc : s.pc t = .consolidate back (.pull (.add first last (.storeNext c)))) :
    Preserves cfg s t (.setNext last c) (.consolidate back (.pull (.add first last (.cas c))))
      .nothing g := by
  obtain ⟨hin, hslice, hsub, hprev⟩ := h.pull_inv hpc
  obtain ⟨l, x, htemp, hx, rfl, hchain, hback⟩ := hsub
  have hs := (h.lru.temp x).1 (by simp [htemp])
  have hsame : ∀ y ∈ l, (s.mem.setNext (.node x) c).lruNext (.node y) = s.mem.lruNext (.node y) := by
    intro y hy
    refine Function.update_of_ne ?_ _ _
    rintro heq
    exact hx (Ptr.node_injective heq ▸ hy)
  refine ⟨g, ?_, .nothing rfl rfl⟩
  refine h.apply (by rw [hpc]; exact ⟨rfl, rfl⟩) (h.status.keep (by rw [hpc]; rfl))
    (h.role.keep (by rw [hpc]; rfl)) h.compatible h.buckets h.recent
    ((h.lru.foreignNext (by simp) (fun z hz => ?_) _).settled
      (by rw [hpc]; exact ⟨rfl, rfl, rfl, rfl⟩)) h.quiet
    ⟨hslice, ⟨l, x, htemp, hx, rfl, hchain.congr hsame, fun z hz => ?_⟩, hprev,
      Function.update_self ..⟩
    (fun t' hne => { Rely.refl cfg (s.pc t') s.mem g with
      holds := fun z w hz => ⟨rfl, rfl, fun _ => rfl, fun _ => ?_, fun _ => rfl⟩
      inside := h.rely_inside hin hne })
  · simpa using (h.not_lru (by rw [hs]; exact id) hz).symm
  · exact (congrArg s.mem.lruPrev (hsame z hz)).trans (hback z hz)
  · refine Function.update_of_ne ?_ _ _
    rintro heq
    obtain rfl := Ptr.node_injective heq
    rw [h.held hz] at hs
    cases hs

/-- The head compare-exchange puts all moved nodes back. -/
theorem Inv.splice (h : Inv cfg s g)
    (hpc : s.pc t = .consolidate back (.pull (.add first last (.cas c))))
    (hc : s.mem.lruNext .lruHead = c) :
    Preserves cfg s t (.setNext .lruHead first)
      (.consolidate back (.pull (.add first last (.repair c)))) .splice g := by
  obtain ⟨hin, hslice, hsub, hprev, hnext⟩ := h.pull_inv hpc
  obtain ⟨l, x, htemp, hx, rfl, hchain, hback⟩ := hsub
  subst hc
  have hholds : (s.pc t).holds = none := by rw [hpc]; rfl
  have hnode : ∀ p, p ≠ .lruHead →
      (s.mem.setNext .lruHead first).lruNext p = s.mem.lruNext p := fun p hp =>
    Function.update_of_ne hp _ _
  refine ⟨{ g with status := spliced g.status, lru := l ++ x :: g.lru, temp := [] }, ?_, ?_⟩
  · refine h.apply (by rw [hpc]; exact ⟨rfl, rfl⟩)
      ((h.status.congr fun _ _ _ => spliced_held).keep (by rw [hpc]; rfl))
      (h.role.keep (by rw [hpc]; rfl)) (fun y => ?_) ⟨h.buckets.chain, fun b y => ?_⟩ h.recent
      (h.lru.splice hchain hback hprev hnext (fun y => ?_) (fun y => ?_) (fun y hy => ?_)
        (by rw [hpc]; rfl) (by rw [hpc]; rfl) rfl rfl (Or.inr ⟨?_, rfl⟩)) (fun hl => ?_)
      ⟨hslice, rfl⟩ (fun t' hne => { Rely.refl cfg (s.pc t') s.mem g with
        holds := fun y z hy => ⟨rfl, rfl, fun _ => rfl, fun _ => hnode (.node y) (by simp),
          fun _ => rfl⟩
        inside := h.rely_inside hin hne })
    · show Compatible (g.role y) (spliced g.status y)
      have hc := h.compatible y
      by_cases hy : g.status y = .rest .temp
      · rw [spliced_temp hy]
        rw [hy] at hc
        exact hc.put_back
      · rw [spliced_of_ne hy]
        exact hc
    · rw [spliced_inBucket]
      exact h.buckets.mem b y
    · rw [spliced_inLru, ← h.lru.mem y, ← h.lru.temp y, htemp]
      simp only [List.mem_append, List.mem_cons, List.not_mem_nil, or_false]
      tauto
    · exact iff_of_false (by simp) spliced_ne_temp
    · refine spliced_of_ne fun ht => ?_
      exact h.temp_not_lru ((h.lru.temp y).2 ht) hy
    · exact spliced_temp ((h.lru.temp x).1 (by simp [htemp]))
    · rw [(h.locks.lru t).1 hin] at hl
      cases hl
  · refine ⟨fun y => ?_, fun y => ?_, fun y => spliced_free, fun y => spliced_inBucket, rfl⟩
    · show (spliced g.status y).inLru ↔ _ ∨ _
      rw [spliced_inLru, h.moved_iff hin hholds]
    · show (spliced g.status y).moved ↔ False
      by_cases ht : g.status y = .rest .temp
      · rw [spliced_temp ht]
        exact Iff.rfl
      · rw [spliced_of_ne ht, h.moved_iff hin hholds]
        exact iff_false_intro ht

/-- The old first node's `lru_prev` is repaired. -/
theorem Inv.repairSplice (h : Inv cfg s g)
    (hpc : s.pc t = .consolidate back (.pull (.add first last (.repair c)))) :
    Preserves cfg s t (.setPrev c last) (.consolidate back .clearPull) .nothing g := by
  have hrep : (s.pc t).repairing = some (c, last) := by rw [hpc]; rfl
  obtain ⟨hin, hslice, htemp⟩ := h.pull_inv hpc
  obtain ⟨-, hnext, -⟩ := h.lru.repairing t c _ hrep
  obtain ⟨x, hx, rfl⟩ := h.lru.repairing_mem hrep
  refine ⟨g, ?_, .nothing rfl rfl⟩
  refine h.apply (by rw [hpc]; exact ⟨rfl, rfl⟩) (h.status.keep (by rw [hpc]; rfl))
    (h.role.keep (by rw [hpc]; rfl)) h.compatible h.buckets h.recent
    (h.lru.repair hrep (fun t' ht' _ => h.locks.inside_unique ht' hin) (by rw [hpc]; rfl) rfl rfl)
    h.quiet ⟨hslice, htemp⟩ (fun t' hne => { Rely.refl cfg (s.pc t') s.mem g with
      holds := fun y z hy => ⟨rfl, rfl, fun _ => rfl, fun _ => rfl, fun hz => ?_⟩
      inside := h.rely_inside hin hne })
  refine Function.update_of_ne ?_ _ _
  rintro rfl
  have hyl : ¬ (g.status y).inLru := by
    rw [h.held hy, hz]
    exact id
  rcases h.lru.linked.next_mem (isCell_node hx) with hn | ⟨w, hw, hn⟩
  · rw [hnext] at hn
    cases hn
  · rw [hnext] at hn
    exact h.not_lru hyl hw (Ptr.node_injective hn).symm

/-! ## All steps -/

theorem Inv.pull_step (h : Inv cfg s g) {fails : Bool} {p : PullPC N} {act : Act N K V}
    {p' : Option (PullPC N)} (hpc : s.pc t = .consolidate back (.pull p))
    (hnext : nextPull s.mem fails p = some (act, p'))
    (hlocks : LockStep cfg s (s.pc t) act (pulling back p')) :
    Preserves cfg s t act (pulling back p') (Label.deed ⟨t, s.pc t, .go fails, act⟩) g := by
  obtain ⟨hin, hp⟩ := h.pull_inv hpc
  rw [hpc] at hlocks ⊢
  cases p with
  | exchange =>
      cases hnext
      exact h.slice hpc
  | reset slice =>
      cases hnext
      exact h.still hpc hlocks ⟨rfl, rfl, rfl, rfl, rfl, rfl, rfl, rfl⟩ rfl rfl
        ⟨rfl, rfl, rfl, rfl⟩ h.quiet hp
  | initHead slice =>
      cases hnext
      exact h.initHead hpc
  | prev current last =>
      cases current with
      | node n =>
          cases hnext
          obtain ⟨rest, hrest, -, -⟩ := slice_cons hp.1.1
          have hs : g.status n = .rest .resident := hp.1.2 n (by rw [hrest]; simp)
          -- the front node stays where it is, every other one is moved
          by_cases hh : s.mem.lruPrev (.node n) = .lruHead
          · rw [if_pos hh] at hlocks ⊢
            exact h.still hpc hlocks (.refl _) rfl rfl ⟨rfl, rfl, rfl, rfl⟩ h.quiet hp
          · rw [if_neg hh] at hlocks ⊢
            exact h.still hpc hlocks (.refl _) rfl rfl ⟨rfl, rfl, rfl, rfl⟩ h.quiet
              ⟨⟨hp.1.1, fun x hx _ => hp.1.2 x hx⟩, hp.2, fun _ => hs,
                (h.lru.mem n).2 (by rw [hs]; trivial), hh⟩
      | _ => cases hnext
  | skipLoad n last =>
      cases hnext
      exact h.still hpc hlocks (.refl _) rfl rfl ⟨rfl, rfl, rfl, rfl⟩ h.quiet ⟨hp.1, rfl, hp.2⟩
  | skipStore n next last =>
      cases hnext
      have hd := pullAt_detached back next last
      obtain ⟨rest, hrest, -, -⟩ := slice_cons hp.1.1
      exact h.unmark hpc rfl (by rw [hpc]; exact ⟨rfl, rfl, hd.repairing, hd.gap⟩) hp.1.1
        (fun x hx _ => hp.1.2 x hx) hp.2.1 hp.2.2 (Or.inl (hp.1.2 n (by rw [hrest]; simp)))
  | unlink n last p =>
      -- only the first store changes the list, the second one closes the gap
      obtain ⟨⟨a, q⟩, hq, heq⟩ := Option.map_eq_some_iff.1 hnext
      cases heq
      obtain ⟨hslice, htemp, hres, hp⟩ := hp
      cases p with
      | loadPrev =>
          cases hq
          exact h.still hpc hlocks (.refl _) rfl rfl ⟨rfl, rfl, rfl, rfl⟩ h.quiet
            ⟨hslice, htemp, hres, hp.1, hp.2, rfl⟩
      | loadNext prev =>
          cases hq
          exact h.still hpc hlocks (.refl _) rfl rfl ⟨rfl, rfl, rfl, rfl⟩ h.quiet
            ⟨hslice, htemp, hres, hp.1, hp.2.1, hp.2.2, rfl⟩
      | storeNext prev behind =>
          simp only [nextUnlink] at hq
          split_ifs at hq
          cases hq
          exact h.moveOut hpc
      | storePrev prev behind =>
          simp only [nextUnlink] at hq
          split_ifs at hq
          cases hq
          exact h.closeMove hpc
  | appendNext n last =>
      simp only [nextPull] at hnext
      split_ifs at hnext
      cases hnext
      exact h.appendNext hpc
  | appendPrev n last =>
      cases hnext
      exact h.appendPrev hpc
  | takenLoad n =>
      cases hnext
      exact h.still hpc hlocks (.refl _) rfl rfl ⟨rfl, rfl, rfl, rfl⟩ h.quiet ⟨hp.1, rfl, hp.2⟩
  | takenStore n next =>
      cases hnext
      have hd := pullAt_detached back next (.node n)
      have hn : n ∈ g.temp := by
        rcases hp.2.2.last_isCell with heq | ⟨x, hx, heq⟩
        · cases heq
        · exact Ptr.node_injective heq ▸ hx
      exact h.unmark hpc rfl (by rw [hpc]; exact ⟨rfl, rfl, hd.repairing, hd.gap⟩) hp.1.1
        hp.1.2 hp.2.1 hp.2.2 (Or.inr ((h.lru.temp n).1 hn))
  | first last =>
      cases hnext
      exact h.still hpc hlocks (.refl _) rfl rfl ⟨rfl, rfl, rfl, rfl⟩ h.quiet
        ⟨hp.1, sublist_of_tempList hp.2.2 hp.2.1⟩
  | add first last p =>
      obtain ⟨⟨a, q⟩, hq, heq⟩ := Option.map_eq_some_iff.1 hnext
      cases heq
      cases p with
      | storePrev =>
          simp only [nextAdd] at hq
          split_ifs at hq
          cases hq
          exact h.addPrev hpc
      | load =>
          cases hq
          exact h.still hpc hlocks (.refl _) rfl rfl ⟨rfl, rfl, rfl, rfl⟩ h.quiet hp
      | storeNext c =>
          simp only [nextAdd] at hq
          split_ifs at hq
          cases hq
          exact h.addNext hpc
      | cas c =>
          simp only [nextAdd] at hq
          split_ifs at hq with hcas
          · -- the head is still the one read before, so the list is spliced in
            cases hq
            exact h.splice hpc hcas.1
          · cases hq
            exact h.still hpc hlocks (.refl _) rfl rfl ⟨rfl, rfl, rfl, rfl⟩ h.quiet
              ⟨hp.1, hp.2.1, hp.2.2.1⟩
      | repair c =>
          simp only [nextAdd] at hq
          split_ifs at hq
          cases hq
          exact h.repairSplice hpc

end DeferredLru.Threads
