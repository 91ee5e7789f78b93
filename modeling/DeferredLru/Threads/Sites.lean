import DeferredLru.Threads.Machine

set_option autoImplicit false

/-! # Where the accesses are made

The request flags, the heads of the pool and of the Recent list, the count of the latter and the keys
and values are each written at one or two places of the code. `Act.site` lists them, and `next_site`
says that the list is complete: whoever knows the access knows where the thread stood. -/

namespace DeferredLru.Threads

variable {N : ℕ} {K V T : Type}

/-- Where the access is made, for the accesses made at few places. -/
def Act.site (m : Mem N K V) (pc : PC N K V) : Act N K V → Prop
  | .setPullRequest true => ∃ back, pc = .consolidate back .raisePull
  | .setPullRequest false => ∃ back, pc = .consolidate back .clearPull
  | .setPurgeRequest true => ∃ back, pc = .consolidate back .raisePurge
  | .setPurgeRequest false => ∃ back, pc = .consolidate back .clearPurge
  | .setEmptyHead e =>
      (∃ consume k v n, pc = .insert consume k v (.allocate (.cas (.node n) e)) ∧
        m.emptyHead = .node n) ∨
      ∃ back n next freed, pc = .consolidate back (.purge (.dispose n next freed (.cas m.emptyHead))) ∧
        e = .node n
  | .setKey n k => ∃ consume v, pc = .insert consume k v (.key n)
  | .setValue n v => ∃ consume k, pc = .insert consume k v (.value n)
  | .setRecentHead p =>
      (∃ producer k n r, pc = .find producer k (.mark n r (.cas m.recentHead)) ∧ p = .node n) ∨
      ∃ back, pc = .consolidate back (.pull .exchange) ∧ p = .dummy
  | .recentUp => ∃ producer k n r, pc = .find producer k (.mark n r .count)
  | .recentReset => ∃ back slice, pc = .consolidate back (.pull (.reset slice))
  | _ => True

/-- The other accesses. -/
def Act.plain : Act N K V → Prop
  | .setPullRequest _ => False
  | .setPurgeRequest _ => False
  | .setEmptyHead _ => False
  | .setKey _ _ => False
  | .setValue _ _ => False
  | .setRecentHead _ => False
  | .recentUp => False
  | .recentReset => False
  | _ => True

theorem Act.plain.site {act : Act N K V} (h : act.plain) (m : Mem N K V) (pc : PC N K V) :
    act.site m pc := by
  cases act <;> first | exact h.elim | trivial

section Functions

variable {cfg : Config N K} {s : State N K V T} {m : Mem N K V} {fails : Bool} {act : Act N K V}
  {n : Fin N} {pc' : PC N K V}

theorem nextAdd_plain {first last : Ptr N} {p : AddPC N} {p' : Option (AddPC N)}
    (h : nextAdd m fails first last p = some (act, p')) : act.plain := by
  cases p <;> simp only [nextAdd] at h <;> (try split_ifs at h) <;> cases h <;> trivial

theorem nextUnlink_plain {p : UnlinkPC N} {p' : Option (UnlinkPC N)}
    (h : nextUnlink m n p = some (act, p')) : act.plain := by
  cases p <;> simp only [nextUnlink] at h <;> (try split_ifs at h) <;> cases h <;> trivial

theorem nextLink_plain {p : LinkPC N} {p' : Option (LinkPC N)}
    (h : nextLink cfg s n p = some (act, p')) : act.plain := by
  cases p <;> simp only [nextLink] at h <;> (try split_ifs at h) <;> cases h <;> trivial

theorem nextRemove_plain {p : RemovePC N} {p' : RemovePC N ⊕ Bool}
    (h : nextRemove cfg s n p = some (act, p')) : act.plain := by
  cases p <;> simp only [nextRemove] at h <;> (try split_ifs at h) <;> cases h <;> trivial

theorem nextPurge_site {back : Back K V} {p : PurgePC N} {p' : Option (PurgePC N)}
    (h : nextPurge cfg s fails p = some (act, p')) :
    act.site s.mem (.consolidate back (.purge p)) := by
  cases p with
  | prev node freed =>
      cases node <;> cases h
      trivial
  | bucket n next freed p =>
      obtain ⟨⟨a, q⟩, hq, heq⟩ := Option.map_eq_some_iff.1 h
      cases heq
      exact (nextRemove_plain hq).site _ _
  | unlink n next freed p =>
      obtain ⟨⟨a, q⟩, hq, heq⟩ := Option.map_eq_some_iff.1 h
      cases heq
      exact (nextUnlink_plain hq).site _ _
  | dispose n next freed p =>
      obtain ⟨⟨a, q⟩, hq, heq⟩ := Option.map_eq_some_iff.1 h
      cases heq
      cases p with
      | load =>
          cases hq
          trivial
      | store head =>
          cases hq
          trivial
      | cas head =>
          simp only [nextDispose] at hq
          split_ifs at hq with hcas
          · cases hq
            rw [← hcas.1]
            exact Or.inr ⟨back, n, next, freed, rfl, rfl⟩
          · cases hq
            trivial
  | _ =>
      cases h
      trivial

theorem nextPull_site {back : Back K V} {p : PullPC N} {p' : Option (PullPC N)}
    (h : nextPull m fails p = some (act, p')) : act.site m (.consolidate back (.pull p)) := by
  cases p with
  | exchange =>
      cases h
      exact Or.inr ⟨back, rfl, rfl⟩
  | reset slice =>
      cases h
      exact ⟨back, slice, rfl⟩
  | prev current last =>
      cases current <;> cases h
      trivial
  | unlink n last p =>
      obtain ⟨⟨a, q⟩, hq, heq⟩ := Option.map_eq_some_iff.1 h
      cases heq
      exact (nextUnlink_plain hq).site _ _
  | appendNext n last =>
      simp only [nextPull] at h
      split_ifs at h
      cases h
      trivial
  | add first last p =>
      obtain ⟨⟨a, q⟩, hq, heq⟩ := Option.map_eq_some_iff.1 h
      cases heq
      exact (nextAdd_plain hq).site _ _
  | _ =>
      cases h
      trivial

theorem nextConsolidate_site {back : Back K V} {p : ConsolidatePC N}
    (h : nextConsolidate cfg s fails back p = some (act, pc')) :
    act.site s.mem (.consolidate back p) := by
  cases p with
  | purge p =>
      obtain ⟨⟨a, q⟩, hq, heq⟩ := Option.map_eq_some_iff.1 h
      cases heq
      exact nextPurge_site hq
  | pull p =>
      obtain ⟨⟨a, q⟩, hq, heq⟩ := Option.map_eq_some_iff.1 h
      cases heq
      exact nextPull_site hq
  | tryLock =>
      simp only [nextConsolidate] at h
      split_ifs at h <;> cases h <;> trivial
  | testPurge =>
      cases h
      trivial
  | testPull =>
      cases h
      trivial
  | unlock =>
      cases h
      trivial
  | _ =>
      cases h
      exact ⟨back, rfl⟩

theorem nextInsert_site {consume : Bool} {k : K} {v : V} {p : InsertPC N}
    (h : nextInsert cfg s fails consume k v p = some (act, pc')) :
    act.site s.mem (.insert consume k v p) := by
  cases p with
  | allocate p =>
      cases p with
      | cas node link =>
          simp only [nextInsert] at h
          split_ifs at h with hcas
          · cases node with
            | node n =>
                cases h
                exact Or.inl ⟨consume, k, v, n, rfl, hcas.1⟩
            | _ => cases h
          · cases h
            trivial
      | load =>
          cases h
          trivial
      | loadNext node =>
          simp only [nextInsert] at h
          split_ifs at h
          cases h
          trivial
  | key n =>
      cases h
      exact ⟨consume, v, rfl⟩
  | value n =>
      cases h
      exact ⟨consume, k, rfl⟩
  | bucket n p =>
      obtain ⟨⟨a, q⟩, hq, heq⟩ := Option.map_eq_some_iff.1 h
      cases heq
      exact (nextLink_plain hq).site _ _
  | add n p =>
      obtain ⟨⟨a, q⟩, hq, heq⟩ := Option.map_eq_some_iff.1 h
      cases heq
      exact (nextAdd_plain hq).site _ _
  | _ =>
      cases h
      trivial

variable [DecidableEq K]

theorem nextFind_site {producer : Option V} {k : K} {p : FindPC N V}
    (h : nextFind cfg s fails producer k p = some (act, pc')) :
    act.site s.mem (.find producer k p) := by
  cases p with
  | lock =>
      simp only [nextFind] at h
      split_ifs at h
      cases h
      trivial
  | mark n r p =>
      obtain ⟨⟨a, q⟩, hq, heq⟩ := Option.map_eq_some_iff.1 h
      cases heq
      cases p with
      | cas head =>
          simp only [nextMark] at hq
          split_ifs at hq with hcas
          · cases hq
            rw [← hcas.1]
            exact Or.inl ⟨producer, k, n, r, rfl, rfl⟩
          · cases hq
            trivial
      | count =>
          cases hq
          exact ⟨producer, k, n, r, rfl⟩
      | _ =>
          cases hq
          trivial
  | _ =>
      cases h
      trivial

/-- **The access tells where it was made.** -/
theorem next_site {pc : PC N K V} {move : Move K V}
    (h : next cfg s pc move = some (act, pc')) : act.site s.mem pc := by
  cases next_transition h with
  | call hpc c => trivial
  | find h => exact nextFind_site h
  | insert h => exact nextInsert_site h
  | consolidate h => exact nextConsolidate_site h

end Functions

end DeferredLru.Threads
