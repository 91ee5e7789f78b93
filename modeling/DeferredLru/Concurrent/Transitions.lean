import DeferredLru.Concurrent.Machine

set_option autoImplicit false

/-! # The accesses of `find` and `insert`

`find` and `insert` run one called function after the other. Here is where each access leads to, one
constructor for every way it can go on; what a function called makes of the access is left to it. -/

namespace DeferredLru.ConcurrentLru

variable {N : ℕ} {K V T : Type} {cfg : Config N K} {s : State N K V T} {act : Act N K V} {k : K}
  {v : V}

/-- An access of `find`. -/
inductive FindStep [DecidableEq K] (cfg : Config N K) (s : State N K V T) (producer : Option V)
    (k : K) : FindPC N V → Act N K V → PC N K V → Prop
  | search {q q' : HtFindPC N} {act : Act N K V} (h : nextHtFind cfg s.mem k q = (act, .inl q')) :
      FindStep cfg s producer k (.search q) act (.find producer k (.search q'))
  | found {q : HtFindPC N} {n : Fin N} {act : Act N K V}
      (h : nextHtFind cfg s.mem k q = (act, .inr (some n))) :
      FindStep cfg s producer k (.search q) act (.find producer k (.lock n))
  | missing {q : HtFindPC N} {act : Act N K V} (h : nextHtFind cfg s.mem k q = (act, .inr none)) :
      FindStep cfg s producer k (.search q) act (afterFind producer k none)
  | lock (n : Fin N) :
      FindStep cfg s producer k (.lock n) (.lock (.node n)) (.find producer k (.test n))
  | valid (n : Fin N) (hflag : s.mem.lruFlag n = true) (hkey : s.mem.key n = k) :
      FindStep cfg s producer k (.test n) .read (.find producer k (.value n))
  | invalid (n : Fin N) :
      FindStep cfg s producer k (.test n) .read (.find producer k (.unlock n none))
  | value (n : Fin N) :
      FindStep cfg s producer k (.value n) .read
        (.find producer k (.remove n (s.mem.value n) .load))
  | remove {n : Fin N} {r : V} {q q' : RemovePC N} {act : Act N K V}
      (h : nextRemove s n q = (act, .inl q')) :
      FindStep cfg s producer k (.remove n r q) act (.find producer k (.remove n r q'))
  | removed {n : Fin N} {r : V} {q : RemovePC N} {act : Act N K V}
      (h : nextRemove s n q = (act, .inr true)) :
      FindStep cfg s producer k (.remove n r q) act (.find producer k (.insertLast n r .load))
  | gone {n : Fin N} {r : V} {q : RemovePC N} {act : Act N K V}
      (h : nextRemove s n q = (act, .inr false)) :
      FindStep cfg s producer k (.remove n r q) act (.find producer k (.unlock n (some r)))
  | insertLast {n : Fin N} {r : V} {q q' : InsertBeforePC N} {act : Act N K V}
      (h : nextInsertBefore s.mem .lruTail n q = (act, some q')) :
      FindStep cfg s producer k (.insertLast n r q) act (.find producer k (.insertLast n r q'))
  | inserted {n : Fin N} {r : V} {q : InsertBeforePC N} {act : Act N K V}
      (h : nextInsertBefore s.mem .lruTail n q = (act, none)) :
      FindStep cfg s producer k (.insertLast n r q) act (.find producer k (.unlock n (some r)))
  | unlock (n : Fin N) (r : Option V) :
      FindStep cfg s producer k (.unlock n r) (.unlock (.node n)) (afterFind producer k r)

theorem nextFind_step [DecidableEq K] {producer : Option V} {pc : FindPC N V} {p : PC N K V}
    (hnext : nextFind cfg s producer k pc = (act, p)) : FindStep cfg s producer k pc act p := by
  cases pc with
  | search q =>
      rcases hr : nextHtFind cfg s.mem k q with ⟨act', r⟩
      simp only [nextFind, hr] at hnext
      obtain ⟨rfl, rfl⟩ := Prod.mk.inj hnext
      match r, hr with
      | .inl q', hr => exact .search hr
      | .inr (some n), hr => exact .found hr
      | .inr none, hr => exact .missing hr
  | lock n =>
      cases hnext
      exact .lock n
  | test n =>
      cases hnext
      split
      case isTrue hvalid => exact .valid n hvalid.1 hvalid.2
      case isFalse => exact .invalid n
  | value n =>
      cases hnext
      exact .value n
  | remove n r q =>
      rcases hr : nextRemove s n q with ⟨act', r'⟩
      simp only [nextFind, hr] at hnext
      obtain ⟨rfl, rfl⟩ := Prod.mk.inj hnext
      match r', hr with
      | .inl q', hr => exact .remove hr
      | .inr true, hr => exact .removed hr
      | .inr false, hr => exact .gone hr
  | insertLast n r q =>
      rcases hr : nextInsertBefore s.mem .lruTail n q with ⟨act', r'⟩
      simp only [nextFind, hr] at hnext
      obtain ⟨rfl, rfl⟩ := Prod.mk.inj hnext
      cases r' with
      | some q' => exact .insertLast hr
      | none => exact .inserted hr
  | unlock n r =>
      cases hnext
      exact .unlock n r

/-- An access of `insert`. -/
inductive InsertStep (cfg : Config N K) (s : State N K V T) (k : K) (v : V) :
    InsertPC N → Act N K V → PC N K V → Prop
  | getNodeFromPool {q q' : EvictPC N} {act : Act N K V}
      (h : nextEvict s.mem .poolHead .poolTail q = some (act, .inl q')) :
      InsertStep cfg s k v (.getNodeFromPool q) act (.insert k v (.getNodeFromPool q'))
  | pooled {q : EvictPC N} {n : Fin N} {act : Act N K V}
      (h : nextEvict s.mem .poolHead .poolTail q = some (act, .inr (some n))) :
      InsertStep cfg s k v (.getNodeFromPool q) act (.insert k v (.key n))
  | poolEmpty {q : EvictPC N} {act : Act N K V}
      (h : nextEvict s.mem .poolHead .poolTail q = some (act, .inr none)) :
      InsertStep cfg s k v (.getNodeFromPool q) act (.insert k v (.lruEvictHead .lockPrev))
  | lruEvictHead {q q' : EvictPC N} {act : Act N K V}
      (h : nextEvict s.mem .lruHead .lruTail q = some (act, .inl q')) :
      InsertStep cfg s k v (.lruEvictHead q) act (.insert k v (.lruEvictHead q'))
  | evicted {q : EvictPC N} {n : Fin N} {act : Act N K V}
      (h : nextEvict s.mem .lruHead .lruTail q = some (act, .inr (some n))) :
      InsertStep cfg s k v (.lruEvictHead q) act (.insert k v (.unsetFlag n))
  | lruEmpty {q : EvictPC N} {act : Act N K V}
      (h : nextEvict s.mem .lruHead .lruTail q = some (act, .inr none)) :
      InsertStep cfg s k v (.lruEvictHead q) act (.insert k v .start)
  | unsetFlag (n : Fin N) :
      InsertStep cfg s k v (.unsetFlag n) (.lruSetFlag n false) (.insert k v (.await n))
  | published (n : Fin N) (hflag : s.mem.htFlag n = true) :
      InsertStep cfg s k v (.await n) .read (.insert k v (.htRemove n .hash))
  | await (n : Fin N) (hflag : s.mem.htFlag n = false) :
      InsertStep cfg s k v (.await n) .read (.insert k v (.await n))
  | htRemove {n : Fin N} {q q' : HtRemovePC N} {act : Act N K V}
      (h : nextHtRemove cfg s n q = (act, .inl q')) :
      InsertStep cfg s k v (.htRemove n q) act (.insert k v (.htRemove n q'))
  | unlinked {n : Fin N} {q : HtRemovePC N} {act : Act N K V}
      (h : nextHtRemove cfg s n q = (act, .inr true)) :
      InsertStep cfg s k v (.htRemove n q) act (.insert k v (.onDelete n))
  | linked {n : Fin N} {q : HtRemovePC N} {act : Act N K V}
      (h : nextHtRemove cfg s n q = (act, .inr false)) :
      InsertStep cfg s k v (.htRemove n q) act (.insert k v (.htRemove n .hash))
  | onDelete (n : Fin N) : InsertStep cfg s k v (.onDelete n) .read (.insert k v (.loadDown n))
  | loadDown (n : Fin N) :
      InsertStep cfg s k v (.loadDown n) .read
        (.insert k v (.storeDown n s.mem.currentElementCount))
  | storeDown (n : Fin N) (c : ℕ) :
      InsertStep cfg s k v (.storeDown n c) (.setCount ((c + (2 ^ 64 - 1)) % 2 ^ 64))
        (.insert k v (.key n))
  | key (n : Fin N) : InsertStep cfg s k v (.key n) (.setKey n k) (.insert k v (.value n))
  | value (n : Fin N) : InsertStep cfg s k v (.value n) (.setValue n v) (.insert k v (.loadUp n))
  | loadUp (n : Fin N) :
      InsertStep cfg s k v (.loadUp n) .read (.insert k v (.storeUp n s.mem.currentElementCount))
  | storeUp (n : Fin N) (c : ℕ) :
      InsertStep cfg s k v (.storeUp n c) (.setCount ((c + 1) % 2 ^ 64)) (.insert k v (.setFlag n))
  | setFlag (n : Fin N) :
      InsertStep cfg s k v (.setFlag n) (.lruSetFlag n true) (.insert k v (.insertLast n .load))
  | insertLast {n : Fin N} {q q' : InsertBeforePC N} {act : Act N K V}
      (h : nextInsertBefore s.mem .lruTail n q = (act, some q')) :
      InsertStep cfg s k v (.insertLast n q) act (.insert k v (.insertLast n q'))
  | inserted {n : Fin N} {q : InsertBeforePC N} {act : Act N K V}
      (h : nextInsertBefore s.mem .lruTail n q = (act, none)) :
      InsertStep cfg s k v (.insertLast n q) act (.insert k v (.htInsert n .hash))
  | htInsert {n : Fin N} {q q' : HtInsertPC} {act : Act N K V}
      (h : nextHtInsert cfg s.mem n q = (act, some q')) :
      InsertStep cfg s k v (.htInsert n q) act (.insert k v (.htInsert n q'))
  | hashed {n : Fin N} {q : HtInsertPC} {act : Act N K V}
      (h : nextHtInsert cfg s.mem n q = (act, none)) :
      InsertStep cfg s k v (.htInsert n q) act (.insert k v (.unlock n))
  | unlock (n : Fin N) : InsertStep cfg s k v (.unlock n) (.unlock (.node n)) .idle

theorem nextInsert_step {pc : InsertPC N} {p : PC N K V}
    (hnext : nextInsert cfg s k v pc = some (act, p)) : InsertStep cfg s k v pc act p := by
  cases pc with
  | getNodeFromPool q =>
      obtain ⟨⟨act', r⟩, hr, heq⟩ := Option.map_eq_some_iff.1 hnext
      cases heq
      match r, hr with
      | .inl q', hr => exact .getNodeFromPool hr
      | .inr (some n), hr => exact .pooled hr
      | .inr none, hr => exact .poolEmpty hr
  | lruEvictHead q =>
      obtain ⟨⟨act', r⟩, hr, heq⟩ := Option.map_eq_some_iff.1 hnext
      cases heq
      match r, hr with
      | .inl q', hr => exact .lruEvictHead hr
      | .inr (some n), hr => exact .evicted hr
      | .inr none, hr => exact .lruEmpty hr
  | await n =>
      cases hnext
      split
      case isTrue hflag => exact .published n hflag
      case isFalse hflag => exact .await n (Bool.eq_false_iff.2 hflag)
  | htRemove n q =>
      rcases hr : nextHtRemove cfg s n q with ⟨act', r⟩
      simp only [nextInsert, hr] at hnext
      cases hnext
      match r, hr with
      | .inl q', hr => exact .htRemove hr
      | .inr true, hr => exact .unlinked hr
      | .inr false, hr => exact .linked hr
  | insertLast n q =>
      rcases hr : nextInsertBefore s.mem .lruTail n q with ⟨act', r⟩
      simp only [nextInsert, hr] at hnext
      cases hnext
      cases r with
      | some q' => exact .insertLast hr
      | none => exact .inserted hr
  | htInsert n q =>
      rcases hr : nextHtInsert cfg s.mem n q with ⟨act', r⟩
      simp only [nextInsert, hr] at hnext
      cases hnext
      cases r with
      | some q' => exact .htInsert hr
      | none => exact .hashed hr
  | _ =>
      cases hnext
      constructor

/-- An access of a thread, or the start of a call. -/
inductive Transition [DecidableEq K] (cfg : Config N K) (s : State N K V T) :
    PC N K V → Move K V → Act N K V → PC N K V → Prop
  | call (c : Call K V) : Transition cfg s .idle (.call c) .read c.pc
  | find {producer : Option V} {k : K} {pc : FindPC N V} {act : Act N K V} {p : PC N K V}
      (h : FindStep cfg s producer k pc act p) : Transition cfg s (.find producer k pc) .go act p
  | insert {k : K} {v : V} {pc : InsertPC N} {act : Act N K V} {p : PC N K V}
      (h : InsertStep cfg s k v pc act p) : Transition cfg s (.insert k v pc) .go act p

theorem next_transition [DecidableEq K] {pc p : PC N K V} {move : Move K V}
    (hnext : next cfg s pc move = some (act, p)) : Transition cfg s pc move act p := by
  cases pc with
  | idle =>
      cases move with
      | go => cases hnext
      | call c =>
          cases hnext
          exact .call c
  | find producer k q =>
      cases move with
      | call c => cases hnext
      | go => exact .find (nextFind_step (Option.some.inj hnext))
  | insert k v q =>
      cases move with
      | call c => cases hnext
      | go => exact .insert (nextInsert_step hnext)

theorem step_transition [DecidableEq K] [DecidableEq T] {s' : State N K V T} {t : T}
    {move : Move K V} (hstep : step cfg s t move = some (act, s')) :
    ∃ p, Transition cfg s (s.pc t) move act p ∧ act.enabled s = true ∧ s' = s.apply t act p := by
  obtain ⟨⟨act', p⟩, hnext, heq⟩ := Option.bind_eq_some_iff.1 hstep
  dsimp only at heq
  split at heq
  case isFalse => cases heq
  case isTrue hact =>
    cases heq
    exact ⟨p, next_transition hnext, hact, rfl⟩

end DeferredLru.ConcurrentLru
