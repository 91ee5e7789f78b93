import Mathlib.Data.List.Find
import Mathlib.Data.List.Induction
import Mathlib.Data.List.Nodup
import Mathlib.Logic.Function.Basic

set_option autoImplicit false

/-! # A table of entries under handles

The abstract object behind a hash table that may hold several entries of one key: an insertion puts
an entry under a fresh handle in front, an eviction takes out the entry of a handle, and a lookup
returns the value of the newest entry with its key. A history of operations, each with the result it
returned, is legal if `Replays` leads it to a table; a single one if `Moves` does.

An implementation splits the table by a hash of the key. `Parts` says how the parts hold it, by
handles only: each part lists the handles of its entries in order, and key and value can be read off a
handle. Then a lookup is a search of one part (`Parts.lookup`), and the other operations are an edit
of one part.

A lookup may also take its time: find the handle at one moment, and read the entry at a later one.
Then `Answer` is what it may return. -/

namespace Table

/-- A pair with the handle it is stored under. -/
structure Entry (H K V : Type*) where
  handle : H
  key : K
  value : V
  deriving DecidableEq

/-- The key and the value. -/
def Entry.pair {H K V : Type*} (e : Entry H K V) : K × V := (e.key, e.value)

/-- An operation with its result. -/
inductive Op (H K V : Type*) where
  | insert (h : H) (k : K) (v : V)
  | evict (h : H)
  | find (k : K) (r : Option V)
  deriving DecidableEq

variable {H K V : Type*}

/-! ## Histories -/

/-- The value of the newest entry with the key. -/
def lookup [DecidableEq K] (k : K) (l : List (Entry H K V)) : Option V :=
  (l.find? fun e => e.key = k).map Entry.value

/-- The operation is possible on the table `l`, with the right result, and leads to `l'`. -/
inductive Moves [DecidableEq H] [DecidableEq K] :
    List (Entry H K V) → Op H K V → List (Entry H K V) → Prop
  | insert {l : List (Entry H K V)} {h : H} (k : K) (v : V) (hfresh : ∀ e ∈ l, e.handle ≠ h) :
      Moves l (.insert h k v) (⟨h, k, v⟩ :: l)
  | evict {l : List (Entry H K V)} {e : Entry H K V} (he : e ∈ l) :
      Moves l (.evict e.handle) (l.filter fun x => x.handle ≠ e.handle)
  | find {l : List (Entry H K V)} (k : K) : Moves l (.find k (lookup k l)) l

/-- A step that makes the operation, or none. -/
def Follows [DecidableEq H] [DecidableEq K] (l : List (Entry H K V)) :
    Option (Op H K V) → List (Entry H K V) → Prop
  | some op, l' => Moves l op l'
  | none, l' => l' = l

/-- The history is legal and leads to the table. -/
inductive Replays [DecidableEq H] [DecidableEq K] : List (Op H K V) → List (Entry H K V) → Prop
  | empty : Replays [] []
  | step {ops : List (Op H K V)} {l l' : List (Entry H K V)} {op : Op H K V} :
      Replays ops l → Moves l op l' → Replays (ops ++ [op]) l'

theorem Replays.follow [DecidableEq H] [DecidableEq K] {ops : List (Op H K V)}
    {l l' : List (Entry H K V)} {op : Option (Op H K V)} (h : Replays ops l) (hop : Follows l op l') :
    Replays (ops ++ op.toList) l' := by
  cases op with
  | none =>
      obtain rfl := hop
      rw [Option.toList_none, List.append_nil]
      exact h
  | some op => exact h.step hop

/-- Handles are not used twice at a time. -/
theorem Replays.nodup [DecidableEq H] [DecidableEq K] {ops : List (Op H K V)}
    {l : List (Entry H K V)} (h : Replays ops l) : (l.map Entry.handle).Nodup := by
  induction h with
  | empty => exact List.nodup_nil
  | step _ hmove ih =>
      cases hmove with
      | insert k v hfresh =>
          refine List.nodup_cons.2 ⟨fun hmem => ?_, ih⟩
          obtain ⟨e, he, heq⟩ := List.mem_map.1 hmem
          exact hfresh e he heq
      | evict he => exact ih.sublist (List.filter_sublist.map _)
      | find k => exact ih

/-- An eviction takes one entry out. -/
theorem perm_evict [DecidableEq H] {l : List (Entry H K V)} {e : Entry H K V}
    (hdup : (l.map Entry.handle).Nodup) (he : e ∈ l) :
    (e :: l.filter fun x => x.handle ≠ e.handle).Perm l := by
  obtain ⟨l₁, l₂, rfl⟩ := List.append_of_mem he
  rw [List.map_append, List.map_cons, List.nodup_middle, List.nodup_cons] at hdup
  have hne : ∀ x ∈ l₁ ++ l₂, x.handle ≠ e.handle := by
    intro x hx heq
    rw [← List.map_append] at hdup
    exact hdup.1 (heq ▸ List.mem_map_of_mem hx)
  rw [List.filter_append, List.filter_cons_of_neg (by simp), ← List.filter_append,
    List.filter_eq_self.2 (fun x hx => decide_eq_true (hne x hx))]
  exact List.perm_middle.symm

/-- The pairs that the operations insert. -/
def insertedPairs (ops : List (Op H K V)) : List (K × V) :=
  ops.filterMap fun op => match op with
    | .insert _ k v => some (k, v)
    | _ => none

theorem insertedPairs_insert (ops : List (Op H K V)) (h : H) (k : K) (v : V) :
    insertedPairs (ops ++ [.insert h k v]) = insertedPairs ops ++ [(k, v)] := by
  simp [insertedPairs]

@[simp] theorem insertedPairs_evict (ops : List (Op H K V)) (h : H) :
    insertedPairs (ops ++ [.evict h]) = insertedPairs ops := by
  simp [insertedPairs]

@[simp] theorem insertedPairs_find (ops : List (Op H K V)) (k : K) (r : Option V) :
    insertedPairs (ops ++ [.find k r]) = insertedPairs ops := by
  simp [insertedPairs]

/-! ## Parts -/

/-- The parts list the handles of the entries, whose keys and values can be read off them. -/
structure Parts (key : H → K) (value : H → V) (hash : K → ℕ) (part : ℕ → List H)
    (l : List (Entry H K V)) : Prop where
  handles : ∀ b, part b = (l.filter fun e => hash e.key = b).map Entry.handle
  key : ∀ e ∈ l, key e.handle = e.key
  value : ∀ e ∈ l, value e.handle = e.value

/-- The search of a list of handles. -/
def search [DecidableEq K] (key : H → K) (value : H → V) (k : K) (l : List H) : Option V :=
  (l.find? fun h => key h = k).map value

variable {key key' : H → K} {value value' : H → V} {hash : K → ℕ} {part : ℕ → List H}
  {l : List (Entry H K V)} {h x : H} {k : K}

/-- A handle is in the part of its key. -/
theorem Parts.mem_iff (hp : Parts key value hash part l) (b : ℕ) :
    h ∈ part b ↔ ∃ e ∈ l, e.handle = h ∧ hash (key h) = b := by
  rw [hp.handles b, List.mem_map]
  constructor
  · rintro ⟨e, he, rfl⟩
    obtain ⟨hl, hb⟩ := List.mem_filter.1 he
    exact ⟨e, hl, rfl, by rw [hp.key e hl]; exact of_decide_eq_true hb⟩
  · rintro ⟨e, hl, rfl, hb⟩
    rw [hp.key e hl] at hb
    exact ⟨e, List.mem_filter.2 ⟨hl, decide_eq_true hb⟩, rfl⟩

theorem Parts.empty : Parts key value hash (fun _ => []) ([] : List (Entry H K V)) :=
  ⟨fun _ => rfl, fun _ he => absurd he (List.not_mem_nil), fun _ he => absurd he (List.not_mem_nil)⟩

/-- What is read off the handles in the parts has not changed. -/
theorem Parts.congr (hp : Parts key value hash part l)
    (hsame : ∀ b, ∀ x ∈ part b, key' x = key x ∧ value' x = value x) :
    Parts key' value' hash part l := by
  have hmem : ∀ e ∈ l, e.handle ∈ part (hash e.key) := fun e he => by
    rw [hp.handles]
    exact List.mem_map_of_mem (List.mem_filter.2 ⟨he, decide_eq_true rfl⟩)
  exact ⟨hp.handles, fun e he => ((hsame _ _ (hmem e he)).1).trans (hp.key e he),
    fun e he => ((hsame _ _ (hmem e he)).2).trans (hp.value e he)⟩

/-- A handle in no part is new to the table. -/
theorem Parts.fresh (hp : Parts key value hash part l) (hfresh : ∀ b, h ∉ part b) :
    ∀ e ∈ l, e.handle ≠ h := by
  rintro e he rfl
  exact hfresh _ ((hp.mem_iff _).2 ⟨e, he, rfl, rfl⟩)

/-- **Inserting** puts the handle in front of its part. -/
theorem Parts.insert (hp : Parts key value hash part l) :
    Parts key value hash (Function.update part (hash (key h)) (h :: part (hash (key h))))
      (⟨h, key h, value h⟩ :: l) := by
  refine ⟨fun b => ?_, fun e he => ?_, fun e he => ?_⟩
  · by_cases hb : b = hash (key h)
    · rw [hb, Function.update_self, List.filter_cons_of_pos (by simp), List.map_cons, ← hp.handles]
    · rw [Function.update_of_ne hb, List.filter_cons_of_neg (by simp [Ne.symm hb]), ← hp.handles]
  · rcases List.mem_cons.1 he with rfl | he
    · rfl
    · exact hp.key e he
  · rcases List.mem_cons.1 he with rfl | he
    · rfl
    · exact hp.value e he

/-- **Evicting** erases the handle from its part. -/
theorem Parts.evict [DecidableEq H] (hp : Parts key value hash part l) (hdup : ∀ b, (part b).Nodup) :
    Parts key value hash
      (Function.update part (hash (key h)) ((part (hash (key h))).erase h))
      (l.filter fun e => e.handle ≠ h) := by
  refine ⟨fun b => ?_, fun x hx => hp.key x (List.mem_filter.1 hx).1,
    fun x hx => hp.value x (List.mem_filter.1 hx).1⟩
  have hpart : ((l.filter fun e => e.handle ≠ h).filter fun e => hash e.key = b).map Entry.handle =
      (part b).filter fun x => x ≠ h := by
    rw [hp.handles b, List.filter_map, List.filter_filter, List.filter_filter]
    refine congrArg _ (List.filter_congr fun x _ => ?_)
    simp only [Function.comp_apply, ne_eq, Bool.and_comm]
  rw [hpart]
  by_cases hb : b = hash (key h)
  · rw [hb, Function.update_self, (hdup _).erase_eq_filter]
    exact List.filter_congr fun x _ => by simp [bne, beq_eq_decide]
  · -- the handle is in no other part
    rw [Function.update_of_ne hb, List.filter_eq_self.2]
    intro x hx
    obtain ⟨y, -, rfl, hy⟩ := (hp.mem_iff b).1 hx
    refine decide_eq_true ?_
    rintro rfl
    exact hb hy.symm

/-- The parts hold the handles of the table, each once. -/
theorem Parts.flatten (hp : Parts key value hash part l) (hdup : (l.map Entry.handle).Nodup)
    {size : ℕ} (hsize : ∀ k, hash k < size) :
    ((List.range size).flatMap part).Perm (l.map Entry.handle) := by
  refine (List.perm_ext_iff_of_nodup ?_ hdup).2 fun h => ?_
  · refine List.nodup_flatMap.2 ⟨fun b _ => ?_, ?_⟩
    · rw [hp.handles b]
      exact hdup.sublist (List.filter_sublist.map _)
    · refine List.Nodup.pairwise_of_forall_ne List.nodup_range fun b _ c _ hne h hb hc => ?_
      obtain ⟨e, -, rfl, hb'⟩ := (hp.mem_iff b).1 hb
      obtain ⟨e', -, -, hc'⟩ := (hp.mem_iff c).1 hc
      exact hne (hb'.symm.trans hc')
  · rw [List.mem_flatMap, List.mem_map]
    constructor
    · rintro ⟨b, -, hb⟩
      obtain ⟨e, he, heq, -⟩ := (hp.mem_iff b).1 hb
      exact ⟨e, he, heq⟩
    · rintro ⟨e, he, rfl⟩
      exact ⟨_, List.mem_range.2 (hsize _), (hp.mem_iff _).2 ⟨e, he, rfl, rfl⟩⟩

/-- The pairs that the handles of the parts carry. -/
theorem Parts.pairs (hp : Parts key value hash part l) (hdup : (l.map Entry.handle).Nodup)
    {size : ℕ} (hsize : ∀ k, hash k < size) :
    (((List.range size).flatMap part).map fun h => (key h, value h)).Perm (l.map Entry.pair) := by
  have hpairs : l.map Entry.pair = (l.map Entry.handle).map fun h => (key h, value h) := by
    rw [List.map_map]
    exact List.map_congr_left fun e he => by rw [Function.comp_apply, hp.key e he, hp.value e he]; rfl
  rw [hpairs]
  exact (hp.flatten hdup hsize).map _

/-! ## Lookups -/

variable [DecidableEq K]

theorem search_congr {hs : List H} (hkey : ∀ x ∈ hs, key' x = key x)
    (hvalue : ∀ x ∈ hs, value' x = value x) : search key' value' k hs = search key value k hs := by
  unfold search
  rw [List.find?_congr fun x hx => by rw [hkey x hx]]
  cases hx : hs.find? fun x => key x = k with
  | none => rfl
  | some x => exact congrArg some (hvalue x (List.mem_of_find?_eq_some hx))

theorem search_cons_of_eq {rest : List H} (hk : key h = k) :
    search key value k (h :: rest) = some (value h) := by
  unfold search
  rw [List.find?_cons_of_pos (by simpa using hk)]
  rfl

/-- **A lookup searches one part.** -/
theorem Parts.find (hp : Parts key value hash part l) (k : K) :
    (l.find? fun e => e.key = k).map Entry.handle = (part (hash k)).find? fun h => key h = k := by
  rw [hp.handles (hash k)]
  have hkey := hp.key
  clear hp
  induction l with
  | nil => rfl
  | cons e l ih =>
      have he := hkey e (List.mem_cons_self ..)
      have ih' := ih fun x hx => hkey x (List.mem_cons_of_mem _ hx)
      by_cases hk : e.key = k
      · -- the entry is in the part that is searched
        rw [List.find?_cons_of_pos (by simpa using hk),
          List.filter_cons_of_pos (by simp [hk]), List.map_cons,
          List.find?_cons_of_pos (by simp [he, hk])]
        rfl
      · rw [List.find?_cons_of_neg (by simpa using hk)]
        by_cases hb : hash e.key = hash k
        · rw [List.filter_cons_of_pos (by simp [hb]), List.map_cons,
            List.find?_cons_of_neg (by simp [he, hk])]
          exact ih'
        · rw [List.filter_cons_of_neg (by simp [hb])]
          exact ih'

theorem Parts.lookup (hp : Parts key value hash part l) (k : K) :
    Table.lookup k l = search key value k (part (hash k)) := by
  unfold Table.lookup search
  rw [← hp.find k, Option.map_map]
  cases he : l.find? fun e => e.key = k with
  | none => rfl
  | some e => exact congrArg some (hp.value e (List.mem_of_find?_eq_some he)).symm

/-- A search has passed entries with other keys and stands before `rest`. -/
def Passed (key : H → K) (k : K) (whole rest : List H) : Prop :=
  ∃ seen, whole = seen ++ rest ∧ ∀ x ∈ seen, key x ≠ k

section Passed

omit [DecidableEq K]

variable {whole rest : List H}

theorem Passed.start : Passed key k whole whole := ⟨[], rfl, by simp⟩

theorem Passed.congr (h : Passed key k whole rest) (hkey : ∀ x ∈ whole, key' x = key x) :
    Passed key' k whole rest := by
  obtain ⟨seen, rfl, hseen⟩ := h
  refine ⟨seen, rfl, fun x hx => ?_⟩
  rw [hkey x (List.mem_append_left _ hx)]
  exact hseen x hx

theorem Passed.mem (h : Passed key k whole (x :: rest)) : x ∈ whole := by
  obtain ⟨seen, rfl, -⟩ := h
  simp

theorem Passed.step (h : Passed key k whole (x :: rest)) (hx : key x ≠ k) :
    Passed key k whole rest := by
  obtain ⟨seen, rfl, hseen⟩ := h
  refine ⟨seen ++ [x], by simp, fun y hy => ?_⟩
  rcases List.mem_append.1 hy with hy | hy
  · exact hseen y hy
  · rw [List.mem_singleton.1 hy]
    exact hx

end Passed

/-- What is left to search decides. -/
theorem Passed.find? {whole rest : List H} (h : Passed key k whole rest) :
    (whole.find? fun h => key h = k) = rest.find? fun h => key h = k := by
  obtain ⟨seen, rfl, hseen⟩ := h
  have hnone : (seen.find? fun h => key h = k) = none := by
    rw [List.find?_eq_none]
    intro x hx
    simpa using hseen x hx
  rw [List.find?_append, hnone, Option.none_or]

theorem Passed.search {whole rest : List H} (h : Passed key k whole rest) :
    Table.search key value k whole = Table.search key value k rest :=
  congrArg (Option.map value) h.find?

/-! ## Lookups that take their time -/

section Answer

variable [DecidableEq H] {past ops : List (Op H K V)} {l' : List (Entry H K V)} {e e₁ : Entry H K V}
  {v : V} {op : Op H K V}

theorem Moves.unique {l₁ l₂ : List (Entry H K V)} (h₁ : Moves l op l₁) (h₂ : Moves l op l₂) :
    l₁ = l₂ := by
  cases h₁ with
  | insert k v hfresh =>
      cases h₂
      rfl
  | evict he =>
      generalize hop : Op.evict _ = op at h₂
      cases h₂ with
      | evict he' =>
          obtain heq := Op.evict.inj hop
          rw [heq]
      | _ => cases hop
  | find k =>
      generalize hop : Op.find k _ = op at h₂
      cases h₂ with
      | find k => rfl
      | _ => cases hop

theorem Replays.concat (h : Replays (ops ++ [op]) l') : ∃ l, Replays ops l ∧ Moves l op l' := by
  generalize hops : ops ++ [op] = ops' at h
  cases h with
  | empty => simp at hops
  | step h hmove =>
      obtain ⟨rfl, hop⟩ := List.append_inj' hops rfl
      obtain rfl := List.singleton_inj.1 hop
      exact ⟨_, h, hmove⟩

theorem Replays.unique {l₁ l₂ : List (Entry H K V)} (h₁ : Replays ops l₁) (h₂ : Replays ops l₂) :
    l₁ = l₂ := by
  induction h₁ generalizing l₂ with
  | empty =>
      generalize hops : ([] : List (Op H K V)) = ops at h₂
      cases h₂ with
      | empty => rfl
      | step h hmove => simp at hops
  | step h hmove ih =>
      obtain ⟨l, hl, hmove'⟩ := h₂.concat
      obtain rfl := ih hl
      exact hmove.unique hmove'

/-- What a lookup may return that is made while the operations `ops` are made, after those of `past`:
    the value of the newest entry at some moment, or nothing if there is no entry with the key at
    some moment, or if one is evicted while another one with the same key stays. -/
inductive Answer (past ops : List (Op H K V)) (k : K) : Option V → Prop
  | seen {ops₁ ops₂ : List (Op H K V)} {l : List (Entry H K V)} : ops = ops₁ ++ ops₂ →
      Replays (past ++ ops₁) l → Answer past ops k (Table.lookup k l)
  | hidden {ops₁ ops₂ : List (Op H K V)} {l : List (Entry H K V)} {e e' : Entry H K V} :
      ops = ops₁ ++ .evict e.handle :: ops₂ → Replays (past ++ ops₁) l → e ∈ l → e.key = k →
      e' ∈ l → e'.handle ≠ e.handle → e'.key = k → Answer past ops k none

theorem Answer.mono {r : Option V} (h : Answer past ops k r) (more : List (Op H K V)) :
    Answer past (ops ++ more) k r := by
  cases h with
  | seen hops hl => exact .seen (by rw [hops, List.append_assoc]) hl
  | hidden hops hl he hk he' hne hk' =>
      exact .hidden (by rw [hops, List.append_assoc, List.cons_append]) hl he hk he' hne hk'

/-- Two entries with one handle are the same. -/
theorem Replays.entry_unique (h : Replays ops l) (he : e ∈ l) (he₁ : e₁ ∈ l)
    (hsame : e.handle = e₁.handle) : e = e₁ :=
  List.inj_on_of_nodup_map h.nodup he he₁ hsame

/-- **A late read.** The handle of the newest entry was found, and later it carries `e`: then `e` was
    the newest entry at some moment in between. -/
theorem Answer.late {ops₁ ops₂ : List (Op H K V)} {l₁ : List (Entry H K V)}
    (h₁ : Replays (past ++ ops₁) l₁) (hfirst : (l₁.find? fun x => x.key = k) = some e₁)
    (h : Replays (past ++ (ops₁ ++ ops₂)) l) (he : e ∈ l) (hsame : e.handle = e₁.handle)
    (hk : e.key = k) : Answer past (ops₁ ++ ops₂) k (some e.value) := by
  induction ops₂ using List.reverseRecOn generalizing l with
  | nil =>
      rw [List.append_nil] at h ⊢
      obtain rfl := h₁.unique h
      obtain rfl := h₁.entry_unique he (List.mem_of_find?_eq_some hfirst) hsame
      have hlookup : Table.lookup k l₁ = some e.value := by rw [Table.lookup, hfirst]; rfl
      rw [← hlookup]
      exact .seen (List.append_nil _).symm h₁
  | append_singleton ops₂ op ih =>
      have hall := h
      rw [← List.append_assoc, ← List.append_assoc] at h
      obtain ⟨l', hl', hmove⟩ := h.concat
      rw [List.append_assoc] at hl'
      have hearlier : e ∈ l' → Answer past (ops₁ ++ (ops₂ ++ [op])) k (some e.value) := fun he' => by
        rw [← List.append_assoc]
        exact (ih hl' he').mono [op]
      cases hmove with
      | @insert x k' v hfresh =>
          rcases List.mem_cons.1 he with rfl | he'
          · -- it was inserted just now
            have hlookup : Table.lookup k (⟨x, k', v⟩ :: l') = some v := by
              rw [Table.lookup, List.find?_cons_of_pos (by simpa using hk)]
              rfl
            rw [← hlookup]
            exact .seen (List.append_nil _).symm hall
          · exact hearlier he'
      | evict _ => exact hearlier (List.mem_filter.1 he).1
      | find _ => exact hearlier he

/-- **A late miss.** The handle of an entry was found, and later there is no entry with that handle
    and key: the entry was evicted in between. -/
theorem Answer.missed {ops₁ ops₂ : List (Op H K V)} {l₁ : List (Entry H K V)}
    (h₁ : Replays (past ++ ops₁) l₁) (he₁ : e₁ ∈ l₁) (hk : e₁.key = k)
    (h : Replays (past ++ (ops₁ ++ ops₂)) l) (hnone : ∀ e ∈ l, e.handle = e₁.handle → e.key ≠ k) :
    Answer past (ops₁ ++ ops₂) k none := by
  induction ops₂ using List.reverseRecOn generalizing l with
  | nil =>
      rw [List.append_nil] at h
      obtain rfl := h₁.unique h
      exact absurd hk (hnone e₁ he₁ rfl)
  | append_singleton ops₂ op ih =>
      have hall := h
      rw [← List.append_assoc, ← List.append_assoc] at h
      obtain ⟨l', hl', hmove⟩ := h.concat
      rw [List.append_assoc] at hl'
      by_cases hgone : ∀ e ∈ l', e.handle = e₁.handle → e.key ≠ k
      · rw [← List.append_assoc]
        exact (ih hl' hgone).mono [op]
      · -- this operation takes it out
        push Not at hgone
        obtain ⟨e, he, hsame, hke⟩ := hgone
        cases hmove with
        | insert k' v hfresh => exact absurd hke (hnone e (List.mem_cons_of_mem _ he) hsame)
        | find _ => exact absurd hke (hnone e he hsame)
        | @evict e₂ he₂ =>
            have hhandle : e.handle = e₂.handle := by
              by_contra hne
              exact hnone e (List.mem_filter.2 ⟨he, decide_eq_true hne⟩) hsame hke
            obtain rfl := hl'.entry_unique he he₂ hhandle
            by_cases hother : ∃ x ∈ l', x.handle ≠ e.handle ∧ x.key = k
            · obtain ⟨x, hx, hne, hkx⟩ := hother
              exact .hidden (by rw [List.append_assoc]) hl' he hke hx hne hkx
            · have hlookup : Table.lookup k (l'.filter fun x => x.handle ≠ e.handle) = none := by
                rw [Table.lookup, Option.map_eq_none_iff, List.find?_eq_none]
                intro x hx hkx
                obtain ⟨hx', hne⟩ := List.mem_filter.1 hx
                exact hother ⟨x, hx', of_decide_eq_true hne, of_decide_eq_true hkx⟩
              rw [← hlookup]
              exact .seen (List.append_nil _).symm hall

end Answer

end Table
