import DeferredLru.HashFixed.Runs

set_option autoImplicit false

/-! # What a lookup of `HashFixed` answers

`find` takes no lock. It walks the chain that the bucket had when it loaded the bucket head, since
published elements never change and new ones are put in front. So it returns the newest of the elements
that were published with its key at this moment of the call, or none if there was none
(`Run.find_newest`). -/

namespace DeferredLru.HashFixed

open Intrusive

variable {N : ℕ} {K V T : Type} {cfg : Config N K} {s s' : State N K V T} {m m' : Mem N K V}
  {trace : List (Event N K V T)} {t u : T} {n : Fin N} {k : K} {e : Option (Event N K V T)}
  {pc p : PC N K V} {move : Move K V}

/-! ## What was published, newest first -/

/-- The slot and the key that the event publishes. -/
def Event.publication : Event N K V T → Option (Fin N × K)
  | .published _ n k => some (n, k)
  | _ => none

/-- The elements published so far with their keys, newest first. -/
def publications (trace : List (Event N K V T)) : List (Fin N × K) :=
  (trace.filterMap Event.publication).reverse

/-- Those of a bucket. -/
def inBucket (cfg : Config N K) (trace : List (Event N K V T)) (b : ℤ) : List (Fin N × K) :=
  (publications trace).filter fun e => cfg.whichBucket e.2 = b

theorem publications_append {later : List (Event N K V T)} :
    publications (trace ++ later) = publications later ++ publications trace := by
  rw [publications, List.filterMap_append, List.reverse_append]
  rfl

theorem publications_quiet (he : ∀ u n k, e ≠ some (.published u n k)) :
    publications (trace ++ e.toList) = publications trace := by
  rw [publications_append]
  cases e with
  | none => rfl
  | some x =>
      cases x with
      | published u n k => exact absurd rfl (he u n k)
      | _ => rfl

theorem mem_publications : (n, k) ∈ publications trace ↔ Published trace n k := by
  rw [publications, List.mem_reverse, List.mem_filterMap]
  constructor
  · rintro ⟨e, he, heq⟩
    cases e with
    | published u n' k' =>
        cases heq
        exact ⟨u, he⟩
    | _ => cases heq
  · rintro ⟨u, hu⟩
    exact ⟨_, hu, rfl⟩

theorem mem_inBucket {b : ℤ} :
    (n, k) ∈ inBucket cfg trace b ↔ Published trace n k ∧ cfg.whichBucket k = b := by
  rw [inBucket, List.mem_filter, mem_publications, decide_eq_true_iff]

theorem inBucket_append {later : List (Event N K V T)} {b : ℤ} :
    inBucket cfg (trace ++ later) b = inBucket cfg later b ++ inBucket cfg trace b := by
  rw [inBucket, publications_append, List.filter_append]
  rfl

/-- The elements with a key are in its bucket. -/
theorem find?_inBucket [DecidableEq K] (cfg : Config N K) :
    (inBucket cfg trace (cfg.whichBucket k)).find? (fun e => e.2 = k) =
      (publications trace).find? fun e => e.2 = k := by
  rw [inBucket, List.find?_filter]
  congr 1
  funext e
  by_cases he : e.2 = k
  · simp [he]
  · simp [he]

/-! ## What a step does to the chains -/

/-- An `insert` has found no slot, or is about to take its increment back. -/
def PC.overfull (m : Mem N K V) : PC N K V → Prop
  | .insert _ _ .check => N ≤ m.currentElementCount
  | .insert _ _ .rollback => True
  | _ => False

/-- A step changes neither a bucket head nor a link, or it is one of the two that do. -/
inductive Effect (cfg : Config N K) (m m' : Mem N K V) (t : T) (pc : PC N K V) :
    Option (Event N K V T) → Prop
  | none (e : Option (Event N K V T)) : m'.bucket = m.bucket → m'.bucketNext = m.bucketNext →
      (∀ u n k, e ≠ some (.published u n k)) → (∀ u, e = some (.full u) → pc.overfull m) →
      Effect cfg m m' t pc e
  | link (k : K) (v : V) (n : Fin N) (next : ℤ) : pc = .insert k v (.link n next) →
      m' = { m with bucketNext := Function.update m.bucketNext n next } → Effect cfg m m' t pc none
  | publish (k : K) (v : V) (n : Fin N) : pc = .insert k v (.publish n (m.bucket (cfg.whichBucket k))) →
      m' = { m with bucket := Function.update m.bucket (cfg.whichBucket k) (index n) } →
      Effect cfg m m' t pc (some (.published t n k))

theorem searchAt_event {current : ℤ} (hr : searchAt t k current = some (p, e)) :
    ∀ x ∈ e, ∃ r, x = .returned t k r := by
  unfold searchAt at hr
  split at hr
  · cases hr
    simp
  · obtain ⟨n, -, heq⟩ := Option.map_eq_some_iff.1 hr
    cases heq
    simp

/-- A `find` tells nothing before it returns. -/
theorem nextFind_event [DecidableEq K] {q : FindPC N}
    (hr : nextFind cfg m t k q = some (p, e)) : ∀ x ∈ e, ∃ r, x = .returned t k r := by
  cases q with
  | load =>
      rw [nextFind_load] at hr
      obtain ⟨current, -, hr⟩ := Option.bind_eq_some_iff.1 hr
      exact searchAt_event hr
  | compare n =>
      simp only [nextFind, Option.some.injEq] at hr
      split at hr <;> cases hr <;> simp
  | next n => exact searchAt_event hr

/-- An `insert` tells of no lookup. -/
theorem nextInsert_effect {fails : Bool} {v : V} {q : InsertPC N}
    (hr : nextInsert cfg m t fails k v q = some (m', p, e)) :
    Effect cfg m m' t (.insert k v q) e ∧ (∀ k q, p ≠ .find k q) ∧
      ∀ u k r, e ≠ some (.returned u k r) := by
  cases q with
  | check =>
      simp only [nextInsert, Option.some.injEq] at hr
      split at hr
      case isTrue hfull =>
        cases hr
        exact ⟨.none _ rfl rfl (by simp) fun _ _ => hfull, by simp, by simp⟩
      case isFalse =>
        cases hr
        exact ⟨.none _ rfl rfl (by simp) (by simp), by simp, by simp⟩
  | reserve =>
      simp only [nextInsert] at hr
      split at hr
      · cases hr
        exact ⟨.none _ rfl rfl (by simp) (by simp), by simp, by simp⟩
      · obtain ⟨n, -, heq⟩ := Option.map_eq_some_iff.1 hr
        cases heq
        exact ⟨.none _ rfl rfl (by simp) (by simp), by simp, by simp⟩
  | rollback =>
      cases hr
      exact ⟨.none _ rfl rfl (by simp) fun _ _ => trivial, by simp, by simp⟩
  | load n =>
      rw [nextInsert_load] at hr
      obtain ⟨current, -, heq⟩ := Option.map_eq_some_iff.1 hr
      cases heq
      exact ⟨.none _ rfl rfl (by simp) (by simp), by simp, by simp⟩
  | link n next =>
      cases hr
      exact ⟨.link k v n next rfl rfl, by simp, by simp⟩
  | publish n next =>
      rw [nextInsert_publish] at hr
      obtain ⟨current, hcurrent, heq⟩ := Option.map_eq_some_iff.1 hr
      split at heq
      case isTrue hsame =>
        cases heq
        obtain ⟨rfl, -⟩ := hsame
        obtain ⟨-, rfl⟩ := Mem.bucketAt_eq_some.1 hcurrent
        exact ⟨.publish k v n rfl rfl, by simp, by simp⟩
      case isFalse =>
        cases heq
        exact ⟨.none _ rfl rfl (by simp) (by simp), by simp, by simp⟩
  | _ =>
      cases hr
      exact ⟨.none _ rfl rfl (by simp) (by simp), by simp, by simp⟩

theorem next_effect [DecidableEq K] (hr : next cfg m t pc move = some (m', p, e)) :
    Effect cfg m m' t pc e := by
  cases pc with
  | idle =>
      cases move with
      | go fails => cases hr
      | _ =>
          cases hr
          exact .none _ rfl rfl (by simp) (by simp)
  | insert k v q =>
      cases move with
      | go fails => exact (nextInsert_effect hr).1
      | _ => cases hr
  | find k q =>
      cases move with
      | go fails =>
          obtain ⟨⟨p', e'⟩, hfind, heq⟩ := Option.map_eq_some_iff.1 hr
          cases heq
          have hevent := nextFind_event hfind
          refine .none _ rfl rfl (fun u n k' he => ?_) fun u he => ?_
          · obtain ⟨r, hret⟩ := hevent _ he
            cases hret
          · obtain ⟨r, hret⟩ := hevent _ he
            cases hret
      | _ => cases hr

/-! ## The chains are the publications -/

/-- The chain of a bucket is what was published in it, newest first. -/
def Ordered (cfg : Config N K) (m : Mem N K V) (trace : List (Event N K V T)) : Prop :=
  ∀ b, Chain m.bucketNext index (m.bucket b) ((inBucket cfg trace b).map Prod.fst) (-1)

theorem Ordered.step [Fintype T] (ho : Ordered cfg s.mem trace) (h : Inv cfg s trace)
    (he : Effect cfg s.mem m' t (s.pc t) e) : Ordered cfg m' (trace ++ e.toList) := by
  intro b
  have hstand := h.standing t
  cases he with
  | none e hbucket hnext hquiet _ =>
      rw [inBucket, publications_quiet hquiet, hbucket, hnext]
      exact ho b
  | link k v n next hpc hm =>
      subst hm
      rw [hpc] at hstand
      rw [Option.toList_none, List.append_nil]
      refine (ho b).update fun hn => ?_
      obtain ⟨⟨x, k'⟩, hx, rfl⟩ := List.mem_map.1 hn
      exact hstand.1.2 k' (mem_inBucket.1 hx).1
  | publish k v n hpc hm =>
      subst hm
      rw [hpc] at hstand
      obtain ⟨-, -, -, hlink⟩ := hstand
      rw [inBucket_append]
      show Chain s.mem.bucketNext index
        (Function.update s.mem.bucket (cfg.whichBucket k) (index n) b) _ (-1)
      by_cases hb : b = cfg.whichBucket k
      · have hnew : inBucket cfg [(.published t n k : Event N K V T)] b = [(n, k)] := by
          simp [inBucket, publications, Event.publication, hb]
        rw [Option.toList_some, hnew, hb, Function.update_self]
        refine ⟨rfl, ?_⟩
        rw [hlink]
        exact ho (cfg.whichBucket k)
      · have hnew : inBucket cfg [(.published t n k : Event N K V T)] b = [] := by
          simp [inBucket, publications, Event.publication, Ne.symm hb]
        rw [Option.toList_some, hnew, Function.update_of_ne hb]
        exact ho b

/-! ## What a `find` knows of its answer -/

/-- The thread is in a call of `find(k)`. -/
def Calling (t : T) (k : K) (trace : List (Event N K V T)) : Prop :=
  Since (fun _ e => e = .called t k) (fun e => ∃ k r, e = .returned t k r) trace

/-- `P` held of what had happened at some moment of the running call of `find(k)`. -/
def Moment (t : T) (k : K) (P : List (Event N K V T) → Prop) (trace : List (Event N K V T)) : Prop :=
  ∃ now later, trace = now ++ later ∧ Calling t k now ∧ (∀ k r, .returned t k r ∉ later) ∧ P now

theorem Moment.imp {P Q : List (Event N K V T) → Prop} (h : Moment t k P trace)
    (hPQ : ∀ now later, trace = now ++ later → P now → Q now) : Moment t k Q trace := by
  obtain ⟨now, later, heq, hc, hlater, hP⟩ := h
  exact ⟨now, later, heq, hc, hlater, hPQ now later heq hP⟩

theorem Moment.append {P : List (Event N K V T) → Prop} (h : Moment t k P trace)
    {more : List (Event N K V T)} (hmore : ∀ k r, .returned t k r ∉ more) :
    Moment t k P (trace ++ more) := by
  obtain ⟨now, later, rfl, hc, hlater, hP⟩ := h
  refine ⟨now, later ++ more, List.append_assoc .., hc, fun k r hr => ?_, hP⟩
  rcases List.mem_append.1 hr with hr | hr
  · exact hlater k r hr
  · exact hmore k r hr

theorem Calling.append (h : Calling t k trace) {more : List (Event N K V T)}
    (hmore : ∀ k r, .returned t k r ∉ more) : Calling t k (trace ++ more) := by
  obtain ⟨past, e, rest, rfl, he, hrest⟩ := h
  refine ⟨past, e, rest ++ more, by simp, he, fun x hx hret => ?_⟩
  rcases List.mem_append.1 hx with hx | hx
  · exact hrest x hx hret
  · obtain ⟨k', r, rfl⟩ := hret
    exact hmore k' r hx

/-- The walk has come to the element, which was published with the key `k'`, past elements with other
    keys. -/
def Reached (cfg : Config N K) (k : K) (n : Fin N) (k' : K) (now : List (Event N K V T)) : Prop :=
  ∃ passed rest, inBucket cfg now (cfg.whichBucket k) = passed ++ (n, k') :: rest ∧
    ∀ e ∈ passed, e.2 ≠ k

/-- What is known at a program counter. -/
def FindPC.Knows (cfg : Config N K) (t : T) (k : K) (trace : List (Event N K V T)) :
    FindPC N → Prop
  | .load => Calling t k trace
  | .compare n => Moment t k (fun now => ∃ k', Reached cfg k n k' now) trace
  | .next n => Moment t k (fun now => ∃ k', k' ≠ k ∧ Reached cfg k n k' now) trace

/-- If the thread is in a `find`, it knows what its program counter says. -/
def PC.Finding (cfg : Config N K) (t : T) (trace : List (Event N K V T)) (pc : PC N K V) : Prop :=
  ∀ k q, pc = .find k q → q.Knows cfg t k trace

theorem idle_finding : (.idle : PC N K V).Finding cfg t trace := by
  rintro k q hq
  cases hq

/-- The steps of other threads. -/
theorem PC.Finding.append (h : pc.Finding cfg t trace) {more : List (Event N K V T)}
    (hmore : ∀ k r, .returned t k r ∉ more) : pc.Finding cfg t (trace ++ more) := by
  rintro k q rfl
  have hq := h k q rfl
  cases q with
  | load => exact Calling.append hq hmore
  | compare n => exact Moment.append hq hmore
  | next n => exact Moment.append hq hmore

variable [DecidableEq K]

/-- The slot of the newest element published with the key. -/
def newest (trace : List (Event N K V T)) (k : K) : Option (Fin N) :=
  ((publications trace).find? fun e => e.2 = k).map Prod.fst

theorem newest_reached {now : List (Event N K V T)} (h : Reached cfg k n k now) :
    newest now k = some n := by
  obtain ⟨passed, rest, heq, hpassed⟩ := h
  have hfind : passed.find? (fun e => e.2 = k) = none :=
    List.find?_eq_none.2 fun e he => by simpa using hpassed e he
  rw [newest, ← find?_inBucket cfg, heq, List.find?_append, hfind]
  simp

theorem newest_missing {now : List (Event N K V T)}
    (h : ∀ e ∈ inBucket cfg now (cfg.whichBucket k), e.2 ≠ k) : newest now k = none := by
  rw [newest, ← find?_inBucket cfg,
    List.find?_eq_none.2 (fun e he => by simpa using h e he)]
  rfl

/-- What is known of the element that `current` leads to, or of the answer if it leads to none. -/
theorem searchAt_finding {current : ℤ} {passed rest : List (Fin N × K)}
    {now later : List (Event N K V T)} (htrace : trace = now ++ later) (hc : Calling t k now)
    (hlater : ∀ k r, .returned t k r ∉ later)
    (heq : inBucket cfg now (cfg.whichBucket k) = passed ++ rest) (hpassed : ∀ e ∈ passed, e.2 ≠ k)
    (hchain : Chain m.bucketNext index current (rest.map Prod.fst) (-1))
    (hr : searchAt t k current = some (p, e)) :
    p.Finding cfg t (trace ++ e.toList) ∧ ∀ u k' r, e = some (.returned u k' r) →
      u = t ∧ k' = k ∧ Moment t k (fun now => newest now k = r) trace := by
  unfold searchAt at hr
  cases rest with
  | nil =>
      obtain rfl : current = -1 := hchain
      cases hr
      refine ⟨idle_finding, fun u k' r hret => ?_⟩
      cases hret
      rw [List.append_nil] at heq
      exact ⟨rfl, rfl, now, later, htrace, hc, hlater, newest_missing (heq ▸ hpassed)⟩
  | cons x rest =>
      obtain ⟨n, k'⟩ := x
      obtain ⟨rfl, -⟩ := hchain
      rw [if_neg (index_ne_end n), slot_index] at hr
      cases hr
      refine ⟨fun k₀ q hp => ?_, fun _ _ _ hret => by cases hret⟩
      cases hp
      rw [Option.toList_none, List.append_nil]
      exact ⟨now, later, htrace, hc, hlater, k', passed, rest, heq, hpassed⟩

/-- **A step of the `find`** itself. -/
theorem Ordered.finding_self [Fintype T] (ho : Ordered cfg s.mem trace) (h : Inv cfg s trace)
    {q : FindPC N} (hq : q.Knows cfg t k trace) (hr : nextFind cfg s.mem t k q = some (p, e)) :
    p.Finding cfg t (trace ++ e.toList) ∧ ∀ u k' r, e = some (.returned u k' r) →
      u = t ∧ k' = k ∧ Moment t k (fun now => newest now k = r) trace := by
  -- an element reached was published, so its key is the one it was published with
  have hkey : ∀ n k' now later, trace = now ++ later → Reached cfg k n k' now →
      s.mem.key n = k' := by
    rintro n k' now later rfl ⟨passed, rest, heq, -⟩
    have hmem : (n, k') ∈ inBucket cfg now (cfg.whichBucket k) := by simp [heq]
    exact (h.stored n k' (mem_inBucket.1 hmem).1.mono).1
  cases q with
  | load =>
      rw [nextFind_load] at hr
      obtain ⟨current, hcurrent, hr⟩ := Option.bind_eq_some_iff.1 hr
      obtain ⟨-, rfl⟩ := Mem.bucketAt_eq_some.1 hcurrent
      exact searchAt_finding (List.append_nil _).symm hq (by simp) (List.nil_append _).symm (by simp)
        (ho (cfg.whichBucket k)) hr
  | compare n =>
      simp only [nextFind, Option.some.injEq] at hr
      split at hr
      case isTrue hn =>
        cases hr
        refine ⟨idle_finding, fun u k' r hret => ?_⟩
        cases hret
        refine ⟨rfl, rfl, hq.imp fun now later heq hP => ?_⟩
        obtain ⟨k', hreached⟩ := hP
        obtain rfl : k' = k := (hkey n k' now later heq hreached).symm.trans hn
        exact newest_reached hreached
      case isFalse hn =>
        cases hr
        refine ⟨fun k₀ q hp => ?_, fun _ _ _ hret => by cases hret⟩
        cases hp
        rw [Option.toList_none, List.append_nil]
        refine hq.imp fun now later heq hP => ?_
        obtain ⟨k', hreached⟩ := hP
        refine ⟨k', fun hk => hn ?_, hreached⟩
        exact (hkey n k' now later heq hreached).trans hk
  | next n =>
      obtain ⟨now, later, rfl, hc, hlater, k', hk', passed, rest, heq, hpassed⟩ := hq
      -- what was put in front since then leaves the rest of the chain alone
      have hchain := ho (cfg.whichBucket k)
      rw [inBucket_append, heq, ← List.append_assoc, List.map_append] at hchain
      refine searchAt_finding rfl hc hlater (heq.trans (List.append_cons ..)) (fun e he => ?_)
        hchain.split.2 hr
      rcases List.mem_append.1 he with he | he
      · exact hpassed e he
      · rw [List.mem_singleton.1 he]
        exact hk'

/-- A step of the thread. -/
theorem Ordered.next_finding [Fintype T] (ho : Ordered cfg s.mem trace) (h : Inv cfg s trace)
    (hp : (s.pc t).Finding cfg t trace) (hr : next cfg s.mem t (s.pc t) move = some (m', p, e)) :
    p.Finding cfg t (trace ++ e.toList) ∧ ∀ u k r, e = some (.returned u k r) →
      u = t ∧ Moment t k (fun now => newest now k = r) trace := by
  cases hpc : s.pc t with
  | idle =>
      rw [hpc] at hr
      cases move with
      | insert k v =>
          cases hr
          refine ⟨fun _ _ hq => ?_, by simp⟩
          cases hq
      | find k =>
          cases hr
          refine ⟨fun k' q hq => ?_, by simp⟩
          cases hq
          exact ⟨trace, _, [], rfl, rfl, by simp⟩
      | go fails => cases hr
  | insert k v q =>
      rw [hpc] at hr
      cases move with
      | go fails =>
          obtain ⟨-, hfind, hret⟩ := nextInsert_effect hr
          exact ⟨fun k q hq => absurd hq (hfind k q), fun u k r he => absurd he (hret u k r)⟩
      | _ => cases hr
  | find k q =>
      rw [hpc] at hr
      cases move with
      | go fails =>
          obtain ⟨⟨p', e'⟩, hfind, heq⟩ := Option.map_eq_some_iff.1 hr
          cases heq
          obtain ⟨hfinding, hret⟩ := ho.finding_self h (hp k q hpc) hfind
          refine ⟨hfinding, fun u k' r he => ?_⟩
          obtain ⟨hu, rfl, hmoment⟩ := hret u k' r he
          exact ⟨hu, hmoment⟩
      | _ => cases hr

/-! ## Runs -/

variable [DecidableEq T] [Inhabited K] [Inhabited V] [Fintype T]

/-- The answers so far. -/
def Answered (trace : List (Event N K V T)) : Prop :=
  ∀ past t k r rest, trace = past ++ .returned t k r :: rest →
    Moment t k (fun now => newest now k = r) past

theorem Run.finding (h : Run cfg s trace) (hthreads : limit N + Fintype.card T ≤ maxRacing N) :
    Ordered cfg s.mem trace ∧ (∀ t, (s.pc t).Finding cfg t trace) ∧ Answered trace := by
  induction h with
  | start =>
      refine ⟨fun _ => rfl, fun _ => idle_finding, fun past t k r rest heq => ?_⟩
      simp at heq
  | @step s s' trace t move e hrun hstep ih =>
      obtain ⟨hordered, hfinding, hanswered⟩ := ih
      have hinv := hrun.inv hthreads
      obtain ⟨⟨m', p, e'⟩, hnext, heq⟩ := Option.map_eq_some_iff.1 hstep
      cases heq
      have hmoved : p.Finding cfg t (trace ++ e.toList) ∧ ∀ u k r, e = some (.returned u k r) →
          u = t ∧ Moment t k (fun now => newest now k = r) trace :=
        hordered.next_finding hinv (hfinding t) hnext
      refine ⟨hordered.step hinv (next_effect hnext), fun u => ?_, fun past u k r rest heq => ?_⟩
      · show (Function.update s.pc t p u).Finding cfg u _
        by_cases hut : u = t
        · subst hut
          rw [Function.update_self]
          exact hmoved.1
        · rw [Function.update_of_ne hut]
          refine (hfinding u).append fun k r hr => hut ?_
          exact (hmoved.2 u k r (Option.mem_toList.1 hr)).1
      · cases e with
        | none => exact hanswered past u k r rest (by simpa using heq)
        | some x =>
            rcases concat_split heq with ⟨rfl, rfl, -⟩ | ⟨rest', rfl, -⟩
            · obtain ⟨rfl, hmoment⟩ := hmoved.2 u k r rfl
              exact hmoment
            · exact hanswered past u k r rest' rfl

/-- **What a lookup answers.** -/
theorem Run.find_newest (h : Run cfg s trace) (hthreads : limit N + Fintype.card T ≤ maxRacing N)
    {past rest : List (Event N K V T)} {r : Option (Fin N)}
    (heq : trace = past ++ .returned t k r :: rest) :
    Moment t k (fun now => newest now k = r) past :=
  (h.finding hthreads).2.2 past t k r rest heq

/-- The second thread loads the bucket head before the first publishes another element with the key. -/
theorem Run.find_newest_stale : ∃ (s : State 2 ℕ ℕ (Fin 2)) (past : List (Event 2 ℕ ℕ (Fin 2))),
    Run oneBucket s (past ++ [.returned 1 7 (some 0)]) ∧ newest past 7 = some 1 ∧
      Moment 1 7 (fun now => newest now 7 = some 0) past := by
  obtain ⟨s, trace, hrun, hgood⟩ := Run.of_play oneBucket.toArguments
    ((0, .insert 7 70) :: goes 0 7 ++ (1, .find 7) :: goes 1 1 ++
      (0, .insert 7 71) :: goes 0 7 ++ goes (1 : Fin 2) 1)
    (fun _ trace => (trace.getLast? = some (.returned 1 7 (some 0))) ∧
      newest trace.dropLast 7 = some 1) (by decide +kernel)
  obtain ⟨hlast, hnewest⟩ := of_decide_eq_true hgood
  rw [← List.dropLast_append_getLast? _ hlast] at hrun
  exact ⟨s, _, hrun, hnewest, hrun.find_newest (by decide) rfl⟩

end DeferredLru.HashFixed
