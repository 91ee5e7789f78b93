import DeferredLru.Lib.Claims
import DeferredLru.Threads.Locks

set_option autoImplicit false

/-! # What the program counters say about nodes

A node that is in no list of its own accord is in the hands of some thread, and where that thread
stands says how far it is. `PC.holds` is the node a thread inserts, evicts or moves, with the stage
it has reached; `PC.marks` is the node whose mark a thread is about to change. `Status` and `Role`
are the other side: for each node, who holds it or which lists it rests in. -/

namespace DeferredLru.Threads

open Intrusive

variable {N : ℕ} {K V T : Type}

/-! ## Stages -/

/-- How far a thread is with the node it inserts, evicts or moves. -/
inductive Stage where
  /-- Popped from the pool, in no list. -/
  | building
  /-- In its bucket, not yet in the LRU list. -/
  | bucketed
  /-- In its bucket and in the LRU list, still guarded. -/
  | linked
  /-- Out of its bucket, still in the LRU list. -/
  | evicting
  /-- Out of both, not yet in the pool. -/
  | evicted
  /-- In its bucket, between the LRU list and the temporary list of a pull. -/
  | limbo
  deriving DecidableEq

/-- Where a node that nobody holds is. -/
inductive Place where
  | free
  | resident
  /-- In its bucket and in the temporary list of a pull. -/
  | temp
  deriving DecidableEq

/-- How far a thread is with the mark of a node. -/
inductive Mark where
  /-- `markNodeRecent` has seen the node unmarked. -/
  | intending
  /-- `markNodeRecent` has stored a link, the node is not in the Recent list yet. -/
  | pushing
  /-- `insert` has stored the dummy link. -/
  | guarded
  /-- `removeNodeFromBucket` has seen the node unmarked and evicts it. -/
  | condemned
  deriving DecidableEq

/-- The Recent list or the slice of it that a pull works on. -/
inductive MarkPlace where
  | unmarked
  | recent
  | slice
  deriving DecidableEq

/-- Where a node is, or who holds it and how far that thread is. -/
abbrev Status (T : Type) := Own T Place Stage

/-- Where the mark of a node is, or who changes it and how far that thread is. -/
abbrev Role (T : Type) := Own T MarkPlace Mark

/-- The node is in the chain of its bucket. -/
def Status.inBucket : Status T → Prop
  | .rest .free => False
  | .rest _ => True
  | .held _ .bucketed => True
  | .held _ .linked => True
  | .held _ .limbo => True
  | .held _ _ => False

/-- The node is in the LRU list. -/
def Status.inLru : Status T → Prop
  | .rest .resident => True
  | .held _ .linked => True
  | .held _ .evicting => True
  | _ => False

/-- The `recent_next` of the node is not null. -/
def Role.marked : Role T → Prop
  | .rest .unmarked => False
  | .rest _ => True
  | .held _ .pushing => True
  | .held _ .guarded => True
  | .held _ _ => False

/-- The statuses that a node with the given mark may have. -/
def Compatible : Role T → Status T → Prop
  | .rest .unmarked, .rest _ => True
  | .rest .unmarked, .held _ .building => True
  | .rest .recent, .rest p => p ≠ .free
  | .rest .slice, .rest p => p ≠ .free
  | .rest .slice, .held _ .limbo => True
  | .held _ .intending, .rest p => p ≠ .free
  | .held _ .pushing, .rest p => p ≠ .free
  | .held _ .guarded, .held _ .building => True
  | .held _ .guarded, .held _ .bucketed => True
  | .held _ .guarded, .held _ .linked => True
  | .held _ .condemned, .rest .resident => True
  | .held _ .condemned, .held _ .evicting => True
  | .held _ .condemned, .held _ .evicted => True
  | _, _ => False

/-! ## Views -/

/-- How far `addNodeToBucket` is with the node. -/
def LinkPC.stage : LinkPC N → Stage
  | .unlock _ => .bucketed
  | _ => .building

/-- How far `addSublistToLruHead` is with the node of an `insert`. -/
def AddPC.stage : AddPC N → Stage
  | .repair _ => .linked
  | _ => .bucketed

/-- The node that an `insert` has got from the pool. -/
def InsertPC.holds : InsertPC N → Option (Fin N × Stage)
  | .count => none
  | .allocate _ => none
  | .key n => some (n, .building)
  | .value n => some (n, .building)
  | .guard n => some (n, .building)
  | .bucket n p => some (n, p.stage)
  | .add n p => some (n, p.stage)
  | .reset n => some (n, .linked)

/-- The node is out of its bucket. -/
def RemovePC.removed : RemovePC N → Bool
  | .clear _ => true
  | .unlock _ removed => removed
  | _ => false

/-- The node is out of the LRU list. -/
def UnlinkPC.unlinked : UnlinkPC N → Bool
  | .storePrev .. => true
  | _ => false

/-- The node that `purgeOld` has taken out of its bucket. -/
def PurgePC.holds : PurgePC N → Option (Fin N × Stage)
  | .bucket n _ _ p => if p.removed then some (n, .evicting) else none
  | .unlink n _ _ p => some (n, if p.unlinked then .evicted else .evicting)
  | .onDelete n _ _ => some (n, .evicted)
  | .count n _ _ => some (n, .evicted)
  | .dispose n _ _ _ => some (n, .evicted)
  | _ => none

/-- The node on its way from the LRU list to the temporary list. -/
def PullPC.holds : PullPC N → Option (Fin N × Stage)
  | .unlink n _ p => if p.unlinked then some (n, .limbo) else none
  | .appendNext n _ => some (n, .limbo)
  | .appendPrev n _ => some (n, .limbo)
  | _ => none

/-- The node that the running stage holds. -/
def ConsolidatePC.holds : ConsolidatePC N → Option (Fin N × Stage)
  | .purge p => p.holds
  | .pull p => p.holds
  | _ => none

/-- The node that the thread inserts, evicts or moves. -/
def PC.holds : PC N K V → Option (Fin N × Stage)
  | .insert _ _ _ p => p.holds
  | .consolidate _ p => p.holds
  | _ => none

/-- How far `markNodeRecent` is with the mark. -/
def MarkPC.mark : MarkPC N → Option Mark
  | .test => none
  | .load => some .intending
  | .store _ again => some (if again then .pushing else .intending)
  | .cas _ => some .pushing
  | .count => none

/-- The node that a `find` marks. -/
def FindPC.marks : FindPC N V → Option (Fin N × Mark)
  | .mark n _ p => p.mark.map (n, ·)
  | _ => none

/-- The new node, which carries a dummy mark until it is in the LRU list. -/
def InsertPC.marks : InsertPC N → Option (Fin N × Mark)
  | .bucket n _ => some (n, .guarded)
  | .add n _ => some (n, .guarded)
  | .reset n => some (n, .guarded)
  | _ => none

/-- The node was seen unmarked under the lock of its bucket. -/
def RemovePC.condemns : RemovePC N → Bool
  | .hash => false
  | .lock _ => false
  | .recheck _ => false
  | .unlock _ removed => removed
  | _ => true

/-- The node that `purgeOld` is going to dispose of. -/
def PurgePC.marks : PurgePC N → Option (Fin N × Mark)
  | .bucket n _ _ p => if p.condemns then some (n, .condemned) else none
  | .unlink n _ _ _ => some (n, .condemned)
  | .onDelete n _ _ => some (n, .condemned)
  | .count n _ _ => some (n, .condemned)
  | .dispose n _ _ _ => some (n, .condemned)
  | _ => none

/-- The node whose mark the thread changes or relies on. -/
def PC.marks : PC N K V → Option (Fin N × Mark)
  | .find _ _ p => p.marks
  | .insert _ _ _ p => p.marks
  | .consolidate _ (.purge p) => p.marks
  | _ => none

/-- A head compare-exchange has succeeded and the old first node's `lru_prev` is still to be stored:
    that node, and the last node put in front of it. -/
def PC.repairing : PC N K V → Option (Ptr N × Ptr N)
  | .insert _ _ _ (.add n (.repair c)) => some (c, .node n)
  | .consolidate _ (.pull (.add _ last (.repair c))) => some (c, last)
  | _ => none

/-- `removeNodeFromLru` stands between its two stores: the cell before the node, the node and the
    cell behind it. -/
def PC.gap : PC N K V → Option (Ptr N × Fin N × Ptr N)
  | .consolidate _ (.purge (.unlink n _ _ (.storePrev prev next))) => some (prev, n, next)
  | .consolidate _ (.pull (.unlink n _ (.storePrev prev next))) => some (prev, n, next)
  | _ => none

/-! ## Outside the lists

The program counters that a function returns to concern no node. -/

/-- Neither holds a node nor changes a mark or a link of one. -/
structure PC.Detached (pc : PC N K V) : Prop where
  holds : pc.holds = none
  marks : pc.marks = none
  repairing : pc.repairing = none
  gap : pc.gap = none

theorem afterFind_detached (producer : Option V) (k : K) (r : Option V) :
    (afterFind producer k r : PC N K V).Detached := by
  cases producer <;> cases r <;> exact ⟨rfl, rfl, rfl, rfl⟩

theorem Back.pc_detached (back : Back K V) : (back.pc : PC N K V).Detached := by
  cases back with
  | find producer k r => exact afterFind_detached producer k r
  | _ => exact ⟨rfl, rfl, rfl, rfl⟩

theorem allocateAt_detached (consume : Bool) (k : K) (v : V) (p : Ptr N) :
    (allocateAt consume k v p).Detached := by
  cases p <;> exact ⟨rfl, rfl, rfl, rfl⟩

theorem Call.pc_detached (c : Call K V) : (c.pc : PC N K V).Detached := by
  cases c <;> exact ⟨rfl, rfl, rfl, rfl⟩

/-! ## Deeds

The accesses that change what a list holds, by what they do to it. -/

/-- What an access does to the lists. -/
inductive Deed (N : ℕ) where
  | nothing
  /-- `allocateNode` takes the node from the pool. -/
  | pop (n : Fin N)
  /-- `addNodeToBucket` puts the node in its bucket. -/
  | bucket (n : Fin N)
  /-- The head compare-exchange of `insert` puts the node in the LRU list. -/
  | link (n : Fin N)
  /-- `markNodeRecent` puts the node on the Recent list. -/
  | mark (n : Fin N)
  /-- `popRecentListSlice` takes the whole Recent list. -/
  | slice
  /-- `purgeOld` takes the node out of its bucket. -/
  | unbucket (n : Fin N)
  /-- `purgeOld` takes the node out of the LRU list. -/
  | unlink (n : Fin N)
  /-- `disposeNode` puts the node in the pool. -/
  | dispose (n : Fin N)
  /-- `pullRecent` takes the node out of the LRU list. -/
  | move (n : Fin N)
  /-- The head compare-exchange of `pullRecent` puts all moved nodes back. -/
  | splice

/-- What the step does to the lists. -/
def Label.deed : Label N K V T → Deed N
  | ⟨_, .insert _ _ _ (.allocate (.cas (.node n) _)), _, .setEmptyHead _⟩ => .pop n
  | ⟨_, .insert _ _ _ (.bucket n (.storeHead _)), _, _⟩ => .bucket n
  | ⟨_, .insert _ _ _ (.add n (.cas _)), _, .setNext _ _⟩ => .link n
  | ⟨_, .find _ _ (.mark n _ (.cas _)), _, .setRecentHead _⟩ => .mark n
  | ⟨_, .consolidate _ (.pull .exchange), _, _⟩ => .slice
  | ⟨_, .consolidate _ (.purge (.bucket n _ _ (.storeHead _ _))), _, _⟩ => .unbucket n
  | ⟨_, .consolidate _ (.purge (.bucket n _ _ (.storeParent _ _ _))), _, _⟩ => .unbucket n
  | ⟨_, .consolidate _ (.purge (.unlink n _ _ (.storeNext _ _))), _, _⟩ => .unlink n
  | ⟨_, .consolidate _ (.purge (.dispose n _ _ (.cas _))), _, .setEmptyHead _⟩ => .dispose n
  | ⟨_, .consolidate _ (.pull (.unlink n _ (.storeNext _ _))), _, _⟩ => .move n
  | ⟨_, .consolidate _ (.pull (.add _ _ (.cas _))), _, .setNext _ _⟩ => .splice
  | _ => .nothing

/-- Whether the node is in the LRU list after the deed. -/
def Deed.listed (n : Fin N) (listed moved : Prop) : Deed N → Prop
  | .link x => n = x ∨ listed
  | .unlink x => listed ∧ n ≠ x
  | .move x => listed ∧ n ≠ x
  | .splice => listed ∨ moved
  | _ => listed

/-- Whether a pull has taken the node out and not put it back after the deed. -/
def Deed.moved (n : Fin N) (moved : Prop) : Deed N → Prop
  | .move x => n = x ∨ moved
  | .splice => False
  | _ => moved

/-- Whether the node is free after the deed. -/
def Deed.free (n : Fin N) (free : Prop) : Deed N → Prop
  | .pop x => free ∧ n ≠ x
  | .dispose x => n = x ∨ free
  | _ => free

/-- Whether the node is in its bucket after the deed. -/
def Deed.bucketed (n : Fin N) (bucketed : Prop) : Deed N → Prop
  | .bucket x => n = x ∨ bucketed
  | .unbucket x => bucketed ∧ n ≠ x
  | _ => bucketed

/-- The Recent list after the deed. -/
def Deed.recent (l : List (Fin N)) : Deed N → List (Fin N)
  | .mark x => x :: l
  | .slice => []
  | _ => l

/-- A pull has taken the node out of the LRU list and not put it back. -/
def Status.moved : Status T → Prop
  | .rest .temp => True
  | .held _ .limbo => True
  | _ => False

end DeferredLru.Threads
