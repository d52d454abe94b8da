import AresOS.Process.Queue

/-!
# Sequences of calls on the process queues

Any number of queues over one pool of control blocks, all empty at first.  The
calls of `process/queue.c` are compared with the same calls on one list per queue:
a call answers what it answers on the lists, and the pool holds the lists after it,
as long as `queue_push` is only called with a process that is in no queue.
-/

namespace AresOS.Process

open LinkedPath Function

variable {ι κ : Type*}

inductive QueueCall (ι κ : Type*) where
  | push (k : κ) (proc : ι)
  | pop (k : κ)
  | remove (k : κ) (proc : ι)
  | peek (k : κ)
  | contains (k : κ) (proc : ι)

/-- What a call returns. -/
inductive Answer (ι : Type*) where
  | nothing
  | proc (p : Option ι)
  | found (b : Bool)

section

variable [DecidableEq ι] [DecidableEq κ]

/-- A call on the pool; a traversal may pass as many control blocks as the queue
counts. -/
def QueueCall.run (s : Pool ι κ) : QueueCall ι κ → Option (Answer ι × Pool ι κ)
  | .push k x => some (.nothing, queuePush s k x)
  | .pop k => some (.proc (queuePop s k).1, (queuePop s k).2)
  | .remove k x => (queueRemove ((s.queue k).count + 1) s k x).map fun s' => (.nothing, s')
  | .peek k => some (.proc (queuePeek s k), s)
  | .contains k x => (queueContains ((s.queue k).count + 1) s k x).map fun b => (.found b, s)

def runCalls (s : Pool ι κ) : List (QueueCall ι κ) → Option (List (Answer ι) × Pool ι κ)
  | [] => some ([], s)
  | c :: calls => (c.run s).bind fun r => (runCalls r.2 calls).map fun q => (r.1 :: q.1, q.2)

/-! ### The same calls on lists -/

def QueueCall.onLists (l : κ → List ι) : QueueCall ι κ → Answer ι × (κ → List ι)
  | .push k x => (.nothing, update l k (l k ++ [x]))
  | .pop k => (.proc (l k).head?, update l k (l k).tail)
  | .remove k x => (.nothing, update l k ((l k).erase x))
  | .peek k => (.proc (l k).head?, l)
  | .contains k x => (.found (decide (x ∈ l k)), l)

def callsOnLists (l : κ → List ι) : List (QueueCall ι κ) → List (Answer ι) × (κ → List ι)
  | [] => ([], l)
  | c :: calls =>
    let r := callsOnLists (c.onLists l).2 calls
    ((c.onLists l).1 :: r.1, r.2)

/-- Only processes that are in no queue are pushed. -/
def QueueCall.Allowed (l : κ → List ι) : QueueCall ι κ → Prop
  | .push _ x => ∀ k, x ∉ l k
  | _ => True

def CallsAllowed (l : κ → List ι) : List (QueueCall ι κ) → Prop
  | [] => True
  | c :: calls => c.Allowed l ∧ CallsAllowed (c.onLists l).2 calls

end

/-- The chains of the queues are the lists, without repetitions and without
sharing, and a process outside all queues has no successor. -/
structure QueuesHold (s : Pool ι κ) (l : κ → List ι) : Prop where
  rep : PoolRep s (fun _ => True) l
  nodup : ∀ k, (l k).Nodup
  outside : ∀ x, (∀ k, x ∉ l k) → s.next x = none

/-- Queues after `queue_init`, over control blocks that are not linked. -/
def emptyPool : Pool ι κ := ⟨fun _ => none, fun _ => ⟨none, none, 0⟩⟩

section

variable {s s' : Pool ι κ} {l : κ → List ι} {k : κ} {x : ι} {lk : List ι}

theorem QueuesHold.of_rep (rep : PoolRep s (fun _ => True) l)
    (outside : ∀ x, (∀ k, x ∉ l k) → s.next x = none) : QueuesHold s l :=
  ⟨rep, fun k => path_nodup (rep.rep k trivial).path, outside⟩

theorem emptyPool_holds : QueuesHold (emptyPool : Pool ι κ) fun _ => [] :=
  .of_rep ⟨fun _ _ => ⟨rfl, rfl, rfl⟩, by simp⟩ fun _ _ => rfl

theorem QueuesHold.head (h : QueuesHold s l) (k : κ) : queuePeek s k = (l k).head? := by
  have hpath := (h.rep.rep k trivial).path
  cases hl : l k with
  | nil => rwa [hl] at hpath
  | cons x xs =>
    rw [hl] at hpath
    exact hpath.1

theorem QueuesHold.fuel (h : QueuesHold s l) (k : κ) : (l k).length < (s.queue k).count + 1 := by
  rw [(h.rep.rep k trivial).count]
  exact Nat.lt_succ_self _

variable [DecidableEq κ]

theorem not_mem_of_update (h : ∀ j, x ∉ update l k lk j) : x ∉ lk ∧ ∀ j, j ≠ k → x ∉ l j := by
  refine ⟨by simpa using h k, fun j hj => ?_⟩
  have hx := h j
  rwa [update_of_ne hj] at hx

variable [DecidableEq ι]

theorem QueuesHold.push (h : QueuesHold s l) (hx : ∀ j, x ∉ l j) :
    QueuesHold (queuePush s k x) (update l k (l k ++ [x])) := by
  refine .of_rep (queuePush_rep h.rep trivial fun j _ => hx j) fun y hy => ?_
  obtain ⟨hyk, hyl⟩ := not_mem_of_update hy
  rw [List.mem_append, List.mem_singleton, not_or] at hyk
  have hnone : s.next y = none := by
    refine h.outside y fun j => ?_
    by_cases hj : j = k
    · rw [hj]
      exact hyk.1
    · exact hyl j hj
  rw [(queuePush_fields s k x).1]
  have htail := (h.rep.rep k trivial).tail
  cases ht : (s.queue k).tail with
  | none => exact (update_of_ne hyk.2 _ _).trans hnone
  | some t =>
    rw [ht] at htail
    have hyt : y ≠ t := by
      rintro rfl
      exact hyk.1 (List.mem_of_getLast? htail.symm)
    simp [update_of_ne hyt, update_of_ne hyk.2, hnone]

theorem QueuesHold.unlink (h : QueuesHold s l) (rep : PoolRep s' (fun _ => True) (update l k lk))
    (hlk : ∀ y ∈ l k, y ≠ x → y ∈ lk) (hx : x ∈ l k → s'.next x = none)
    (hother : ∀ y, y ∉ l k → s'.next y = s.next y) : QueuesHold s' (update l k lk) := by
  refine .of_rep rep fun y hy => ?_
  obtain ⟨hyk, hyl⟩ := not_mem_of_update hy
  by_cases hmem : y ∈ l k
  · grind
  rw [hother y hmem]
  refine h.outside y fun j => ?_
  by_cases hj : j = k
  · rwa [hj]
  · exact hyl j hj

theorem QueuesHold.pop (h : QueuesHold s l) (k : κ) :
    (queuePop s k).1 = (l k).head? ∧ QueuesHold (queuePop s k).2 (update l k (l k).tail) := by
  cases hl : l k with
  | nil =>
    rw [queuePop_nil h.rep trivial hl, List.tail_nil, ← hl, update_eq_self]
    exact ⟨by rw [hl]; rfl, h⟩
  | cons x xs =>
    obtain ⟨hpop, hrep, hnext⟩ := queuePop_cons h.rep trivial hl
    refine ⟨hpop, h.unlink (x := x) hrep ?_ ?_ ?_⟩
    · grind
    · intro _
      rw [hnext, update_self]
    · intro y hy
      have hne : y ≠ x := by grind
      rw [hnext, update_of_ne hne]

theorem QueuesHold.call (h : QueuesHold s l) {c : QueueCall ι κ} (hc : c.Allowed l) :
    ∃ s', c.run s = some ((c.onLists l).1, s') ∧ QueuesHold s' (c.onLists l).2 := by
  cases c with
  | push k x => exact ⟨_, rfl, h.push hc⟩
  | pop k =>
    obtain ⟨hfirst, hrest⟩ := h.pop k
    exact ⟨_, by rw [QueueCall.run, hfirst]; rfl, hrest⟩
  | remove k x =>
    obtain ⟨s', hrun, hrep, hlinks⟩ := queueRemove_rep x h.rep trivial (h.fuel k)
    refine ⟨s', by rw [QueueCall.run, hrun]; rfl,
      h.unlink (x := x) hrep ?_ hlinks.present hlinks.outside⟩
    intro y hy hne
    exact (List.mem_erase_of_ne hne).mpr hy
  | peek k => exact ⟨s, by rw [QueueCall.run, h.head]; rfl, h⟩
  | contains k x =>
    refine ⟨s, ?_, h⟩
    rw [QueueCall.run, queueContains_eq h.rep trivial x (h.fuel k)]
    rfl

theorem QueuesHold.calls {calls : List (QueueCall ι κ)} (h : QueuesHold s l)
    (hc : CallsAllowed l calls) :
    ∃ s', runCalls s calls = some ((callsOnLists l calls).1, s') ∧
      QueuesHold s' (callsOnLists l calls).2 := by
  induction calls generalizing s l with
  | nil => exact ⟨s, rfl, h⟩
  | cons c calls ih =>
    obtain ⟨s₁, hrun, h₁⟩ := h.call hc.1
    obtain ⟨s', hrest, h'⟩ := ih h₁ hc.2
    refine ⟨s', ?_, h'⟩
    rw [runCalls, hrun, Option.bind_some, hrest]
    rfl

end

/-- Every sequence of calls returns, with the answers that the lists give, and
leaves queues that hold the lists; removing a process that a queue does not hold
changes nothing. -/
theorem queues_implement_lists [DecidableEq ι] [DecidableEq κ]
    (calls : List (QueueCall ι κ)) (hc : CallsAllowed (fun _ => []) calls) :
    ∃ s, runCalls emptyPool calls = some ((callsOnLists (fun _ => []) calls).1, s) ∧
      QueuesHold s (callsOnLists (fun _ => []) calls).2 ∧
      ∀ k x, x ∉ (callsOnLists (fun _ => []) calls).2 k →
        queueRemove ((s.queue k).count + 1) s k x = some s := by
  obtain ⟨s, hrun, hs⟩ := emptyPool_holds.calls hc
  refine ⟨s, hrun, hs, fun k x hx => ?_⟩
  obtain ⟨s', hremove, -, hlinks⟩ := queueRemove_rep x hs.rep trivial (hs.fuel k)
  rw [hremove, hlinks.absent hx]

/-- Two queues over two processes: the one pushed first is removed, and the other
queue keeps its process. -/
theorem queues_implement_lists_two :
    ∃ s, runCalls (emptyPool : Pool (Fin 2) Bool)
        [.push true 0, .push false 1, .remove true 0, .pop false, .peek true] =
          some ([.nothing, .nothing, .nothing, .proc (some 1), .proc none], s) := by
  obtain ⟨s, hs, -⟩ := queues_implement_lists (ι := Fin 2) (κ := Bool)
    [.push true 0, .push false 1, .remove true 0, .pop false, .peek true]
    (by simp [CallsAllowed, QueueCall.Allowed, QueueCall.onLists, update_apply])
  exact ⟨s, hs⟩

end AresOS.Process
