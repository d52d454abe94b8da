import AresOS.Process.ProcessModel

/-!
# The dispatcher on ready lists

Each policy keeps its ready processes in a fixed list of queues, scanned from
the first to the last by its `next`.  On pools that represent lists, the three
dispatcher functions are described once for all policies: `scheduler_add`
appends to one queue, `scheduler_next` takes the head of the first queue that
is not empty, and `scheduler_remove` deletes a process wherever it is.
-/

namespace AresOS.Process

open Function

theorem neZero_levels : NeZero 4 := inferInstance

theorem neZero_pcbs : NeZero 64 := inferInstance

attribute [local instance] neZero_levels in
/-- The queues of a policy, in the order in which its `next` scans them. -/
def readyQueues : SchedulerId → List QueueId
  | .fcfs => [.fcfs]
  | .rr => [.rr]
  | .priority => [.prio 3, .prio 2, .prio 1, .prio 0]
  | .mlq => [.mlq 0, .mlq 1, .mlq 2, .mlq 3]
  | .count => []

/-- The queue to which a policy adds a process of the given priority. -/
def levelQueue : SchedulerId → Nat → QueueId
  | .fcfs, _ => .fcfs
  | .rr, _ => .rr
  | .priority, n => .prio (prioLevelOf n)
  | .mlq, n => .mlq (mlqLevelOf n)
  | .count, _ => .blocked

/-- The queues in use under a policy. -/
def InUse (p : SchedulerId) (k : QueueId) : Prop := k ∈ readyQueues p ∨ k = .blocked

theorem blocked_not_ready (p : SchedulerId) : QueueId.blocked ∉ readyQueues p := by
  cases p <;> simp [readyQueues]

theorem levelQueue_mem {p : SchedulerId} (hp : p ≠ .count) (n : Nat) :
    levelQueue p n ∈ readyQueues p := by
  cases p with
  | fcfs => simp [levelQueue, readyQueues]
  | rr => simp [levelQueue, readyQueues]
  | priority =>
    have h : ∀ i : Fin 4, QueueId.prio i ∈ readyQueues .priority := by decide
    exact h _
  | mlq =>
    have h : ∀ i : Fin 4, QueueId.mlq i ∈ readyQueues .mlq := by decide
    exact h _
  | count => exact absurd rfl hp

section

variable {A : QueueId → Prop} {l : QueueId → List PcbPtr}

theorem PoolRep.length_lt {pool : Pool PcbPtr QueueId} {k : QueueId}
    (h : PoolRep pool A l) (hA : A k) : (l k).length < queueFuel := by
  have hnd := LinkedPath.path_nodup (h.rep k hA).path
  have hcard := hnd.length_le_card
  exact Nat.lt_succ_of_le hcard

theorem popFirst_spec {pool : Pool PcbPtr QueueId}
    (h : PoolRep pool A l) (ks : List QueueId) (hks : ∀ k ∈ ks, A k) :
    ((∀ k ∈ ks, l k = []) ∧ popFirst pool ks = (none, pool)) ∨
      ∃ before k after x xs pool', ks = before ++ k :: after ∧
        (∀ k' ∈ before, l k' = []) ∧ l k = x :: xs ∧ popFirst pool ks = (some x, pool') ∧
        PoolRep pool' A (update l k xs) := by
  induction ks with
  | nil =>
    left
    simp [popFirst]
  | cons k ks ih =>
    have hA := hks k (by simp)
    cases hl : l k with
    | nil =>
      have hpop := queuePop_nil h hA hl
      rcases ih (fun k' hk' => hks k' (by simp [hk'])) with
        ⟨hnil, hrun⟩ | ⟨before, k', after, x, xs, pool', hks', hnil, hlk, hrun, hrep⟩
      · left
        constructor
        · grind
        · simp [popFirst, hpop, hrun]
      right
      refine ⟨k :: before, k', after, x, xs, pool', by simp [hks'], ?_,
        hlk, by simp [popFirst, hpop, hrun], hrep⟩
      intro k'' hk''
      rcases List.mem_cons.mp hk'' with rfl | hk''
      · exact hl
      · exact hnil k'' hk''
    | cons x xs =>
      obtain ⟨hsome, hrep, _⟩ := queuePop_cons h hA hl
      right
      refine ⟨[], k, ks, x, xs, (queuePop pool k).2, rfl, by simp, hl, ?_, hrep⟩
      have hpair : queuePop pool k = (some x, (queuePop pool k).2) := by
        rw [← hsome]
      rw [popFirst, hpair]

/-- `l'` is `l` without `x` in the queues `ks`. -/
structure Without (l l' : QueueId → List PcbPtr) (x : PcbPtr) (ks : List QueueId) : Prop where
  inside : ∀ k, k ∈ ks → ∀ y, y ∈ l' k ↔ y ∈ l k ∧ y ≠ x
  outside : ∀ k, k ∉ ks → l' k = l k

theorem queueRemove_without {pool : Pool PcbPtr QueueId} {k : QueueId}
    (h : PoolRep pool A l) (hA : A k) (x : PcbPtr) :
    ∃ pool' l', queueRemove queueFuel pool k x = some pool' ∧
      PoolRep pool' A l' ∧ Without l l' x [k] := by
  obtain ⟨pool', hrun, hrep, -⟩ := queueRemove_rep x h hA (h.length_lt hA)
  have hnd := LinkedPath.path_nodup (h.rep k hA).path
  refine ⟨pool', _, hrun, hrep, ?_, ?_⟩
  · grind
  · grind

theorem policyRemove_erase {s : Kernel} (x : PcbPtr)
    (h : PoolRep s.pool A l) (ks : List QueueId) (hks : ∀ k ∈ ks, A k) :
    ∃ pool', policyRemove x s ks = some { s with pool := pool' } ∧
      PoolRep pool' A fun k => if k ∈ ks then (l k).erase x else l k := by
  induction ks with
  | nil => exact ⟨s.pool, rfl, by simpa using h⟩
  | cons k ks ih =>
    have hA := hks k (by simp)
    have hcontains := queueContains_eq h hA x (h.length_lt hA)
    by_cases hx : x ∈ l k
    · obtain ⟨pool', hrun, hrep, -⟩ := queueRemove_rep x h hA (h.length_lt hA)
      refine ⟨pool', by simp [policyRemove, hcontains, hx, hrun], ?_⟩
      convert hrep using 1
      funext k'
      by_cases he : k' = k
      · simp [he]
      rw [update_of_ne he]
      split
      · next hk' =>
          have hxk : x ∉ l k' := h.apart k k' hA (hks k' hk') (Ne.symm he) x hx
          exact List.erase_of_not_mem hxk
      · rfl
    · obtain ⟨pool', hrun, hrep⟩ := ih fun k' hk' => hks k' (by simp [hk'])
      refine ⟨pool', by simp [policyRemove, hcontains, hx, hrun], ?_⟩
      convert hrep using 1
      funext k'
      by_cases he : k' = k
      · simp [he, List.erase_of_not_mem hx]
      · simp [he]

theorem policyRemove_absent {s : Kernel} {x : PcbPtr}
    (h : PoolRep s.pool A l) (ks : List QueueId) (hks : ∀ k ∈ ks, A k) (hx : ∀ k ∈ ks, x ∉ l k) :
    policyRemove x s ks = some s := by
  induction ks with
  | nil => rfl
  | cons k ks ih =>
    have hA := hks k (by simp)
    have hcontains := queueContains_eq h hA x (h.length_lt hA)
    have hrest := ih (fun k' hk' => hks k' (by simp [hk'])) (fun k' hk' => hx k' (by simp [hk']))
    simp [policyRemove, hcontains, hx k (by simp), hrest]

theorem policyRemove_spec {s : Kernel} (x : PcbPtr)
    (h : PoolRep s.pool A l) (ks : List QueueId) (hks : ∀ k ∈ ks, A k) :
    ∃ pool' l', policyRemove x s ks = some { s with pool := pool' } ∧
      PoolRep pool' A l' ∧ Without l l' x ks := by
  obtain ⟨pool', hrun, hrep⟩ := policyRemove_erase x h ks hks
  refine ⟨pool', _, hrun, hrep, ?_, ?_⟩
  · intro k hk y
    have hnd := LinkedPath.path_nodup (h.rep k (hks k hk)).path
    rw [if_pos hk, hnd.mem_erase_iff]
    exact and_comm
  · intro k hk
    exact if_neg hk

end

section

variable {p : SchedulerId} {s : Kernel} {A : QueueId → Prop} {l : QueueId → List PcbPtr}

theorem schedulerAdd_eq (hs : s.scheduler = some p) (hp : p ≠ .count) (x : PcbPtr) :
    schedulerAdd s x =
      { s with
        pool := queuePush s.pool (levelQueue p (s.pcb x).priority) x } := by
  cases p with
  | count => exact absurd rfl hp
  | _ => simp [schedulerAdd, hs, fcfsAdd, rrAdd, prioAdd, mlqAdd, policyAdd, levelQueue]

/-- What a policy resets when it hands out a process. -/
def resetTicks : SchedulerId → Kernel → Kernel
  | .rr, s => { s with rrCurrentTicks := 0 }
  | .priority, s => { s with prioCurrentTicks := 0 }
  | .mlq, s => { s with mlqLevelTicks := fun _ => 0 }
  | _, s => s

theorem schedulerNext_eq (hs : s.scheduler = some p) (hp : p ≠ .count) :
    schedulerNext s = policyNext s p (readyQueues p) (resetTicks p) := by
  unfold schedulerNext
  rw [hs]
  cases p with
  | count => exact absurd rfl hp
  | _ => rfl

theorem schedulerNext_spec (hs : s.scheduler = some p) (hp : p ≠ .count)
    (hA : ∀ k ∈ readyQueues p, A k) (h : PoolRep s.pool A l) :
    ((∀ k ∈ readyQueues p, l k = []) ∧ schedulerNext s = (none, s)) ∨
      ∃ before k after x xs pool stats rr prio mlq, readyQueues p = before ++ k :: after ∧
        (∀ k' ∈ before, l k' = []) ∧ l k = x :: xs ∧ schedulerNext s = (some x, { s with
            pool := pool
            stats := stats
            rrCurrentTicks := rr
            prioCurrentTicks := prio
            mlqLevelTicks := mlq }) ∧
        PoolRep pool A (update l k xs) := by
  rw [schedulerNext_eq hs hp]
  rcases popFirst_spec h (readyQueues p) hA with
    ⟨hnil, hrun⟩ | ⟨before, k, after, x, xs, pool, hks, hbefore, hlk, hrun, hrep⟩
  · exact .inl ⟨hnil, by simp only [policyNext, hrun]⟩
  right
  refine ⟨before, k, after, x, xs, pool, update s.stats p (bumpSwitches (s.stats p)),
    (resetTicks p s).rrCurrentTicks, (resetTicks p s).prioCurrentTicks,
    (resetTicks p s).mlqLevelTicks, hks, hbefore, hlk, ?_, hrep⟩
  simp only [policyNext, hrun]
  cases p <;> rfl

theorem schedulerRemove_spec (hs : s.scheduler = some p) (hp : p ≠ .count)
    (hA : ∀ k ∈ readyQueues p, A k) (h : PoolRep s.pool A l) (x : PcbPtr) :
    ∃ pool l', schedulerRemove s x = some { s with pool := pool } ∧
      PoolRep pool A l' ∧ Without l l' x (readyQueues p) := by
  have hperm : ∀ {l'} {ks : List QueueId},
      (∀ k, k ∈ ks ↔ k ∈ readyQueues p) → Without l l' x ks → Without l l' x (readyQueues p) :=
    fun he hw => ⟨fun k hk => hw.inside k ((he k).mpr hk),
      fun k hk => hw.outside k (fun hm => hk ((he k).mp hm))⟩
  cases p with
  | fcfs =>
    obtain ⟨pool, l', hrun, hrep, hwo⟩ := queueRemove_without h (hA .fcfs (by simp [readyQueues])) x
    exact ⟨pool, l', by simp [schedulerRemove, hs, fcfsRemove, hrun], hrep, hwo⟩
  | rr =>
    obtain ⟨pool, l', hrun, hrep, hwo⟩ := queueRemove_without h (hA .rr (by simp [readyQueues])) x
    exact ⟨pool, l', by simp [schedulerRemove, hs, rrRemove, hrun], hrep, hwo⟩
  | priority =>
    have he : ∀ k, k ∈ [QueueId.prio 0, .prio 1, .prio 2, .prio 3] ↔ k ∈ readyQueues .priority := by
      intro k
      simp only [readyQueues, List.mem_cons, List.not_mem_nil, or_false]
      tauto
    obtain ⟨pool, l', hrun, hrep, hwo⟩ := policyRemove_spec x h _ (fun k hk => hA k ((he k).mp hk))
    exact ⟨pool, l', by simp [schedulerRemove, hs, prioRemove, hrun], hrep, hperm he hwo⟩
  | mlq =>
    obtain ⟨pool, l', hrun, hrep, hwo⟩ := policyRemove_spec x h (readyQueues .mlq) hA
    refine ⟨pool, l', ?_, hrep, hwo⟩
    simp only [readyQueues] at hrun
    simp [schedulerRemove, hs, mlqRemove, hrun]
  | count => exact absurd rfl hp

end

/-! ### What the dispatcher leaves alone -/

theorem schedulerAdd_rest (s : Kernel) (x : PcbPtr) :
    ∃ pool, schedulerAdd s x = { s with pool := pool } := by
  unfold schedulerAdd
  split <;> exact ⟨_, rfl⟩

theorem policyRemove_rest {s s' : Kernel} {x : PcbPtr} (ks : List QueueId)
    (h : policyRemove x s ks = some s') : ∃ pool, s' = { s with pool := pool } := by
  induction ks with
  | nil => exact ⟨s.pool, (Option.some.inj h).symm⟩
  | cons k ks ih =>
    obtain ⟨found, _, h⟩ := Option.bind_eq_some_iff.mp h
    cases found with
    | false => exact ih h
    | true =>
      obtain ⟨pool, _, hs⟩ := Option.map_eq_some_iff.mp h
      exact ⟨pool, hs.symm⟩

theorem schedulerRemove_rest {s s' : Kernel} {x : PcbPtr} (h : schedulerRemove s x = some s') :
    ∃ pool, s' = { s with pool := pool } := by
  have hone : ∀ k, (queueRemove queueFuel s.pool k x).map
      (fun pool => { s with pool := pool }) = some s' → ∃ pool, s' = { s with pool := pool } := by
    intro k hk
    obtain ⟨pool, _, hs⟩ := Option.map_eq_some_iff.mp hk
    exact ⟨pool, hs.symm⟩
  unfold schedulerRemove at h
  split at h
  · exact hone .fcfs h
  · exact hone .rr h
  · exact policyRemove_rest _ h
  · exact policyRemove_rest _ h
  · exact ⟨s.pool, (Option.some.inj h).symm⟩

theorem policyNext_rest (s : Kernel) (p : SchedulerId) (ks : List QueueId) :
    ∃ pool stats rr prio mlq, (policyNext s p ks (resetTicks p)).2 =
      { s with
        pool := pool
        stats := stats
        rrCurrentTicks := rr
        prioCurrentTicks := prio
        mlqLevelTicks := mlq } := by
  unfold policyNext
  split
  · cases p <;> exact ⟨_, _, _, _, _, rfl⟩
  · exact ⟨_, _, _, _, _, rfl⟩

theorem schedulerNext_rest (s : Kernel) :
    ∃ pool stats rr prio mlq, (schedulerNext s).2 =
      { s with
        pool := pool
        stats := stats
        rrCurrentTicks := rr
        prioCurrentTicks := prio
        mlqLevelTicks := mlq } := by
  unfold schedulerNext
  split
  · exact policyNext_rest s .fcfs _
  · exact policyNext_rest s .rr _
  · exact policyNext_rest s .priority _
  · exact policyNext_rest s .mlq _
  · exact ⟨_, _, _, _, _, rfl⟩

theorem schedulerTick_rest (s : Kernel) :
    ∃ need stats rr prio mlq, schedulerTick s =
      { s with
        needResched := need
        stats := stats
        rrCurrentTicks := rr
        prioCurrentTicks := prio
        mlqLevelTicks := mlq } := by
  unfold schedulerTick
  split
  · unfold rrTick
    dsimp only
    split <;> exact ⟨_, _, _, _, _, rfl⟩
  · unfold prioTick
    dsimp only
    split <;> exact ⟨_, _, _, _, _, rfl⟩
  · unfold mlqTick
    dsimp only
    split <;> exact ⟨_, _, _, _, _, rfl⟩
  · exact ⟨_, _, _, _, _, rfl⟩

end AresOS.Process
