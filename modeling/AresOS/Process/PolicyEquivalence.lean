import AresOS.Process.FixedPolicy

/-!
# The two policies by priority

`mlq.c` and `priority.c` both keep four queues.  They number them in opposite
directions, cut off large priorities in different ways and scan the numbers in
opposite orders.  Both are compared to the same lists, indexed by rank: the
processes of rank 0 are handed out first.

`ByRank` says that the operations of a policy are the shared ones, on one
queue for each rank.  Such a policy answers every request as the ranked lists
do, so two of them cannot be told apart.
-/

namespace AresOS.Process

open Function

/-! ### The policy tables -/

/-- The functions of `scheduler_ops_t` that queue, hand out and count. -/
structure SchedulerOps where
  init : Kernel → Kernel
  add : Kernel → PcbPtr → Kernel
  remove : Kernel → PcbPtr → Option Kernel
  next : Kernel → Option PcbPtr × Kernel
  getStats : Kernel → SchedulerStats × Kernel

def priorityOps : SchedulerOps := ⟨prioInit, prioAdd, prioRemove, prioNext, prioGetStats⟩

def mlqOps : SchedulerOps := ⟨mlqInit, mlqAdd, mlqRemove, mlqNext, mlqGetStats⟩

inductive PolicyRequest where
  | add (x : PcbPtr)
  | remove (x : PcbPtr)
  | next
deriving DecidableEq

/-- What the caller sees of a request: the process handed out and the
`queue_depth` reported afterwards. -/
structure Seen where
  picked : Option PcbPtr
  depth : Nat
deriving DecidableEq

namespace SchedulerOps

def serve (ops : SchedulerOps) (s : Kernel) : PolicyRequest → Option (Option PcbPtr × Kernel)
  | .add x => some (none, ops.add s x)
  | .remove x => (ops.remove s x).map fun s => (none, s)
  | .next => some (ops.next s)

def depth (ops : SchedulerOps) (s : Kernel) : Nat := (ops.getStats s).1.queueDepth

/-- Serve a request and read the counters. -/
def step (ops : SchedulerOps) (s : Kernel) (q : PolicyRequest) : Option (Seen × Kernel) :=
  (ops.serve s q).map fun out => (⟨out.1, ops.depth out.2⟩, (ops.getStats out.2).2)

/-- Everything that is seen of a sequence of requests; `none` if one of them
does not return. -/
def observe (ops : SchedulerOps) : List PolicyRequest → Kernel → Option (List Seen)
  | [], _ => some []
  | q :: qs, s =>
    (ops.step s q).bind fun out => (ops.observe qs out.2).map fun seen => out.1 :: seen

end SchedulerOps

/-- The queued processes after a request that handed out `picked`. -/
def queuedAfter (w : Finset PcbPtr) : PolicyRequest → Option PcbPtr → Finset PcbPtr
  | .add x, _ => insert x w
  | .remove x, _ => w.erase x
  | .next, some x => w.erase x
  | .next, none => w

/-- Only processes that are not queued are added, `w` being queued now. -/
def SchedulerOps.AddsUnqueued (ops : SchedulerOps) :
    List PolicyRequest → Finset PcbPtr → Kernel → Prop
  | [], _, _ => True
  | q :: qs, w, s =>
    (∀ x, q = .add x → x ∉ w) ∧
      ∀ out ∈ ops.step s q, ops.AddsUnqueued qs (queuedAfter w q out.1.picked) out.2

instance (ops : SchedulerOps) : ∀ qs w s, Decidable (ops.AddsUnqueued qs w s)
  | [], _, _ => isTrue trivial
  | q :: qs, w, _ =>
    have : ∀ out : Seen × Kernel, Decidable
        (ops.AddsUnqueued qs (queuedAfter w q out.1.picked) out.2) :=
      fun out => instDecidableAddsUnqueued ops qs _ out.2
    inferInstanceAs (Decidable (_ ∧ _))

/-! ### Lists by rank -/

/-- The waiting processes of each rank. -/
abbrev Ranks := Fin 4 → List PcbPtr

namespace Ranks

/-- Take the head of the first list that is not empty. -/
def pick (r : Ranks) : List (Fin 4) → Option PcbPtr × Ranks
  | [] => (none, r)
  | i :: is =>
    match r i with
    | x :: xs => (some x, update r i xs)
    | [] => r.pick is

def depth (r : Ranks) : Nat := (∑ i, (r i).length) % 2 ^ 32

attribute [local instance] neZero_levels in
/-- The rank of a process is the level that `mlq.c` computes. -/
def serve (prio : PcbPtr → Nat) (r : Ranks) : PolicyRequest → Option PcbPtr × Ranks
  | .add x => (none, update r (mlqLevelOf (prio x)) (r (mlqLevelOf (prio x)) ++ [x]))
  | .remove x => (none, fun i => (r i).erase x)
  | .next => r.pick [0, 1, 2, 3]

end Ranks

/-- The policy keeps the queue `queueAt i` for the rank `i`; `all` is the order
in which it initialises, searches and counts its queues. -/
structure ByRank (ops : SchedulerOps) (queueAt : Fin 4 → QueueId) (all : List (Fin 4)) : Prop where
  injective : Injective queueAt
  complete : all.Perm [0, 1, 2, 3]
  init_pool : ∀ s, (ops.init s).pool = (all.map queueAt).foldl queueInit s.pool
  init_pcb : ∀ s, (ops.init s).pcb = s.pcb
  add : ∀ s x, ops.add s x = policyAdd s (queueAt (mlqLevelOf (s.pcb x).priority)) x
  remove : ∀ s x, ops.remove s x = policyRemove x s (all.map queueAt)
  next : ∃ id, ∀ s, ops.next s = policyNext s id ([0, 1, 2, 3].map queueAt) (resetTicks id)
  stats : ∃ id, ∀ s, ops.getStats s = policyGetStats s id (all.map queueAt)

theorem ByRank.next_fields {ops : SchedulerOps} {queueAt : Fin 4 → QueueId}
    {all : List (Fin 4)} (hops : ByRank ops queueAt all) (s : Kernel) :
    (ops.next s).1 = (popFirst s.pool ([0, 1, 2, 3].map queueAt)).1 ∧ (ops.next s).2.pool =
        (popFirst s.pool ([0, 1, 2, 3].map queueAt)).2 ∧ (ops.next s).2.pcb = s.pcb := by
  obtain ⟨id, hnext⟩ := hops.next
  rw [hnext, policyNext]
  rcases popFirst s.pool ([0, 1, 2, 3].map queueAt) with ⟨_ | x, pool⟩
  · exact ⟨rfl, rfl, rfl⟩
  · cases id <;> exact ⟨rfl, rfl, rfl⟩

theorem prioLevelOf_eq (n : Nat) : prioLevelOf n = (mlqLevelOf n).rev := by
  unfold mlqLevelOf priorityRealtime priorityHigh priorityNormal
  rcases n with _ | _ | _ | n
  · rfl
  · rfl
  · rfl
  · have hn : n + 1 + 1 + 1 ≥ 3 := by omega
    by_cases h0 : n = 0
    · subst h0
      rfl
    have hlarge : ¬ n + 1 + 1 + 1 < 4 := by omega
    rw [prioLevelOf, dif_neg hlarge]
    rfl

theorem mlqOps_byRank : ByRank mlqOps .mlq [0, 1, 2, 3] where
  injective _ _ h := QueueId.mlq.inj h
  complete := List.Perm.refl _
  init_pool _ := rfl
  init_pcb _ := rfl
  add _ _ := rfl
  remove _ _ := rfl
  next := ⟨.mlq, fun _ => rfl⟩
  stats := ⟨.mlq, fun _ => rfl⟩

theorem priorityOps_byRank : ByRank priorityOps (fun i => .prio i.rev) [3, 2, 1, 0] where
  injective _ _ h := Fin.rev_injective (QueueId.prio.inj h)
  complete := by decide
  init_pool _ := rfl
  init_pcb _ := rfl
  add s x := by
    rw [← prioLevelOf_eq]
    rfl
  remove _ _ := rfl
  next := ⟨.priority, fun _ => rfl⟩
  stats := ⟨.priority, fun _ => rfl⟩

/-! ### Both policies keep the ranked lists -/

/-- The queues of the ranks hold the lists `r`. -/
structure Ranked (queueAt : Fin 4 → QueueId) (prio : PcbPtr → Nat) (s : Kernel) (r : Ranks) :
    Prop where
  priority : ∀ x, (s.pcb x).priority = prio x
  rep : ∃ l, PoolRep s.pool (fun k => ∃ i, queueAt i = k) l ∧ ∀ i, l (queueAt i) = r i

/-- The lists `r` hold the processes `w`, each of them once. -/
structure Ranks.Lists (r : Ranks) (w : Finset PcbPtr) : Prop where
  nodup : ∀ i, (r i).Nodup
  apart : ∀ i j x, x ∈ r i → x ∈ r j → i = j
  mem : ∀ x, x ∈ w ↔ ∃ i, x ∈ r i

section

variable {ops : SchedulerOps} {queueAt : Fin 4 → QueueId}
  {all : List (Fin 4)} {prio : PcbPtr → Nat} {s : Kernel} {r : Ranks}

theorem ByRank.init_ranked (hops : ByRank ops queueAt all)
    (hprio : ∀ x, (s.pcb x).priority = prio x) : Ranked queueAt prio (ops.init s) fun _ => [] := by
  refine ⟨fun x => by rw [hops.init_pcb, hprio], fun _ => [], ?_, fun _ => rfl⟩
  rw [hops.init_pool]
  apply foldl_queueInit_rep
  rintro k ⟨i, rfl⟩
  refine List.mem_map_of_mem (hops.complete.mem_iff.mpr ?_)
  revert i
  decide

theorem ByRank.depth_eq (hops : ByRank ops queueAt all) (h : Ranked queueAt prio s r) :
    ops.depth s = r.depth := by
  obtain ⟨l, hrep, hl⟩ := h.rep
  obtain ⟨id, hstats⟩ := hops.stats
  have hcount : ∀ i, (s.pool.queue (queueAt i)).count = (r i).length := by
    intro i
    rw [← hl i]
    exact (hrep.rep _ ⟨i, rfl⟩).count
  have hsum : (all.map fun i => (r i).length).sum = ∑ i, (r i).length := by
    rw [(hops.complete.map _).sum_eq, Fin.sum_univ_four]
    simp [add_assoc]
  unfold SchedulerOps.depth Ranks.depth
  rw [hstats, ← hsum]
  simp [policyGetStats, Kernel.setStats, comp_def, hcount]

theorem ByRank.stats_ranked (hops : ByRank ops queueAt all) (h : Ranked queueAt prio s r) :
    Ranked queueAt prio (ops.getStats s).2 r := by
  obtain ⟨id, hstats⟩ := hops.stats
  rw [hstats]
  exact ⟨h.priority, h.rep⟩

theorem update_ranks {l : QueueId → List PcbPtr}
    (hinj : Injective queueAt) (hl : ∀ i, l (queueAt i) = r i)
    (i : Fin 4) (xs : List PcbPtr) (j : Fin 4) :
    update l (queueAt i) xs (queueAt j) = update r i xs j := by
  by_cases he : j = i
  · subst he
    simp
  · grind

theorem popFirst_ranked (hinj : Injective queueAt)
    (h : Ranked queueAt prio s r) (is : List (Fin 4)) :
    (popFirst s.pool (is.map queueAt)).1 = (r.pick is).1 ∧
      ∃ l, PoolRep (popFirst s.pool (is.map queueAt)).2 (fun k => ∃ i, queueAt i = k) l ∧
        ∀ i, l (queueAt i) = (r.pick is).2 i := by
  obtain ⟨l, hrep, hl⟩ := h.rep
  induction is with
  | nil => exact ⟨rfl, l, hrep, hl⟩
  | cons i is ih =>
    have hA : ∃ j, queueAt j = queueAt i := ⟨i, rfl⟩
    cases hri : r i with
    | nil =>
      have hpop := queuePop_nil hrep hA ((hl i).trans hri)
      simpa only [List.map_cons, popFirst, hpop, Ranks.pick, hri] using ih
    | cons x xs =>
      obtain ⟨hsome, hrep', -⟩ := queuePop_cons hrep hA ((hl i).trans hri)
      have hpair : queuePop s.pool (queueAt i) = (some x, (queuePop s.pool (queueAt i)).2) := by
        rw [← hsome]
      rw [List.map_cons, popFirst, hpair, Ranks.pick, hri]
      exact ⟨rfl, _, hrep', update_ranks hinj hl i xs⟩

theorem ByRank.serve_ranked (hops : ByRank ops queueAt all)
    (h : Ranked queueAt prio s r) {q : PolicyRequest} (hq : ∀ x, q = .add x → ∀ i, x ∉ r i) :
    ∃ s', ops.serve s q = some ((r.serve prio q).1, s') ∧
      Ranked queueAt prio s' (r.serve prio q).2 := by
  obtain ⟨l, hrep, hl⟩ := h.rep
  cases q with
  | add x =>
    refine ⟨_, rfl, ?_⟩
    rw [hops.add, h.priority]
    refine ⟨h.priority, _, queuePush_rep hrep ⟨_, rfl⟩ ?_, ?_⟩
    · grind
    · intro i
      rw [hl]
      exact update_ranks hops.injective hl _ _ i
  | remove x =>
    have hmem : ∀ i, queueAt i ∈ all.map queueAt := by
      intro i
      refine List.mem_map_of_mem (hops.complete.mem_iff.mpr ?_)
      revert i
      decide
    obtain ⟨pool, hrun, hrep'⟩ :=
      policyRemove_erase x hrep (all.map queueAt) (by
        intro k hk
        obtain ⟨i, -, rfl⟩ := List.mem_map.mp hk
        exact ⟨i, rfl⟩)
    refine ⟨{ s with pool := pool }, ?_, h.priority, _, hrep', ?_⟩
    · rw [SchedulerOps.serve, hops.remove, hrun]
      rfl
    · intro i
      rw [if_pos (hmem i), hl]
      rfl
  | next =>
    obtain ⟨hfirst, hrest⟩ := popFirst_ranked hops.injective h [0, 1, 2, 3]
    obtain ⟨hpicked, hpool, hpcb⟩ := hops.next_fields s
    refine ⟨(ops.next s).2, ?_, ?_, ?_⟩
    · rw [SchedulerOps.serve, Ranks.serve, ← hfirst, ← hpicked]
    · intro x
      rw [hpcb]
      exact h.priority x
    · rwa [hpool]

end

section

variable {r : Ranks} {w : Finset PcbPtr}

theorem Ranks.Lists.pick (h : r.Lists w) (is : List (Fin 4)) :
    (r.pick is).2.Lists (queuedAfter w .next (r.pick is).1) := by
  induction is with
  | nil => exact h
  | cons i is ih =>
    cases hri : r i with
    | nil => simpa only [Ranks.pick, hri] using ih
    | cons x xs =>
      have hnd := h.nodup i
      rw [hri, List.nodup_cons] at hnd
      have hother : ∀ j y, j ≠ i → y ∈ r j → y ≠ x := by
        intro j y hji hy hyx
        exact hji (h.apart j i y hy (by simp [hri, hyx]))
      have hsub : ∀ j y, y ∈ update r i xs j → y ∈ r j := by grind
      simp only [Ranks.pick, hri, queuedAfter]
      refine ⟨?_, ?_, ?_⟩
      · intro j
        by_cases he : j = i
        · subst he
          simpa using hnd.2
        · rw [update_of_ne he]
          exact h.nodup j
      · intro j k y hj hk
        exact h.apart j k y (hsub j y hj) (hsub k y hk)
      · intro y
        rw [Finset.mem_erase, h.mem]
        constructor
        · grind
        · grind

theorem Ranks.Lists.serve (h : r.Lists w) (prio : PcbPtr → Nat) {q : PolicyRequest}
    (hq : ∀ x, q = .add x → x ∉ w) :
    (r.serve prio q).2.Lists (queuedAfter w q (r.serve prio q).1) := by
  cases q with
  | add x =>
    have hx : ∀ i, x ∉ r i := fun i hi => hq x rfl ((h.mem x).mpr ⟨i, hi⟩)
    have hmem : ∀ j y, y ∈ (r.serve prio (.add x)).2 j ↔
        y ∈ r j ∨ (y = x ∧ j = mlqLevelOf (prio x)) := by
      intro j y
      by_cases he : j = mlqLevelOf (prio x)
      · subst he
        simp [Ranks.serve]
      · simp [Ranks.serve, he]
    refine ⟨?_, ?_, ?_⟩
    · intro j
      by_cases he : j = mlqLevelOf (prio x)
      · subst he
        simpa [Ranks.serve, List.nodup_append] using ⟨h.nodup _, fun y hy hyx => hx _ (hyx ▸ hy)⟩
      · simpa [Ranks.serve, he] using h.nodup j
    · intro j k y hj hk
      rcases (hmem j y).mp hj with hj | ⟨hyj, hj⟩
      · rcases (hmem k y).mp hk with hk | ⟨hyk, -⟩
        · exact h.apart j k y hj hk
        · exact absurd (hyk ▸ hj) (hx j)
      · grind
    · intro y
      rw [queuedAfter, Finset.mem_insert, h.mem]
      simp only [hmem, exists_or, exists_and_left, exists_eq, and_true]
      exact or_comm
  | remove x =>
    refine ⟨fun i => (h.nodup i).erase x, ?_, ?_⟩
    · intro i j y hi hj
      exact h.apart i j y (List.mem_of_mem_erase hi) (List.mem_of_mem_erase hj)
    · intro y
      simp [queuedAfter, h.mem, Ranks.serve, (h.nodup _).mem_erase_iff, exists_and_left]
  | next => exact h.pick [0, 1, 2, 3]

end

section

variable {ops ops' : SchedulerOps} {queueAt queueAt' : Fin 4 → QueueId}
  {all all' : List (Fin 4)} {prio : PcbPtr → Nat} {s s' : Kernel} {r : Ranks} {w : Finset PcbPtr}

theorem ByRank.step_ranked (hops : ByRank ops queueAt all)
    (h : Ranked queueAt prio s r) (hw : r.Lists w) {q : PolicyRequest}
    (hq : ∀ x, q = .add x → x ∉ w) :
    ∃ s', ops.step s q =
        some (⟨(r.serve prio q).1, (r.serve prio q).2.depth⟩, s') ∧
      Ranked queueAt prio s' (r.serve prio q).2 := by
  obtain ⟨s', hserve, hranked⟩ := hops.serve_ranked h (q := q)
    fun x hx i hi => hq x hx ((hw.mem x).mpr ⟨i, hi⟩)
  refine ⟨(ops.getStats s').2, ?_, hops.stats_ranked hranked⟩
  simp [SchedulerOps.step, hserve, hops.depth_eq hranked]

theorem ByRank.observe_same (hops : ByRank ops queueAt all)
    (hops' : ByRank ops' queueAt' all') (h : Ranked queueAt prio s r)
    (h' : Ranked queueAt' prio s' r) (hw : r.Lists w) {qs : List PolicyRequest}
    (hqs : ops.AddsUnqueued qs w s) :
    ∃ seen, ops.observe qs s = some seen ∧ ops'.observe qs s' = some seen := by
  induction qs generalizing s s' r w with
  | nil => exact ⟨[], rfl, rfl⟩
  | cons q qs ih =>
    obtain ⟨hadd, hrest⟩ := hqs
    obtain ⟨s₁, hstep, hranked⟩ := hops.step_ranked h hw hadd
    obtain ⟨s₂, hstep', hranked'⟩ := hops'.step_ranked h' hw hadd
    obtain ⟨seen, hseen, hseen'⟩ := ih hranked hranked' (hw.serve prio hadd) (hrest _ hstep)
    refine ⟨⟨(r.serve prio q).1, (r.serve prio q).2.depth⟩ :: seen, ?_, ?_⟩
    · rw [SchedulerOps.observe, hstep, Option.bind_some, hseen]
      rfl
    · rw [SchedulerOps.observe, hstep', Option.bind_some, hseen']
      rfl

/-- From `init` on, MLQ and Priority hand out the same processes and report
the same depth. -/
theorem mlq_priority_same (s s' : Kernel) (hprio : ∀ x, (s'.pcb x).priority = (s.pcb x).priority)
    (qs : List PolicyRequest) (hqs : mlqOps.AddsUnqueued qs ∅ (mlqOps.init s)) :
    mlqOps.depth (mlqOps.init s) = priorityOps.depth (priorityOps.init s') ∧
      ∃ seen, mlqOps.observe qs (mlqOps.init s) = some seen ∧
        priorityOps.observe qs (priorityOps.init s') = some seen := by
  have h := mlqOps_byRank.init_ranked (s := s) fun _ => rfl
  have h' := priorityOps_byRank.init_ranked hprio
  have hempty : Ranks.Lists (fun _ => []) ∅ := ⟨by simp, by simp, by simp⟩
  constructor
  · rw [mlqOps_byRank.depth_eq h, priorityOps_byRank.depth_eq h']
  · exact mlqOps_byRank.observe_same priorityOps_byRank h h' hempty hqs

/-- A process table in which the priority of a process is its index. -/
def indexedKernel : Kernel :=
  { zeroKernel with pcb := fun x => { zeroKernel.pcb x with priority := x.val } }

attribute [local instance] neZero_pcbs in
/-- Removal from the middle, an out-of-range priority and an empty pick. -/
def mixedRequests : List PolicyRequest :=
  [.add 2, .add 9, .add 3, .remove 9, .add 1, .next, .next, .next, .next]

theorem mlq_priority_same_mixed :
    ∃ seen, mlqOps.observe mixedRequests (mlqOps.init indexedKernel) =
        some seen ∧ seen.map Seen.picked =
        [none, none, none, none, none, some 3, some 2, some 1, none] := by
  have hqs : mlqOps.AddsUnqueued mixedRequests ∅ (mlqOps.init indexedKernel) := by
    decide +kernel
  obtain ⟨-, seen, hseen, hseen'⟩ :=
    mlq_priority_same indexedKernel indexedKernel (fun _ => rfl) mixedRequests hqs
  refine ⟨seen, hseen, ?_⟩
  have hrun : (priorityOps.observe mixedRequests
      (priorityOps.init indexedKernel)).map (List.map Seen.picked) =
        some [none, none, none, none, none, some 3, some 2, some 1, none] := by
    decide +kernel
  rw [hseen'] at hrun
  exact Option.some.inj hrun

end

end AresOS.Process
