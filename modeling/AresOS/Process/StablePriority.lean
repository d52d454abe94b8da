import AresOS.Lib.StableQueue
import AresOS.Process.PolicyEquivalence

/-!
# The priority policy as a stable queue

`priority.c` keeps a queue for each of its four levels.  The calls made since
`prio_init` are recorded as events, with the priority that a process has when
it is added; `waiting` reads off them which processes are queued, the first
added first.  The four queues hold the waiting processes level by level, so
`prio_next` hands out the first added of those with the highest priority, where
priorities from 3 on count as 3.
-/

namespace AresOS.Process

open StableQueue Function

inductive PrioEvent where
  | added (x : PcbPtr) (priority : Nat)
  | removed (x : PcbPtr)
  | returned (picked : Option PcbPtr)
deriving DecidableEq, Repr

/-- The waiting processes without `x`. -/
def withoutProcess (w : List (PcbPtr × Nat)) (x : PcbPtr) : List (PcbPtr × Nat) :=
  w.filter fun e => e.1 ≠ x

def waitingAfter (w : List (PcbPtr × Nat)) : PrioEvent → List (PcbPtr × Nat)
  | .added x priority => w ++ [(x, priority)]
  | .removed x => withoutProcess w x
  | .returned (some x) => withoutProcess w x
  | .returned none => w

/-- The processes added and not since removed or returned, with the priority
at which they were added, in the order of addition. -/
def waiting (events : List PrioEvent) : List (PcbPtr × Nat) := events.foldl waitingAfter []

def IsWaiting (events : List PrioEvent) (x : PcbPtr) : Prop := x ∈ (waiting events).map Prod.fst

instance (events : List PrioEvent) (x : PcbPtr) : Decidable (IsWaiting events x) :=
  inferInstanceAs (Decidable (x ∈ (waiting events).map Prod.fst))

/-- The calls after `prio_init`.  Only processes that are not queued are
added; between the calls priorities may be changed. -/
inductive PrioRun (s₀ : Kernel) : List PrioEvent → Kernel → Prop
  | init : PrioRun s₀ [] (prioInit s₀)
  | setPriority {events : List PrioEvent} {s : Kernel}
      (x : PcbPtr) (priority : Nat) (run : PrioRun s₀ events s) :
      PrioRun s₀ events (s.setPcb x fun b => { b with priority := priority })
  | add {events : List PrioEvent} {s : Kernel}
      (x : PcbPtr) (hx : ¬ IsWaiting events x) (run : PrioRun s₀ events s) :
      PrioRun s₀ (events ++ [.added x (s.pcb x).priority]) (prioAdd s x)
  | remove {events : List PrioEvent} {s s' : Kernel} (x : PcbPtr) (run : PrioRun s₀ events s)
      (hs : prioRemove s x = some s') : PrioRun s₀ (events ++ [.removed x]) s'
  | next {events : List PrioEvent} {s : Kernel} (run : PrioRun s₀ events s) :
      PrioRun s₀ (events ++ [.returned (prioNext s).1]) (prioNext s).2

def prioRank (e : PcbPtr × Nat) : Nat := min e.2 3

theorem val_prioLevelOf (priority : Nat) : (prioLevelOf priority).val = min priority 3 := by
  unfold prioLevelOf
  split
  · simp only
    omega
  · omega

/-! ### The lists of the four queues -/

def IsPrio (k : QueueId) : Prop := ∃ i, k = .prio i

def prioLists (w : List (PcbPtr × Nat)) : QueueId → List PcbPtr
  | .prio i => (bucket prioRank w i.val).map Prod.fst
  | _ => []

/-- The queues of the policy hold the waiting processes. -/
structure PrioHolds (s : Kernel) (w : List (PcbPtr × Nat)) : Prop where
  nodup : (w.map Prod.fst).Nodup
  rep : PoolRep s.pool IsPrio (prioLists w)

section

variable {w : List (PcbPtr × Nat)} {x : PcbPtr}

theorem mem_prioLists {i : Fin 4} :
    x ∈ prioLists w (.prio i) ↔ ∃ priority, (x, priority) ∈ w ∧ min priority 3 = i.val := by
  simp [prioLists, mem_bucket, prioRank]

theorem not_mem_prioLists (hx : x ∉ w.map Prod.fst) (k : QueueId) : x ∉ prioLists w k := by
  cases k with
  | prio i =>
    intro hm
    obtain ⟨priority, hmem, -⟩ := mem_prioLists.mp hm
    exact hx (List.mem_map_of_mem hmem)
  | _ => simp [prioLists]

theorem prioLists_concat (w : List (PcbPtr × Nat)) (x : PcbPtr) (priority : Nat) :
    prioLists (w ++ [(x, priority)]) = update (prioLists w) (.prio (prioLevelOf priority))
        (prioLists w (.prio (prioLevelOf priority)) ++ [x]) := by
  funext k
  cases k with
  | prio i =>
    have hrank : prioRank (x, priority) = i.val ↔ i = prioLevelOf priority := by
      rw [prioRank, ← val_prioLevelOf, ← Fin.ext_iff, eq_comm]
    by_cases hi : i = prioLevelOf priority
    · have hrank' := hrank.mpr hi
      subst hi
      simp [prioLists, bucket_concat, hrank']
    · have hne : QueueId.prio i ≠ .prio (prioLevelOf priority) := fun he => hi (QueueId.prio.inj he)
      simp [prioLists, bucket_concat, hrank, hi]
  | _ => simp [prioLists]

theorem prioLists_without (hw : (w.map Prod.fst).Nodup) (x : PcbPtr) (k : QueueId) :
    prioLists (withoutProcess w x) k = (prioLists w k).erase x := by
  cases k with
  | prio i =>
    have hsub : (bucket prioRank w i.val).Sublist w := List.filter_sublist
    have hnd : (prioLists w (.prio i)).Nodup := hw.sublist (hsub.map Prod.fst)
    rw [hnd.erase_eq_filter, prioLists, prioLists, withoutProcess, bucket_filter, List.filter_map]
    congr 1
    apply List.filter_congr
    intro e _
    rw [comp_apply, Bool.eq_iff_iff]
    simp
  | _ => simp [prioLists]

theorem nodup_without (hw : (w.map Prod.fst).Nodup) (x : PcbPtr) :
    ((withoutProcess w x).map Prod.fst).Nodup := hw.sublist (List.filter_sublist.map Prod.fst)

end

/-! ### The operations -/

section

variable {s s' : Kernel} {w : List (PcbPtr × Nat)} {x : PcbPtr}

theorem prioInit_holds (s : Kernel) : PrioHolds (prioInit s) [] := by
  refine ⟨List.nodup_nil, ?_⟩
  have hempty : prioLists [] = fun _ => [] := by
    funext k
    cases k <;> rfl
  rw [hempty]
  apply foldl_queueInit_rep
  rintro k ⟨i, rfl⟩
  revert i
  decide

theorem PrioHolds.add (h : PrioHolds s w) (hx : x ∉ w.map Prod.fst) :
    PrioHolds (prioAdd s x) (w ++ [(x, (s.pcb x).priority)]) := by
  constructor
  · rw [List.map_append, List.nodup_append]
    refine ⟨h.nodup, by simp, ?_⟩
    intro y hy z hz hyz
    obtain rfl : z = x := by simpa using hz
    exact hx (hyz ▸ hy)
  · rw [prioLists_concat]
    exact queuePush_rep h.rep ⟨_, rfl⟩ fun k _ => not_mem_prioLists hx k

theorem isPrio_of_mem {k : QueueId} (hk : k ∈ [QueueId.prio 0, .prio 1, .prio 2, .prio 3]) :
    IsPrio k := by
  simp only [List.mem_cons, List.not_mem_nil, or_false] at hk
  rcases hk with rfl | rfl | rfl | rfl <;> exact ⟨_, rfl⟩

theorem PrioHolds.remove (h : PrioHolds s w) (x : PcbPtr) :
    ∃ s', prioRemove s x = some s' ∧ PrioHolds s' (withoutProcess w x) := by
  obtain ⟨pool, hrun, hrep⟩ := policyRemove_erase x h.rep _ fun _ hk => isPrio_of_mem hk
  refine ⟨_, hrun, nodup_without h.nodup x, ?_⟩
  convert hrep using 1
  funext k
  rw [prioLists_without h.nodup]
  cases k with
  | prio i =>
    rw [if_pos]
    revert i
    decide
  | _ => simp [prioLists]

theorem PrioHolds.remove_absent (h : PrioHolds s w) (hx : x ∉ w.map Prod.fst) :
    prioRemove s x = some s :=
  policyRemove_absent h.rep _ (fun _ hk => isPrio_of_mem hk) fun k _ => not_mem_prioLists hx k

theorem prio_mem (i : Fin 4) : QueueId.prio i ∈ readyQueues .priority := by
  revert i
  decide

theorem scanned_before {before after : List QueueId} {i j : Fin 4}
    (hks : readyQueues .priority = before ++ .prio i :: after) (hij : i < j) :
    QueueId.prio j ∈ before := by
  have hscan : (readyQueues .priority).Pairwise fun k k' =>
      ∀ i j, k = .prio i → k' = .prio j → j < i := by
    simp [readyQueues]
  have hj := prio_mem j
  rw [hks] at hscan hj
  rcases List.mem_append.mp hj with hj | hj
  · exact hj
  rcases List.mem_cons.mp hj with he | hj
  · exact absurd (QueueId.prio.inj he) (ne_of_gt hij)
  have hpair := (List.pairwise_append.mp hscan).2.1
  have hlt := (List.pairwise_cons.mp hpair).1 _ hj i j rfl rfl
  exact absurd hij (not_lt_of_gt hlt)

theorem prioNext_eq (s : Kernel) :
    prioNext s = match popFirst s.pool (readyQueues .priority) with
      | (some p, pool) =>
        (some p, { { s with pool := pool }.setStats .priority bumpSwitches with
          prioCurrentTicks := 0 })
      | (none, pool) => (none, { s with pool := pool }) := rfl

theorem PrioHolds.next (h : PrioHolds s w) :
    (w = [] ∧ prioNext s = (none, s)) ∨
      ∃ x priority, IsNext prioRank w (x, priority) ∧ (prioNext s).1 = some x ∧
        PrioHolds (prioNext s).2 (withoutProcess w x) := by
  have hprio : ∀ k ∈ readyQueues .priority, IsPrio k := by
    intro k hk
    simp only [readyQueues, List.mem_cons, List.not_mem_nil, or_false] at hk
    rcases hk with rfl | rfl | rfl | rfl <;> exact ⟨_, rfl⟩
  have hnext := prioNext_eq s
  have hrank : ∀ e : PcbPtr × Nat, prioRank e = (prioLevelOf e.2).val :=
    fun e => (val_prioLevelOf e.2).symm
  have hlevel : ∀ e ∈ w, e.1 ∈ prioLists w (.prio (prioLevelOf e.2)) :=
    fun e he => mem_prioLists.mpr ⟨e.2, he, hrank e⟩
  rcases popFirst_spec h.rep (readyQueues .priority) hprio with
    ⟨hnil, hrun⟩ | ⟨before, k, after, x, xs, pool, hks, hbefore, hlk, hrun, hrep⟩
  · left
    constructor
    · apply List.eq_nil_iff_forall_not_mem.mpr
      intro e he
      have hm := hlevel e he
      rw [hnil _ (prio_mem _)] at hm
      simp at hm
    · simp [hnext, hrun]
  right
  obtain ⟨i, rfl⟩ := hprio k (by rw [hks]; simp)
  obtain ⟨e, es, hbucket, rfl, hes⟩ := List.map_eq_cons_iff.mp hlk
  have htop : ∀ y ∈ w, prioRank y ≤ i.val := by
    intro y hy
    by_contra hlt
    rw [hrank, not_le] at hlt
    have hm := hlevel y hy
    rw [hbefore _ (scanned_before hks hlt)] at hm
    simp at hm
  refine ⟨e.1, e.2, isNext_of_bucket hbucket htop, ?_, nodup_without h.nodup _, ?_⟩
  · simp [hnext, hrun]
  · have hpool : (prioNext s).2.pool = pool := by
      simp [hnext, hrun, Kernel.setStats]
    convert hrep using 1
    funext k
    rw [prioLists_without h.nodup]
    by_cases hk : k = .prio i
    · grind
    rw [update_of_ne hk]
    apply List.erase_of_not_mem
    intro hm
    cases k with
    | prio j =>
      have he : e.1 ∈ prioLists w (.prio i) := by rw [hlk]; simp
      exact h.rep.apart (.prio j) (.prio i) ⟨j, rfl⟩ ⟨i, rfl⟩ hk _ hm he
    | _ => simp [prioLists] at hm

end

/-! ### Runs -/

theorem PrioRun.holds {s₀ s : Kernel} {events : List PrioEvent} (run : PrioRun s₀ events s) :
    PrioHolds s (waiting events) := by
  induction run with
  | init => exact prioInit_holds s₀
  | setPriority x priority run ih => exact ⟨ih.nodup, ih.rep⟩
  | add x hx run ih =>
    rw [waiting, List.foldl_append]
    exact ih.add hx
  | remove x run hs ih =>
    obtain ⟨s'', hrun, hholds⟩ := ih.remove x
    obtain rfl := Option.some.inj (hs.symm.trans hrun)
    rwa [waiting, List.foldl_append]
  | next run ih =>
    rw [waiting, List.foldl_append]
    rcases ih.next with ⟨-, hrun⟩ | ⟨x, priority, -, hpicked, hholds⟩
    · rwa [hrun]
    · rwa [hpicked]

/-- After any calls: `prio_next` returns the first added of the waiting
processes with the highest priority, and `NULL` exactly when none is waiting;
`prio_remove` returns, and changes nothing if the process is not queued. -/
theorem prio_stable_queue {s₀ s : Kernel} {events : List PrioEvent} (run : PrioRun s₀ events s) :
    (∀ x, (prioNext s).1 = some x ↔ ∃ priority, IsNext prioRank (waiting events) (x, priority)) ∧
    ((prioNext s).1 = none ↔ waiting events = []) ∧
    ∀ x, ∃ s', prioRemove s x = some s' ∧ (¬ IsWaiting events x → s' = s) := by
  have h := run.holds
  refine ⟨?_, ?_, ?_⟩
  · intro x
    rcases h.next with ⟨hnil, hrun⟩ | ⟨y, priority, hnext, hpicked, -⟩
    · rw [hrun, hnil]
      constructor
      · intro he
        cases he
      · rintro ⟨priority, hnext⟩
        exact absurd hnext.mem List.not_mem_nil
    rw [hpicked]
    constructor
    · rintro he
      obtain rfl := Option.some.inj he
      exact ⟨priority, hnext⟩
    · rintro ⟨priority', hnext'⟩
      exact congrArg some (Prod.mk.inj (hnext.unique hnext')).1
  · rcases h.next with ⟨hnil, hrun⟩ | ⟨y, priority, hnext, hpicked, -⟩
    · simp [hrun, hnil]
    · rw [hpicked]
      have hne : waiting events ≠ [] := List.ne_nil_of_mem hnext.mem
      simp [hne]
  · intro x
    by_cases hx : IsWaiting events x
    · obtain ⟨s', hrun, -⟩ := h.remove x
      exact ⟨s', hrun, fun hn => absurd hx hn⟩
    · exact ⟨s, h.remove_absent hx, fun _ => rfl⟩

/-- Priorities 9 and 3 count alike; the process added first leaves the middle
of its queue, and the other one is next. -/
theorem prio_stable_queue_clamped :
    ∃ s s', PrioRun indexedKernel [.added 2 2, .added 9 9, .added 3 3] s ∧ (prioNext s).1 = some 9 ∧
      PrioRun indexedKernel [.added 2 2, .added 9 9, .added 3 3, .removed 9] s' ∧
      (prioNext s').1 = some 3 := by
  have run := PrioRun.add 3 (by decide)
    (.add 9 (by decide) (.add 2 (by decide) (@PrioRun.init indexedKernel)))
  obtain ⟨hnext, -, hremove⟩ := prio_stable_queue run
  obtain ⟨s', hs', -⟩ := hremove 9
  have run' := PrioRun.remove 9 run hs'
  refine ⟨_, s', run, (hnext 9).mpr ?_, run', ?_⟩
  · exact ⟨9, [(2, 2)], [(3, 3)], rfl, by decide, by decide⟩
  · exact ((prio_stable_queue run').1 3).mpr ⟨3, [(2, 2)], [], rfl, by decide, by decide⟩

end AresOS.Process
