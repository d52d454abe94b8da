import AresOS.Process.ReadySteps

/-!
# Process operations and the ready-queue invariant

What `process_create`, `yield`, `process_exit` and `process_kill` do to a state
that satisfies the ready-queue invariant.  Besides the invariant, each lemma
says which active processes stay active, and for the two functions that switch
it names the process switched to.
-/

namespace AresOS.Process

open Function

/-! ### Operations -/

/-- The control block of a new process, before `scheduler_add`. -/
def createdPcb (s : Kernel) (x : PcbPtr) (name : List UInt8) (priority : Nat) : Pcb :=
  let base := s.stackArea + BitVec.ofNat 64 (x.val * stackSize + stackSize)
  { freshPcb (s.pcb x) base with
    pid := s.nextPid
    name := copyName name
    priority := priority
    state := .ready
    rsp := base - 56 }

/-- The state of `process_create` before `scheduler_add`. -/
def created (s : Kernel) (x : PcbPtr) (name : List UInt8) (entry priority : Nat) : Kernel :=
  let base := s.stackArea + BitVec.ofNat 64 (x.val * stackSize + stackSize)
  { s with
    slotFreeMap := markSlotUsed s.slotFreeMap x.val
    pcb := update s.pcb x (createdPcb s x name priority)
    pool := s.pool.setNext x none
    nextPid := (s.nextPid + 1) % 2 ^ 32
    stack := initialFrame s.stack base entry }

theorem processCreate_cases (s : Kernel) (name : List UInt8) (entry priority : Nat) :
    (findFreeSlot s.slotFreeMap = none ∧ processCreate s name entry priority = (none, s)) ∨
      ∃ x : PcbPtr, findFreeSlot s.slotFreeMap = some x.val ∧ processCreate s name entry priority =
          (some x,
            { schedulerAdd (created s x name entry priority) x with
              processCount :=
                ((schedulerAdd (created s x name entry priority) x).processCount
                  + 1) % 2 ^ 32 }) := by
  cases hslot : findFreeSlot s.slotFreeMap with
  | none =>
    left
    exact ⟨rfl, by simp [processCreate, pcbAlloc, hslot]⟩
  | some i =>
    right
    obtain ⟨hi, _⟩ := findFreeSlot_some hslot
    refine ⟨⟨i, hi⟩, rfl, ?_⟩
    have hptr : Fin.ofNat 64 i = (⟨i, hi⟩ : PcbPtr) := Fin.ext (Nat.mod_eq_of_lt hi)
    simp only [processCreate, pcbAlloc, hslot, hptr, Kernel.setPcb,
      update_self, update_idem, created, createdPcb, freshPcb]

section

variable {A : QueueId → Prop} {p : SchedulerId} {out : Option PcbPtr}
  {s : Kernel} {l : QueueId → List PcbPtr}

variable {x cur : PcbPtr} {k : QueueId}

theorem PoolRep.setNext_outside {pool : Pool PcbPtr QueueId}
    (h : PoolRep pool A l) (hx : ∀ k, A k → x ∉ l k) (q : Option PcbPtr) :
    PoolRep (pool.setNext x q) A l where
  rep k hA := by
    refine (h.rep k hA).congr fun y hy => ?_
    have hne : y ≠ x := fun he => hx k hA (he ▸ hy)
    exact update_of_ne hne _ _
  apart := h.apart

theorem processCreate_inv (h : ReadyInv A p out s l) (hp : p ≠ .count)
    (hrun : s.halted = false) (name : List UInt8) (entry priority : Nat) :
    ∃ l', ReadyInv A p out (processCreate s name entry priority).2 l' ∧
      (processCreate s name entry priority).2.current = s.current ∧
      (processCreate s name entry priority).2.halted = false ∧
      (∀ y, Survives s (processCreate s name entry priority).2 y) ∧ ∀ y, Queued p l' y →
        Queued p l y ∨ (processCreate s name entry priority).1 = some y := by
  rcases processCreate_cases s name entry priority with
    ⟨_, hnone⟩ | ⟨x, hslot, hsome⟩
  · rw [hnone]
    exact ⟨l, h, rfl, hrun, fun y hy => ⟨hy, rfl, rfl⟩, fun y hy => .inl hy⟩
  have hterm := h.free x (findFreeSlot_some hslot).2
  have hnot : ¬ (s.pcb x).state.Active := by
    rw [hterm]
    exact not_active_terminated
  have hq : ¬ Queued p l x := fun hx => hnot ((h.queued x).mp hx).1
  have hpol : (created s x name entry priority).scheduler = some p := h.policy
  have hother : ∀ y, y ≠ x → (created s x name entry priority).pcb y = s.pcb y :=
    fun y hy => update_of_ne hy _ _
  rw [hsome, schedulerAdd_eq hpol hp]
  refine ⟨_, h.join (x := x) (levelQueue_mem hp _) hq
    (h.rep.setNext_outside (h.not_mem hq) none) rfl rfl rfl ?_ ?_ ?_ ?_,
    rfl, hrun, ?_, fun y hy => ?_⟩
  · simp [created, createdPcb]
  · intro y hy
    exact congrArg Pcb.state (hother y hy)
  · intro y hy
    obtain ⟨hbit, hne⟩ := (markSlotUsed_bit s.slotFreeMap x.val y).mp hy
    exact ⟨hbit, fun he => hne (he ▸ rfl)⟩
  · intro y
    constructor
    · intro hy
      exact ⟨hy, fun he => hnot (he ▸ h.outActive hrun y hy)⟩
    · exact And.left
  · intro y hy
    have hne : y ≠ x := fun he => hnot (he ▸ hy)
    rw [hother y hne]
    exact ⟨hy, rfl, rfl⟩
  · rcases (queued_push (levelQueue_mem hp _)).mp hy with hy | rfl
    · exact .inl hy
    · exact .inr rfl

/-- The end of `yield` and `process_exit`: run the process `x`. -/
def switchTo (s : Kernel) (ret : CodeAddr) (x : PcbPtr) : Kernel :=
  contextSwitch { s.setState x .running with current := some x } ret x

theorem switchTo_same (s : Kernel) (ret : CodeAddr) (x : PcbPtr) :
    SameControl { s.setState x .running with current := some x } (switchTo s ret x) :=
  contextSwitch_same rfl

theorem switchTo_rest (s : Kernel) (ret : CodeAddr) (x : PcbPtr) :
    ∃ pcb cpu stack, switchTo s ret x =
      { s with pcb := pcb, current := some x, cpu := cpu, stack := stack } := by
  obtain ⟨rsp, cpu, stack, hs⟩ := contextSwitch_rest ret x (show ({ s.setState x .running with
      current := some x } : Kernel).current = some x from rfl)
  exact ⟨_, cpu, stack, hs⟩

theorem survives_setState {y : PcbPtr} (s : Kernel) (x : PcbPtr)
    {st : ProcessState} (hst : st.Active ∨ y ≠ x) : Survives s (s.setState x st) y := by
  intro hy
  refine ⟨?_, setState_pid s x y st, rfl⟩
  by_cases he : y = x
  · subst he
    rw [setState_same]
    exact hst.resolve_right (fun hne => hne rfl)
  · rwa [setState_other s st he]

/-- What `scheduler_next` hands out when every active process is queued. -/
inductive Handed (A : QueueId → Prop) (p : SchedulerId) (s : Kernel)
    (l : QueueId → List PcbPtr) : Option PcbPtr × Kernel → Prop
  | nothing (hnil : ∀ x, ¬ Queued p l x) : Handed A p s l (none, s)
  | first {s' : Kernel} {x : PcbPtr} {k : QueueId} {xs : List PcbPtr} {before after : List QueueId}
      (hks : readyQueues p = before ++ k :: after)
      (hbefore : ∀ k', k' ∈ before → l k' = []) (hl : l k = x :: xs)
      (hrep : PoolRep s'.pool A (update l k xs))
      (hpcb : s'.pcb = s.pcb) (hslots : s'.slotFreeMap = s.slotFreeMap)
      (hsched : s'.scheduler = s.scheduler)
      (hcur : s'.current = s.current) (hhalt : s'.halted = s.halted)
      (hcpu : s'.cpu = s.cpu) (hstack : s'.stack = s.stack) : Handed A p s l (some x, s')

theorem schedulerNext_handed (h : ReadyInv A p out s l) (hp : p ≠ .count) :
    Handed A p s l (schedulerNext s) := by
  rcases schedulerNext_spec h.policy hp h.ready h.rep with
    ⟨hnil, hrun⟩ |
      ⟨before, k, after, x, xs, pool, stats, rr, prio, mlq, hks, hbefore, hl, hrun, hrep⟩
  · rw [hrun]
    refine Handed.nothing ?_
    rintro x ⟨k, hk, hx⟩
    rw [hnil k hk] at hx
    simp at hx
  · rw [hrun]
    exact Handed.first hks hbefore hl hrep rfl rfl rfl rfl rfl rfl rfl

theorem ReadyInv.dispatch {s' : Kernel} {xs : List PcbPtr}
    (h : ReadyInv A p none s l) (hk : k ∈ readyQueues p) (hl : l k = x :: xs)
    (hrep : PoolRep s'.pool A (update l k xs)) (hpcb : s'.pcb = s.pcb)
    (hslots : s'.slotFreeMap = s.slotFreeMap) (hsched : s'.scheduler = s.scheduler) :
    ReadyInv A p (some x) { s'.setState x .running with current := some x } (update l k xs) := by
  refine h.leave hk hl hrep hsched hslots (setState_same s' x .running) ?_
  intro y hy
  rw [setState_other s' .running hy, hpcb]

theorem requeue_inv (h : ReadyInv A p (some cur) s l) (hp : p ≠ .count) (hrun : s.halted = false) :
    ∃ pool, schedulerAdd (s.setState cur .ready) cur = { s.setState cur .ready with pool := pool } ∧
      ReadyInv A p none { s.setState cur .ready with pool := pool }
        (update l (levelQueue p (s.pcb cur).priority)
          (l (levelQueue p (s.pcb cur).priority) ++ [cur])) := by
  have hact := h.outActive hrun cur rfl
  have hq : ¬ Queued p l cur := fun hx => ((h.queued cur).mp hx).2 rfl
  have hpol : (s.setState cur .ready).scheduler = some p := h.policy
  have hadd := schedulerAdd_eq hpol hp cur
  rw [setState_priority] at hadd
  refine ⟨_, hadd, ?_⟩
  refine h.join (x := cur) (levelQueue_mem hp _) hq h.rep rfl rfl rfl
    (setState_same s cur .ready) ?_ ?_ ?_
  · intro y hy
    exact congrArg Pcb.state (setState_other s .ready hy)
  · intro y hy
    refine ⟨hy, fun he => ?_⟩
    rw [← he, h.free y hy] at hact
    exact not_active_terminated hact
  · intro y
    simp only [reduceCtorEq, Option.some.injEq, false_iff, not_and, not_not]
    exact Eq.symm

/-- The queues that `scheduler_next` looks at up to the one at which a process
of the given priority waits, that one included. -/
def scannedUpTo (p : SchedulerId) (priority : Nat) : List QueueId :=
  (readyQueues p).takeWhile (· ≠ levelQueue p priority) ++ [levelQueue p priority]

/-- No process waits at the level of `cur` or above it. -/
def NoneAhead (p : SchedulerId) (s : Kernel) (cur : PcbPtr) : Prop :=
  ∀ k, k ∈ scannedUpTo p (s.pcb cur).priority → (s.pool.queue k).head = none

theorem readyQueues_nodup (p : SchedulerId) : (readyQueues p).Nodup := by
  cases p <;> decide

theorem scannedUpTo_eq {before after : List QueueId} {n : Nat}
    (h : readyQueues p = before ++ levelQueue p n :: after) :
    scannedUpTo p n = before ++ [levelQueue p n] := by
  have hnd := readyQueues_nodup p
  rw [h, List.nodup_append] at hnd
  have hne : ∀ k ∈ before, k ≠ levelQueue p n := fun k hk he => hnd.2.2 k hk _ (by simp) he
  unfold scannedUpTo
  rw [h, List.takeWhile_append_of_pos (by simpa using hne)]
  simp

theorem PoolRep.head_none {pool : Pool PcbPtr QueueId} (h : PoolRep pool A l) (hA : A k) :
    (pool.queue k).head = none ↔ l k = [] := by
  have hpath := (h.rep k hA).path
  cases hl : l k with
  | nil =>
    rw [hl] at hpath
    exact iff_of_true hpath rfl
  | cons y ys =>
    rw [hl] at hpath
    refine iff_of_false (fun hnone => ?_) (by simp)
    rw [hpath.1] at hnone
    cases hnone

/-- After the current process is queued again, it is handed out exactly if no
process was waiting at its level or above. -/
theorem handed_self_iff {xs : List PcbPtr} {before after : List QueueId}
    (h : ReadyInv A p (some cur) s l) (hp : p ≠ .count) (hks : readyQueues p = before ++ k :: after)
    (hbefore : ∀ k' ∈ before, update l (levelQueue p (s.pcb cur).priority)
        (l (levelQueue p (s.pcb cur).priority) ++ [cur]) k' = [])
    (hl : update l (levelQueue p (s.pcb cur).priority)
        (l (levelQueue p (s.pcb cur).priority) ++ [cur]) k = x :: xs) :
    x = cur ↔ NoneAhead p s cur := by
  have hq : ¬ Queued p l cur := fun hx => ((h.queued cur).mp hx).2 rfl
  have hmem : ∀ k' ∈ readyQueues p, cur ∉ l k' := fun k' hk' hx => hq ⟨k', hk', hx⟩
  have hkc := levelQueue_mem hp (s.pcb cur).priority
  have hhead : ∀ k' ∈ readyQueues p, ((s.pool.queue k').head = none ↔ l k' = []) :=
    fun k' hk' => h.rep.head_none (h.ready k' hk')
  constructor
  · intro hx
    subst hx
    have hk : k = levelQueue p (s.pcb x).priority := by grind
    subst hk
    rw [update_self] at hl
    have hown : l (levelQueue p (s.pcb x).priority) = [] := by
      cases hlk : l (levelQueue p (s.pcb x).priority) with
      | nil => rfl
      | cons y ys => grind
    have hnd := readyQueues_nodup p
    rw [hks, List.nodup_append] at hnd
    intro k' hk'
    rw [scannedUpTo_eq hks, List.mem_append, List.mem_singleton] at hk'
    rcases hk' with hk' | rfl
    · grind
    · exact (hhead _ hkc).mpr hown
  · intro hahead
    rw [hks, List.mem_append, List.mem_cons] at hkc
    rcases hkc with hin | hin | hin
    · have hnil := hbefore _ hin
      simp at hnil
    · have hnil := (hhead k (by simp [hks])).mp (hahead k (by simp [scannedUpTo, hin]))
      subst hin
      rw [update_self, hnil] at hl
      exact (List.cons.inj hl).1.symm
    · obtain ⟨mid, rest, hafter⟩ := List.append_of_mem hin
      have hsplit : readyQueues p = (before ++ k :: mid) ++
          levelQueue p (s.pcb cur).priority :: rest := by
        simp [hks, hafter]
      have hnd := readyQueues_nodup p
      rw [hsplit, List.nodup_append] at hnd
      have hne := hnd.2.2 k (by simp) _ List.mem_cons_self
      have hscan : k ∈ scannedUpTo p (s.pcb cur).priority := by
        simp [scannedUpTo_eq hsplit]
      have hnil := (hhead k (by simp [hks])).mp (hahead k hscan)
      rw [update_of_ne hne, hnil] at hl
      cases hl

theorem survives_switchTo {s₀ s₁ : Kernel} {y : PcbPtr} (ret : CodeAddr)
    (x : PcbPtr) (hpcb : s₁.pcb = s₀.pcb) (hhalt : s₁.halted = s₀.halted) (h : Survives s s₀ y) :
    Survives s (switchTo s₁ ret x) y := by
  have h₂ : Survives s₁ (s₁.setState x .running) y := survives_setState s₁ x (.inl (.inr rfl))
  exact ((h.of_pcb hpcb hhalt).trans h₂).trans (Survives.of_same (switchTo_same s₁ ret x) y)

theorem yield_inv (h : ReadyInv A p (some cur) s l) (hp : p ≠ .count)
    (hrun : s.halted = false) (hcur : s.current = some cur) :
    ∃ x s₁ l', yield s = some (switchTo s₁ .yieldReturn x) ∧
      ReadyInv A p (some x) (switchTo s₁ .yieldReturn x) l' ∧
      (switchTo s₁ .yieldReturn x).current = some x ∧ (switchTo s₁ .yieldReturn x).halted = false ∧
      (∀ y, Survives s (switchTo s₁ .yieldReturn x) y) ∧ s₁.cpu = s.cpu ∧ (x = cur ∨ Queued p l x) ∧
      (∀ y, Queued p l' y → Queued p l y ∨ y = cur) ∧ (x = cur ↔ NoneAhead p s cur) := by
  obtain ⟨pool, hadd, hjoin⟩ := requeue_inv h hp hrun
  have hqueued : ∀ y, Queued p (update l (levelQueue p (s.pcb cur).priority)
        (l (levelQueue p (s.pcb cur).priority) ++ [cur])) y ↔
      Queued p l y ∨ y = cur := fun y => queued_push (levelQueue_mem hp _)
  have hnext := schedulerNext_handed hjoin hp
  cases hres : schedulerNext { s.setState cur .ready with pool := pool } with
  | mk found s₁ =>
    rw [hres] at hnext
    cases hnext with
    | nothing hnil => exact absurd ((hqueued cur).mpr (.inr rfl)) (hnil cur)
    | first hks hbefore hl hrep hpcb hslots hsched hc hhalt hcpu hstack =>
      rename_i x k xs before after
      have hk : k ∈ readyQueues p := by simp [hks]
      have hinv := hjoin.dispatch hk hl hrep hpcb hslots hsched
      have hsame := switchTo_same s₁ .yieldReturn x
      have hx := (hqueued x).mp ⟨k, hk, by rw [hl]; simp⟩
      refine ⟨x, s₁, _, ?_, hinv.same hsame, hsame.current,
        hsame.halted.trans (hhalt.trans hrun), ?_, hcpu, hx.symm, ?_,
        handed_self_iff h hp hks hbefore hl⟩
      · simp only [yield, hcur, hadd, hres]
        rfl
      · intro y
        exact survives_switchTo .yieldReturn x hpcb hhalt
          (survives_setState s cur (.inl (.inl rfl)))
      · intro y hy
        exact (hqueued y).mp ((queued_pop hjoin.rep hjoin.ready hk hl).mp hy).1

theorem yield_rest {s' : Kernel} (h : yield s = some s') :
    ∃ pcb pool current stats rr prio mlq cpu stack, s' =
      { s with
        pcb := pcb
        pool := pool
        current := current
        stats := stats
        rrCurrentTicks := rr
        prioCurrentTicks := prio
        mlqLevelTicks := mlq
        cpu := cpu
        stack := stack } := by
  cases hcur : s.current with
  | none =>
    have hs : s = s' := by simpa [yield, hcur] using h
    exact ⟨_, _, _, _, _, _, _, _, _, hs.symm⟩
  | some cur =>
    obtain ⟨pool₁, hadd⟩ := schedulerAdd_rest (s.setState cur .ready) cur
    obtain ⟨pool₂, stats, rr, prio, mlq, hnext⟩ :=
      schedulerNext_rest { s.setState cur .ready with pool := pool₁ }
    simp only [yield, hcur, hadd] at h
    generalize schedulerNext { s.setState cur .ready with pool := pool₁ } = r at h hnext
    obtain ⟨_ | x, u⟩ := r
    · obtain ⟨pool₃, hrem⟩ := schedulerRemove_rest h
      change u = _ at hnext
      rw [hrem, hnext]
      exact ⟨_, _, _, _, _, _, _, _, _, rfl⟩
    have hs : switchTo u .yieldReturn x = s' := Option.some.inj h
    obtain ⟨pcb, cpu, stack, hswitch⟩ := switchTo_rest u .yieldReturn x
    change u = _ at hnext
    rw [← hs, hswitch, hnext]
    exact ⟨_, _, _, _, _, _, _, _, _, rfl⟩

/-- The state of `process_exit` when it asks for the next process. -/
def dying (s : Kernel) (dead : PcbPtr) : Kernel :=
  let s := s.setState dead .terminated
  { s with processCount := decCount s.processCount }

theorem dying_pcb (s : Kernel) (dead : PcbPtr) :
    (dying s dead).pcb = (s.setState dead .terminated).pcb := rfl

theorem processExit_eq (hcur : s.current = some cur) : processExit s =
      match schedulerNext (dying s cur) with
      | (none, s) => { s with halted := true }
      | (some next, s) =>
        contextSwitch (pcbFree { s.setState next .running with current := some next } cur)
          .exitReturn next := by
  unfold processExit
  rw [hcur]
  rfl

theorem processExit_cases (hcur : s.current = some cur) :
    (∃ u, schedulerNext (dying s cur) = (none, u) ∧ processExit s = { u with halted := true }) ∨
      ∃ next u, schedulerNext (dying s cur) = (some next, u) ∧ processExit s = contextSwitch
          (pcbFree { u.setState next .running with current := some next } cur)
          .exitReturn next := by
  rw [processExit_eq hcur]
  rcases schedulerNext (dying s cur) with ⟨_ | next, u⟩
  · exact Or.inl ⟨u, rfl, rfl⟩
  · exact Or.inr ⟨next, u, rfl, rfl⟩

theorem dying_inv (h : ReadyInv A p (some cur) s l) : ReadyInv A p none (dying s cur) l := by
  have hq : ¬ Queued p l cur := fun hx => ((h.queued cur).mp hx).2 rfl
  refine h.terminate (x := cur) h.rep h.others ?_ rfl rfl ?_ ?_ (fun y hy => .inl hy) ?_
  · grind
  · exact setState_same s cur .terminated
  · intro y hy
    rw [dying_pcb, setState_other s .terminated hy]
  · simp

theorem processExit_inv (h : ReadyInv A p (some cur) s l) (hp : p ≠ .count)
    (hrun : s.halted = false) (hcur : s.current = some cur) :
    ((∀ x, ¬ Queued p l x) ∧ (processExit s).halted = true ∧ (processExit s).current = some cur ∧
        (processExit s).cpu = s.cpu ∧ ReadyInv A p (some cur) (processExit s) l ∧
        ∀ y, y ≠ cur → Survives s (processExit s) y) ∨ ∃ x s₁ l', Queued p l x ∧ x ≠ cur ∧
        processExit s = contextSwitch s₁ .exitReturn x ∧ s₁.current = some x ∧ s₁.cpu = s.cpu ∧
        ReadyInv A p (some x) (processExit s) l' ∧ (processExit s).current = some x ∧
        (processExit s).halted = false ∧ ∀ y, y ≠ cur → Survives s (processExit s) y := by
  have hq : ¬ Queued p l cur := fun hx => ((h.queued cur).mp hx).2 rfl
  have hdrop := dying_inv h
  have hnext := schedulerNext_handed hdrop hp
  rcases processExit_cases hcur with
    ⟨s₁, hres, hexit⟩ | ⟨x, s₁, hres, hexit⟩
  · rw [hres] at hnext
    cases hnext with
    | nothing hnil =>
      -- No process is left to switch to: the panic.
      left
      rw [hexit]
      refine ⟨hnil, rfl, hcur, rfl, ?_, ?_⟩
      · refine ⟨hdrop.policy, hdrop.inUse, hdrop.rep, hdrop.others, ?_,
          hdrop.known, hdrop.free, fun hh => by cases hh⟩
        intro x
        constructor
        · intro hx
          exact absurd hx (hnil x)
        · rintro ⟨hx, _⟩
          exact absurd ((hdrop.queued x).mpr ⟨hx, by simp⟩) (hnil x)
      · intro y hy hyact
        exact absurd ((h.queued y).mpr ⟨hyact, fun he => hy (Option.some.inj he).symm⟩) (hnil y)
  · rw [hres] at hnext
    cases hnext with
    | first hks hbefore hl hrep hpcb hslots hsched hc hhalt hcpu hstack =>
      right
      rename_i k xs before after
      have hk : k ∈ readyQueues p := by simp [hks]
      have hx : Queued p l x := ⟨k, hk, by rw [hl]; simp⟩
      have hne : x ≠ cur := fun he => hq (he ▸ hx)
      have hinv := hdrop.dispatch hk hl hrep hpcb hslots hsched
      have hdead : (({ s₁.setState x .running with
          current := some x } : Kernel).pcb cur).state = .terminated := by
        rw [setState_other s₁ .running (Ne.symm hne), hpcb, dying_pcb]
        exact setState_same s cur .terminated
      have hfreed := hinv.pcbFree hdead (fun he => hne (Option.some.inj he))
      have hsame : SameControl (pcbFree { s₁.setState x .running with current := some x } cur)
          (processExit s) := by
        rw [hexit]
        exact contextSwitch_same rfl
      refine ⟨x, _, _, hx, hne, hexit, rfl, hcpu, hfreed.same hsame,
        hsame.current, hsame.halted.trans (hhalt.trans hrun), ?_⟩
      intro y hy
      have h₁ : Survives s s₁ y :=
        (survives_setState s cur (.inr hy)).of_pcb (hpcb.trans (dying_pcb s cur)) hhalt
      have h₂ : Survives s₁ (s₁.setState x .running) y := survives_setState s₁ x (.inl (.inr rfl))
      have h₃ : Survives (s₁.setState x .running)
          (pcbFree { s₁.setState x .running with current := some x } cur)
          y := survives_setState _ cur (.inr hy)
      exact ((h₁.trans h₂).trans h₃).trans (Survives.of_same hsame y)

theorem pcbByPid_some {pid : Nat} (hx : pcbByPid s pid = some x) :
    (s.pcb x).pid = pid ∧ (s.pcb x).listed = true := by
  have hfound := List.find?_some hx
  simpa using hfound

theorem killOther_inv {pid : Nat} (h : ReadyInv A p out s l)
    (hp : p ≠ .count) (hrun : s.halted = false) (hout : ∀ y, out = some y → (s.pcb y).pid ≠ pid) :
    ∃ r s' l', killOther s pid = some (r, s') ∧ ReadyInv A p out s' l' ∧
      s'.current = s.current ∧ s'.halted = false ∧ ∀ y, (s.pcb y).pid ≠ pid → Survives s s' y := by
  cases hfind : pcbByPid s pid with
  | none => exact ⟨-1, s, l, by simp [killOther, hfind], h, rfl, hrun, fun y _ hy => ⟨hy, rfl, rfl⟩⟩
  | some x =>
    obtain ⟨hpid, _⟩ := pcbByPid_some hfind
    obtain ⟨pool₁, l₁, hrem, hrep₁, hwo₁⟩ := schedulerRemove_spec h.policy hp h.ready h.rep x
    obtain ⟨pool₂, l₂, hblk, hrep₂, hwo₂⟩ :=
      queueRemove_without hrep₁ (h.inUse .blocked (.inr rfl)) x
    have hready : ∀ k ∈ readyQueues p, l₂ k = l₁ k := by
      intro k hk
      apply hwo₂.outside
      intro he
      rw [List.mem_singleton.mp he] at hk
      exact blocked_not_ready p hk
    have hq : ∀ y, Queued p l₂ y ↔ Queued p l y ∧ y ≠ x := by
      intro y
      rw [← queued_without hwo₁]
      constructor
      · rintro ⟨k, hk, hy⟩
        exact ⟨k, hk, hready k hk ▸ hy⟩
      · rintro ⟨k, hk, hy⟩
        exact ⟨k, hk, (hready k hk).symm ▸ hy⟩
    have hothers : ∀ k, A k → k ∉ readyQueues p → l₂ k = [] := by
      intro k hA hk
      have hnil : l₁ k = [] := (hwo₁.outside k hk).trans (h.others k hA hk)
      by_cases hb : k = .blocked
      · apply List.eq_nil_iff_forall_not_mem.mpr
        intro y hy
        have hmem := ((hwo₂.inside k (by simp [hb]) y).mp hy).1
        rw [hnil] at hmem
        simp at hmem
      · rwa [hwo₂.outside k (by simpa using hb)]
    have hpcb : ∀ y, y ≠ x → (pcbFree (dying { s with pool := pool₂ } x) x).pcb y =
          s.pcb y := by
      intro y hy
      change ((dying { s with pool := pool₂ } x).setState x .terminated).pcb y = s.pcb y
      rw [setState_other _ .terminated hy, dying_pcb, setState_other _ .terminated hy]
    refine ⟨0, pcbFree (dying { s with pool := pool₂ } x) x, l₂, ?_, ?_, rfl, hrun, ?_⟩
    · simp only [killOther, hfind, hrem, hblk, Option.bind_some, Option.map_some]
      rfl
    · refine h.terminate (x := x) hrep₂ hothers hq rfl rfl (setState_same _ x .terminated) ?_ ?_ ?_
      · intro y hy
        exact congrArg Pcb.state (hpcb y hy)
      · intro y hy
        exact (markSlotFree_bit s.slotFreeMap x y).mp hy
      · grind
    · intro y hy hact
      rw [hpcb y (fun he => hy (he ▸ hpid))]
      exact ⟨hact, rfl, rfl⟩

end

end AresOS.Process
