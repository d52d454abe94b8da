import AresOS.Lib.SlotTable
import AresOS.Process.FixedPolicy

/-!
# The process table

Four places record which processes exist: the states of the control blocks,
`slot_free_map`, `process_count` and, for the pids given out, `next_pid`.  To
their users they are one table with the pid of each active process at its slot.
Every call leaves that table alone, adds one entry or drops one, and keeps the
four places in step; the number of pids given out is carried along, since the
pids are distinct only until `next_pid` wraps.
-/

namespace AresOS.Process

open SlotTable Function

/-- The pids of the processes that `pcb_enum_active` lists, at their slots. -/
def Kernel.table (s : Kernel) (x : PcbPtr) : Option Nat :=
  if (s.pcb x).listed then some (s.pcb x).pid else none

section

variable {s s' : Kernel} {x : PcbPtr}

theorem table_some {pid : Nat} :
    s.table x = some pid ↔ (s.pcb x).listed = true ∧ (s.pcb x).pid = pid := by
  simp [Kernel.table]

theorem table_isSome : (s.table x).isSome ↔ (s.pcb x).listed = true := by
  simp [Kernel.table]

theorem table_none : s.table x = none ↔ ¬ (s.pcb x).listed = true := by
  simp [Kernel.table]

theorem table_congr (hstate : ∀ y, (s'.pcb y).state = (s.pcb y).state)
    (hpid : ∀ y, (s'.pcb y).pid = (s.pcb y).pid) : s'.table = s.table := by
  funext y
  have hlisted : (s'.pcb y).listed = (s.pcb y).listed := by
    unfold Pcb.listed
    rw [hstate y]
  unfold Kernel.table
  rw [hlisted, hpid y]

theorem table_update {t : Option Nat}
    (hother : ∀ y, y ≠ x → s'.pcb y = s.pcb y) (hx : s'.table x = t) :
    s'.table = update s.table x t := by
  funext y
  by_cases hy : y = x
  · rw [hy, update_self, hx]
  · rw [update_of_ne hy]
    simp [Kernel.table, hother y hy]

theorem setState_table (hx : (s.table x).isSome) {st : ProcessState} (hst : st.Active) :
    (s.setState x st).table = s.table := by
  have hlisted := table_isSome.mp hx
  have hsame : (s.setState x st).table x = s.table x := by
    rw [table_some.mpr ⟨hlisted, rfl⟩, table_some, setState_pid]
    refine ⟨?_, rfl⟩
    rcases hst with hst | hst <;> simp [Pcb.listed, setState_same, hst]
  rw [table_update (fun y hy => setState_other s st hy) hsame]
  exact update_eq_self x s.table

theorem setState_table_terminated (s : Kernel) (x : PcbPtr) :
    (s.setState x .terminated).table = update s.table x none := by
  refine table_update (fun y hy => setState_other s .terminated hy) ?_
  rw [table_none]
  simp [Pcb.listed, setState_same]

end

/-! ### Functions that leave the counters alone -/

/-- The slots and the two counters are as they were. -/
structure SameCounts (s s' : Kernel) : Prop where
  slots : s'.slotFreeMap = s.slotFreeMap
  count : s'.processCount = s.processCount
  next : s'.nextPid = s.nextPid

section

variable {s s' : Kernel}

theorem yield_counts (h : yield s = some s') : SameCounts s s' := by
  obtain ⟨_, _, _, _, _, _, _, _, _, rfl⟩ := yield_rest h
  exact ⟨rfl, rfl, rfl⟩

theorem schedulerNext_counts (s : Kernel) : SameCounts s (schedulerNext s).2 := by
  obtain ⟨_, _, _, _, _, hnext⟩ := schedulerNext_rest s
  rw [hnext]
  exact ⟨rfl, rfl, rfl⟩

theorem contextSwitch_counts {cur : PcbPtr} (ret : CodeAddr) (next : PcbPtr)
    (hcur : s.current = some cur) : SameCounts s (contextSwitch s ret next) := by
  obtain ⟨_, _, _, hs⟩ := contextSwitch_rest ret next hcur
  rw [hs]
  exact ⟨rfl, rfl, rfl⟩

end

/-! ### What a call does to the table -/

/-- The table after a call, and how many pids the call has given out. -/
inductive TableMove (s s' : Kernel) : Nat → Prop
  | keep (htable : s'.table = s.table) (hcounts : SameCounts s s') : TableMove s s' 0
  | add (x : PcbPtr) (hfree : SlotFree s x) (htable : s'.table = update s.table x (some s.nextPid))
      (hslots : s'.slotFreeMap = markSlotUsed s.slotFreeMap x.val)
      (hcount : s'.processCount = (s.processCount + 1) % 2 ^ 32)
      (hnext : s'.nextPid = (s.nextPid + 1) % 2 ^ 32) : TableMove s s' 1
  | drop (x : PcbPtr) (hx : (s.table x).isSome) (htable : s'.table = update s.table x none)
      (hslots : s'.slotFreeMap = markSlotFree s.slotFreeMap x.val)
      (hcount : s'.processCount = decCount s.processCount)
      (hnext : s'.nextPid = s.nextPid) : TableMove s s' 0

theorem processCreate_move (s : Kernel) (name : List UInt8) (entry priority : Nat) :
    TableMove s (processCreate s name entry priority).2
      (if (processCreate s name entry priority).1.isSome then 1 else 0) := by
  rcases processCreate_cases s name entry priority with
    ⟨_, hnone⟩ | ⟨x, hslot, hsome⟩
  · rw [hnone]
    exact .keep rfl ⟨rfl, rfl, rfl⟩
  obtain ⟨pool, hadd⟩ := schedulerAdd_rest (created s x name entry priority) x
  rw [hsome, hadd]
  refine .add x (findFreeSlot_some hslot).2 ?_ rfl rfl rfl
  refine table_update (fun y hy => update_of_ne hy _ _) ?_
  rw [table_some]
  simp [created, createdPcb, Pcb.listed]

section

variable {A : QueueId → Prop} {p : SchedulerId} {out : Option PcbPtr}
  {s s' : Kernel} {l l' : QueueId → List PcbPtr}

theorem ReadyInv.listed_iff (h : ReadyInv A p out s l) (x : PcbPtr) :
    (s.pcb x).listed = true ↔ (s.pcb x).state.Active := by
  rcases h.known x with (hst | hst) | hst <;> simp [Pcb.listed, hst, ProcessState.Active]

theorem ReadyInv.table_isSome (h : ReadyInv A p out s l) (x : PcbPtr) :
    (s.table x).isSome ↔ (s.pcb x).state.Active := Process.table_isSome.trans (h.listed_iff x)

theorem ReadyInv.table_eq {out' : Option PcbPtr} (h : ReadyInv A p out s l)
    (h' : ReadyInv A p out' s' l') (hsurv : ∀ y, Survives s s' y)
    (hback : ∀ y, (s'.pcb y).state.Active → (s.pcb y).state.Active) : s'.table = s.table := by
  funext y
  by_cases hy : (s.pcb y).state.Active
  · obtain ⟨hact, hpid, _⟩ := hsurv y hy
    rw [table_some.mpr ⟨(h.listed_iff y).mpr hy, rfl⟩, table_some]
    exact ⟨(h'.listed_iff y).mpr hact, hpid⟩
  · rw [table_none.mpr (mt (h.listed_iff y).mp hy), table_none]
    exact fun hl => hy (hback y ((h'.listed_iff y).mp hl))

/-- A call has moved the table, or it has halted the machine when no process
was left. -/
def Returned (s s' : Kernel) (k : Nat) : Prop :=
  (s'.halted = false ∧ TableMove s s' k) ∨ (s'.halted = true ∧ ∀ x, s'.table x = none)

theorem Returned.refl (hrun : s.halted = false) : Returned s s 0 :=
  Or.inl ⟨hrun, .keep rfl ⟨rfl, rfl, rfl⟩⟩

theorem yield_move {cur : PcbPtr} (h : ReadyInv A p (some cur) s l)
    (hp : p ≠ .count) (hrun : s.halted = false)
    (hcur : s.current = some cur) (hyield : yield s = some s') : Returned s s' 0 := by
  obtain ⟨x, s₁, l', hyield', hinv', _, hlive, hsurv, _, hx, hq, _⟩ := yield_inv h hp hrun hcur
  rw [hyield] at hyield'
  have hs := Option.some.inj hyield'
  refine .inl ⟨hs ▸ hlive, .keep ?_ (yield_counts hyield)⟩
  rw [hs]
  refine h.table_eq hinv' hsurv fun y hy => ?_
  -- an active process is the one switched to or still queued
  have hold : Queued p l y ∨ y = cur := by
    by_cases hyx : y = x
    · rw [hyx]
      exact hx.symm
    · exact hq y ((hinv'.queued y).mpr ⟨hy, fun he => hyx (Option.some.inj he).symm⟩)
  rcases hold with hold | rfl
  · exact ((h.queued y).mp hold).1
  · exact h.outActive hrun y rfl

theorem processExit_move {cur : PcbPtr} (h : ReadyInv A p (some cur) s l)
    (hp : p ≠ .count) (hrun : s.halted = false) (hcur : s.current = some cur) :
    Returned s (processExit s) 0 := by
  have hinv := dying_inv h
  have hnext := schedulerNext_handed hinv hp
  have hcounts := schedulerNext_counts (dying s cur)
  rcases processExit_cases hcur with ⟨u, hres, hexit⟩ | ⟨next, u, hres, hexit⟩
  · rw [hres] at hnext
    cases hnext with
    | nothing hnil =>
      rw [hexit]
      refine .inr ⟨rfl, fun y => ?_⟩
      rw [table_none, hinv.listed_iff y]
      exact fun hy => hnil y ((hinv.queued y).mpr ⟨hy, by simp⟩)
  rw [hres] at hnext hcounts
  cases hnext with
  | @first _ _ k _ _ _ hks _ hl _ hpcb _ _ _ hhalt _ _ =>
    have hactive := (h.table_isSome cur).mpr (h.outActive hrun cur rfl)
    have hdying : (dying s cur).table = update s.table cur none := by
      rw [← setState_table_terminated]
      exact table_congr (fun y => by rw [dying_pcb]) (fun y => by rw [dying_pcb])
    have hutable : u.table = (dying s cur).table :=
      table_congr (fun y => by rw [hpcb]) (fun y => by rw [hpcb])
    -- the process switched to was queued, so it stays where it is
    have hqueued := (hinv.queued next).mp ⟨k, by rw [hks]; simp, by rw [hl]; simp⟩
    have hrunning : ({ u.setState next .running with
        current := some next } : Kernel).table = u.table := by
      refine setState_table ?_ (.inr rfl)
      rw [hutable]
      exact (hinv.table_isSome next).mpr hqueued.1
    have hsame : SameControl (pcbFree { u.setState next .running with current := some next } cur)
        (processExit s) := by
      rw [hexit]
      exact contextSwitch_same rfl
    have hswitch : SameCounts (pcbFree { u.setState next .running with current := some next } cur)
        (processExit s) := by
      rw [hexit]
      exact contextSwitch_counts .exitReturn next rfl
    refine .inl ⟨hsame.halted.trans (hhalt.trans hrun),
      .drop cur hactive ?_ (hswitch.slots.trans ?_) (hswitch.count.trans hcounts.count)
        (hswitch.next.trans hcounts.next)⟩
    · rw [table_congr hsame.state hsame.pid]
      refine (setState_table_terminated _ cur).trans ?_
      rw [hrunning, hutable, hdying, update_idem]
    · exact congrArg (markSlotFree · cur.val) hcounts.slots

theorem killOther_some {pid : Nat} {x : PcbPtr} {r : Int × Kernel}
    (hfind : pcbByPid s pid = some x) (h : killOther s pid = some r) :
    ∃ pool, r = (0, pcbFree (dying { s with pool := pool } x) x) := by
  simp only [killOther, hfind] at h
  obtain ⟨u, hrem, h⟩ := Option.bind_eq_some_iff.mp h
  obtain ⟨pool, _, hr⟩ := Option.map_eq_some_iff.mp h
  obtain ⟨pool', rfl⟩ := schedulerRemove_rest hrem
  exact ⟨pool, hr.symm⟩

theorem killed_pcb (s : Kernel) (x : PcbPtr) (pool : Pool PcbPtr QueueId) :
    (pcbFree (dying { s with pool := pool } x) x).pcb = (s.setState x .terminated).pcb := by
  simp [pcbFree, dying, Kernel.setState, Kernel.setPcb]

theorem killOther_move {pid : Nat} {r : Int × Kernel}
    (hrun : s.halted = false) (h : killOther s pid = some r) : Returned s r.2 0 := by
  cases hfind : pcbByPid s pid with
  | none =>
    have hr : (-1, s) = r := by simpa [killOther, hfind] using h
    rw [← hr]
    exact Returned.refl hrun
  | some x =>
    obtain ⟨pool, rfl⟩ := killOther_some hfind h
    have hpcb := killed_pcb s x pool
    refine .inl ⟨hrun, .drop x (Process.table_isSome.mpr (pcbByPid_some hfind).2) ?_ rfl rfl rfl⟩
    rw [← setState_table_terminated]
    exact table_congr (fun y => by rw [hpcb]) (fun y => by rw [hpcb])

end

/-! ### Calls -/

/-- The number of processes that a call creates. -/
def Op.creates (s : Kernel) : Op → Nat
  | .create name entry priority =>
    if s.halted then 0
    else if (processCreate s name entry priority).1.isSome then 1 else 0
  | _ => 0

section

variable {started : Bool} {A : QueueId → Prop} {p : SchedulerId} {s s' : Kernel}

theorem ReadyState.exit_move (h : ReadyState started A p s)
    (hp : p ≠ .count) (hrun : s.halted = false) : Returned s (processExit s) 0 := by
  cases hcur : s.current with
  | none =>
    rw [show processExit s = s by simp [processExit, hcur]]
    exact Returned.refl hrun
  | some cur =>
    obtain ⟨out, l, hheld, hinv⟩ := h
    obtain ⟨rfl, rfl⟩ := hheld.of_current hcur
    exact processExit_move hinv hp hrun hcur

theorem processKill_cases {pid : Nat} {r : Int × Kernel} (h : processKill s pid = some r) :
    r = (-1, s) ∨ r = (0, processExit s) ∨ killOther s pid = some r := by
  unfold processKill at h
  split at h
  · exact .inl (Option.some.inj h).symm
  split at h
  · split at h
    · exact .inr (.inl (Option.some.inj h).symm)
    · exact .inr (.inr h)
  · exact .inr (.inr h)

theorem step_move (h : ReadyState started A p s) (hp : p ≠ .count)
    (hrun : s.halted = false) {o : Op} (ho : o.Fixed) (hstep : step s o = some s') :
    Returned s s' (o.creates s) := by
  cases o with
  | create name entry priority =>
    have hs : (processCreate s name entry priority).2 = s' := by
      simpa [step, hrun] using hstep
    obtain ⟨out, l, _, hinv⟩ := h
    obtain ⟨_, _, _, hlive, _⟩ := processCreate_inv hinv hp hrun name entry priority
    rw [← hs]
    refine .inl ⟨hlive, ?_⟩
    simpa [Op.creates, hrun] using processCreate_move s name entry priority
  | yield =>
    have hyield : Process.yield s = some s' := by
      simpa [step, hrun] using hstep
    cases hcur : s.current with
    | none =>
      have hs : s = s' := by simpa [Process.yield, hcur] using hyield
      rw [← hs]
      exact Returned.refl hrun
    | some cur =>
      obtain ⟨out, l, hheld, hinv⟩ := h
      obtain ⟨rfl, rfl⟩ := hheld.of_current hcur
      exact yield_move hinv hp hrun hcur hyield
  | exit =>
    have hs : processExit s = s' := by simpa [step, hrun] using hstep
    rw [← hs]
    exact h.exit_move hp hrun
  | kill pid =>
    obtain ⟨r, hkill, rfl⟩ : ∃ r, processKill s pid = some r ∧ r.2 = s' := by
      simpa [step, hrun] using hstep
    rcases processKill_cases hkill with rfl | rfl | hother
    · exact Returned.refl hrun
    · exact h.exit_move hp hrun
    · exact killOther_move hrun hother
  | user cpu stack =>
    have hs : { s with cpu := cpu, stack := stack } = s' := by
      simpa [step, hrun] using hstep
    rw [← hs]
    exact .inl ⟨hrun, .keep rfl ⟨rfl, rfl, rfl⟩⟩
  | schedulerSet id => exact absurd ho (by simp [Op.Fixed])
  | schedulerInit id => exact absurd ho (by simp [Op.Fixed])
  | start => exact absurd ho (by simp [Op.Fixed])

end

/-! ### The invariant -/

/-- The four places agree after `n` pids have been given out, none of them
twice. -/
structure TableInv (n : Nat) (s : Kernel) : Prop where
  few : n < 2 ^ 32
  next : s.nextPid = (n + 1) % 2 ^ 32
  count : s.processCount = (occupied s.table).card
  slots : ∀ x, SlotFree s x ↔ s.table x = none
  pids : ∀ x pid, s.table x = some pid → 0 < pid ∧ pid ≤ n
  distinct : Distinct s.table

section

variable {n k : Nat} {s s' : Kernel}

theorem card_occupied_le (s : Kernel) : (occupied s.table).card ≤ 64 :=
  (Finset.card_le_univ _).trans (by simp)

theorem TableInv.keep (h : TableInv n s) (htable : s'.table = s.table) (hcounts : SameCounts s s') :
    TableInv n s' where
  few := h.few
  next := hcounts.next.trans h.next
  count := by rw [htable, hcounts.count, h.count]
  slots x := by
    rw [htable, ← h.slots x]
    unfold SlotFree
    rw [hcounts.slots]
  pids := by rw [htable]; exact h.pids
  distinct := by rw [htable]; exact h.distinct

theorem TableInv.move (h : TableInv n s) (hmove : TableMove s s' k) (hfew : n + k < 2 ^ 32) :
    TableInv (n + k) s' := by
  cases hmove with
  | keep htable hcounts => exact h.keep htable hcounts
  | add x hfree htable hslots hcount hnext =>
    have hpid : s.nextPid = n + 1 := by
      rw [h.next, Nat.mod_eq_of_lt hfew]
    have hempty := (h.slots x).mp hfree
    have hcard := card_occupied_le s
    refine ⟨hfew, by rw [hnext, hpid], ?_, ?_, ?_, ?_⟩
    · rw [htable, card_occupied_add hempty, hcount, h.count, Nat.mod_eq_of_lt (by omega)]
    · intro y
      unfold SlotFree
      rw [htable, hslots, markSlotUsed_bit]
      by_cases hy : y = x
      · simp [hy]
      · rw [update_of_ne hy, ← h.slots y]
        exact and_iff_left (fun he => hy (Fin.ext he))
    · intro y pid hy
      rw [htable] at hy
      by_cases hyx : y = x
      · grind
      rw [update_of_ne hyx] at hy
      have := h.pids y pid hy
      omega
    · rw [htable]
      refine h.distinct.add x fun y hy => ?_
      have := (h.pids y _ hy).2
      omega
  | drop x hx htable hslots hcount hnext =>
    have hcard := card_occupied_drop hx
    have hle := card_occupied_le s
    refine ⟨hfew, hnext.trans h.next, ?_, ?_, ?_, ?_⟩
    · rw [htable, hcount, h.count, decCount]
      omega
    · intro y
      unfold SlotFree
      rw [htable, hslots, markSlotFree_bit]
      by_cases hy : y = x
      · simp [hy]
      · rw [update_of_ne hy, ← h.slots y]
        exact or_iff_left hy
    · intro y pid hy
      rw [htable] at hy
      exact h.pids y pid (some_of_drop hy).1
    · rw [htable]
      exact h.distinct.drop x

theorem processInit_table (s : Kernel) (idleEntry : Nat) :
    TableInv 1 (processInit s idleEntry) := by
  have hempty : ∀ x, (processReset s).table x = none := by
    intro x
    rw [table_none]
    simp [processReset, pcbInitTable, Pcb.listed]
  have hslots : (processReset s).slotFreeMap = BitVec.allOnes 64 := rfl
  have hreset : TableInv 0 (processReset s) := by
    refine ⟨by decide, rfl, ?_, ?_, ?_, ?_⟩
    · have hnone : occupied (processReset s).table = ∅ := by
        ext x
        simp [mem_occupied, hempty]
      rfl
    · intro x
      refine iff_of_true ?_ (hempty x)
      unfold SlotFree
      rw [hslots, BitVec.getLsbD_allOnes]
      exact decide_eq_true x.isLt
    · intro x pid hx
      cases hx
    · intro x y pid hx
      cases hx
  have hmove := processCreate_move (processReset s) [105, 100, 108, 101] idleEntry priorityLow
  have hsome : (processCreate (processReset s) [105, 100, 108, 101]
      idleEntry priorityLow).1.isSome := by
    rcases processCreate_cases (processReset s) [105, 100, 108, 101]
        idleEntry priorityLow with ⟨hfull, _⟩ | ⟨x, _, hx⟩
    · rw [hslots] at hfull
      exact absurd hfull (by decide)
    · rfl
  rw [if_pos hsome] at hmove
  exact hreset.move hmove (by decide)

theorem schedulerSet_counts (s : Kernel) (p : SchedulerId) : SameCounts s (schedulerSet s p) := by
  cases p <;> exact ⟨rfl, rfl, rfl⟩

end

end AresOS.Process
