import AresOS.Drivers.AtaModel

/-!
# What a successful disk write has seen

A call of `ata_write_sectors` that returns 0 ends with an attempt whose
accesses are known: a wait for each sector, which looks at the error bits, the
data words, the cache flush, and a wait that only looks at BSY.  So the last
status value is the only one that can carry an error, and it is not examined.
-/

namespace AresOS.Ata

/-- The status values read, latest first. -/
def statuses (es : List Access) : List UInt8 :=
  es.filterMap fun
    | .status v => some v
    | _ => none

def Access.isWriteData : Access → Bool
  | .writeData _ => true
  | _ => false

/-- The accesses after the last write command. -/
def sinceCommand (es : List Access) : List Access := es.takeWhile (· ≠ .outb .command cmdWritePio)

/-- The accesses after the last data word. -/
def sinceData (es : List Access) : List Access := es.takeWhile fun e => !e.isWriteData

/-- After the data of the last sector a status with BSY clear has been read,
and no status with BSY clear since the write command has ERR or DF set. -/
structure ErrorsReported (es : List Access) : Prop where
  examined : ∃ v, v ∈ statuses (sinceData es) ∧ v &&& srBsy = 0
  clean : ∀ v, v ∈ statuses (sinceCommand es) → v &&& srBsy = 0 → v &&& (srErr ||| srDf) = 0

/-- `s₁` is the state after `k` failed attempts. -/
inductive FailedAttempts (lba : UInt32) (count : UInt8) (src : Nat → UInt8) :
    Nat → State → State → Prop
  | none (s : State) : FailedAttempts lba count src 0 s s
  | retry {k : Nat} {s s₁ : State} (hfail : (ataWriteOnce s lba count src).1 ≠ 0)
      (h : FailedAttempts lba count src k (ataSoftReset (ataWriteOnce s lba count src).2) s₁) :
      FailedAttempts lba count src (k + 1) s s₁

@[simp] theorem statuses_append (es fs : List Access) :
    statuses (es ++ fs) = statuses es ++ statuses fs := by
  simp [statuses]

@[simp] theorem statuses_map_status (vs : List UInt8) : statuses (vs.map .status) = vs := by
  simp [statuses, List.filterMap_map]

section

variable {s s' : State} {n : Nat}

theorem waitNotBusyLoop_succ (n : Nat) (s : State) :
    waitNotBusyLoop (n + 1) s =
      if s.inStatus.1 &&& srBsy = 0 then (0, s.inStatus.2)
      else waitNotBusyLoop n s.inStatus.2 := rfl

theorem waitDrqLoop_succ (n : Nat) (s : State) :
    waitDrqLoop (n + 1) s =
      if s.inStatus.1 &&& srBsy ≠ 0 then waitDrqLoop n s.inStatus.2
      else if s.inStatus.1 &&& (srErr ||| srDf) ≠ 0 then (-1, s.inStatus.2)
      else if s.inStatus.1 &&& srDrq ≠ 0 then (0, s.inStatus.2)
      else waitDrqLoop n s.inStatus.2 := rfl

theorem inStatus_log (s : State) : s.inStatus.2.log = .status s.inStatus.1 :: s.log := rfl

theorem waitNotBusyLoop_log (h : waitNotBusyLoop n s = (0, s')) :
    ∃ (v : UInt8) (vs : List UInt8),
      s'.log = (v :: vs).map .status ++ s.log ∧ v &&& srBsy = 0 ∧ ∀ u ∈ vs, u &&& srBsy ≠ 0 := by
  induction n generalizing s with
  | zero => cases h
  | succ n ih =>
    rw [waitNotBusyLoop_succ] at h
    by_cases hbusy : s.inStatus.1 &&& srBsy = 0
    · rw [if_pos hbusy] at h
      obtain ⟨-, rfl⟩ := Prod.mk.inj h
      exact ⟨s.inStatus.1, [], inStatus_log s, hbusy, by simp⟩
    rw [if_neg hbusy] at h
    obtain ⟨v, vs, hlog, hv, hvs⟩ := ih h
    refine ⟨v, vs ++ [s.inStatus.1], ?_, hv, ?_⟩
    · rw [hlog, inStatus_log]
      simp
    · grind

/-- A status that is busy or without error. -/
def CleanStatus (v : UInt8) : Prop := v &&& srBsy = 0 → v &&& (srErr ||| srDf) = 0

theorem waitDrqLoop_log (h : waitDrqLoop n s = (0, s')) :
    ∃ vs : List UInt8, s'.log = vs.map .status ++ s.log ∧ ∀ u ∈ vs, CleanStatus u := by
  induction n generalizing s with
  | zero => cases h
  | succ n ih =>
    -- A round that goes on has read one more value.
    have hmore (hok : CleanStatus s.inStatus.1) (hloop : waitDrqLoop n s.inStatus.2 = (0, s')) :
        ∃ vs : List UInt8, s'.log = vs.map .status ++ s.log ∧ ∀ u ∈ vs, CleanStatus u := by
      obtain ⟨vs, hlog, hvs⟩ := ih hloop
      refine ⟨vs ++ [s.inStatus.1], ?_, ?_⟩
      · rw [hlog, inStatus_log]
        simp
      · grind
    rw [waitDrqLoop_succ] at h
    by_cases hbusy : s.inStatus.1 &&& srBsy ≠ 0
    · rw [if_pos hbusy] at h
      exact hmore (fun hclear => absurd hclear hbusy) h
    rw [if_neg hbusy] at h
    by_cases herr : s.inStatus.1 &&& (srErr ||| srDf) ≠ 0
    · rw [if_pos herr] at h
      cases h
    rw [if_neg herr] at h
    have hok : CleanStatus s.inStatus.1 := fun _ => not_not.mp herr
    by_cases hdrq : s.inStatus.1 &&& srDrq ≠ 0
    · rw [if_pos hdrq] at h
      obtain ⟨-, rfl⟩ := Prod.mk.inj h
      refine ⟨[s.inStatus.1], inStatus_log s, ?_⟩
      intro u hu
      rwa [List.mem_singleton.mp hu]
    · grind

end

/-- The four reads of `ata_io_delay`. -/
def delay : List Access := [.altStatus, .altStatus, .altStatus, .altStatus]

theorem ataIoDelay_log (s : State) : (ataIoDelay s).log = delay ++ s.log := rfl

theorem ataProgramLba_log (s : State) (lba : UInt32) (count : UInt8) :
    ∃ pre, (ataProgramLba s lba count).log = pre ++ s.log := by
  exact ⟨[.outb .lbaHi _, .outb .lbaMid _, .outb .lbaLo _, .outb .seccount _,
    .outb .features _] ++ delay ++ [.outb .drive _], rfl⟩

def TransferAccess (e : Access) : Prop :=
  (∃ w, e = .writeData w) ∨ ∃ v, e = .status v ∧ CleanStatus v

section

variable {s s' : State} {src : Nat → UInt8}

theorem foldl_outw_log (f : Nat → UInt16) (is : List Nat) (s : State) :
    (is.foldl (fun s i => s.outw (f i)) s).log = (is.map f).reverse.map .writeData ++ s.log := by
  induction is generalizing s with
  | nil => rfl
  | cons i is ih =>
    rw [List.foldl_cons, ih]
    simp [State.outw]

theorem ataPioWriteSector_log (s : State) (src : Nat → UInt8) (off : Nat) :
    ∃ (w : UInt16) (ws : List UInt16), (ataPioWriteSector s src off).log =
      (w :: ws).map .writeData ++ s.log := by
  have hne : ((List.range 256).map fun i =>
      (src (off + 2 * i)).toUInt16 |||
        ((src (off + 2 * i + 1)).toUInt16 <<< 8)).reverse ≠ [] := by
    simp
  obtain ⟨w, ws, hws⟩ := List.exists_cons_of_ne_nil hne
  exact ⟨w, ws, by rw [← hws, ← foldl_outw_log, ataPioWriteSector]⟩

theorem writeSectors_log {n k : Nat} (h : writeSectors src n k s = (0, s')) :
    ∃ es, s'.log = es ++ s.log ∧ (∀ e ∈ es, TransferAccess e) ∧
      (0 < n → ∃ w rest, es = .writeData w :: rest) := by
  induction n generalizing k s with
  | zero =>
    obtain ⟨-, rfl⟩ := Prod.mk.inj h
    exact ⟨[], rfl, by simp, by simp⟩
  | succ n ih =>
    rw [writeSectors] at h
    split at h
    case h_2 => cases h
    case h_1 r hwait =>
    obtain ⟨vs, hr, hvs⟩ := waitDrqLoop_log hwait
    obtain ⟨w, ws, hsector⟩ := ataPioWriteSector_log r src (k * sectorSize)
    obtain ⟨es, hlog, hes, hdata⟩ := ih h
    refine ⟨es ++ ((w :: ws).map .writeData ++ vs.map .status),
      by rw [hlog, hsector, hr]; simp, ?_, fun _ => ?_⟩
    · intro e he
      simp only [List.mem_append, List.mem_map] at he
      rcases he with he | ⟨u, -, rfl⟩ | ⟨u, hu, rfl⟩
      · exact hes e he
      · exact .inl ⟨u, rfl⟩
      · exact .inr ⟨u, rfl, hvs u hu⟩
    · -- The last word is this sector's when it is the last one.
      cases n with
      | zero =>
        obtain ⟨-, rfl⟩ := Prod.mk.inj h
        have hnil : es = [] := by simpa using hlog
        exact ⟨w, _, by rw [hnil]; rfl⟩
      | succ n =>
        obtain ⟨w', rest, rfl⟩ := hdata (by omega)
        exact ⟨w', _, rfl⟩

/-- The wait for the cache flush that reads the values `vs`, with the flush
command before it. -/
def flushed (vs : List UInt8) : List Access :=
  vs.map .status ++ (delay ++ [.outb .command cmdCacheFlush])

/-- The accesses of an attempt that succeeds, latest first: the wait for the
flush ends with `v`, before it stand the sectors and the write command. -/
def WriteAttempt (v : UInt8) (es : List Access) : Prop :=
  ∃ (vs : List UInt8) (w : UInt16) (sectors start : List Access),
    es = flushed (v :: vs) ++ .writeData w ::
      (sectors ++ (delay ++ .outb .command cmdWritePio :: start)) ∧
    v &&& srBsy = 0 ∧ (∀ u, u ∈ vs → u &&& srBsy ≠ 0) ∧ ∀ e, e ∈ sectors → TransferAccess e

theorem ataWriteOnce_log {lba : UInt32} {count : UInt8} (hcount : count ≠ 0)
    (h : ataWriteOnce s lba count src = (0, s')) :
    ∃ v es, s'.log = es ++ s.log ∧ WriteAttempt v es := by
  have hpos : 0 < count.toNat := by
    rw [Nat.pos_iff_ne_zero]
    intro hzero
    exact hcount (UInt8.toNat_inj.mp hzero)
  unfold ataWriteOnce at h
  split at h
  case h_2 => cases h
  case h_1 s₁ hwait =>
  obtain ⟨u, us, hlog₁, -, -⟩ := waitNotBusyLoop_log hwait
  simp only at h
  split at h
  case h_2 => cases h
  case h_1 s₂ hsectors =>
  obtain ⟨es, hlog₂, hes, hdata⟩ := writeSectors_log hsectors
  obtain ⟨v, vs, hlog₃, hv, hvs⟩ := waitNotBusyLoop_log h
  obtain ⟨w, sectors, rfl⟩ := hdata hpos
  obtain ⟨pre, hpre⟩ := ataProgramLba_log s₁ lba count
  refine ⟨v, _, ?_, vs, w, sectors, pre ++ (u :: us).map .status, rfl, hv, hvs,
    fun e he => hes e (List.mem_cons_of_mem _ he)⟩
  rw [hlog₃, ataIoDelay_log, State.outb, hlog₂, ataIoDelay_log, State.outb, hpre, hlog₁]
  simp [flushed]

end

/-! ### The status values of an attempt -/

@[simp] theorem statuses_delay : statuses delay = [] := rfl

@[simp] theorem statuses_writeData (w : UInt16) (es : List Access) :
    statuses (.writeData w :: es) = statuses es := rfl

@[simp] theorem statuses_flushed (vs : List UInt8) : statuses (flushed vs) = vs := by
  rw [flushed, statuses_append, statuses_map_status, statuses_append]
  exact List.append_nil vs

theorem mem_flushed {vs : List UInt8} {e : Access} (he : e ∈ flushed vs) :
    e.isWriteData = false ∧ e ≠ .outb .command cmdWritePio := by
  have hcommand : ∀ e ∈ delay ++ [.outb .command cmdCacheFlush],
      e.isWriteData = false ∧ e ≠ .outb .command cmdWritePio := by
    decide
  rcases List.mem_append.mp he with he | he
  · obtain ⟨u, -, rfl⟩ := List.mem_map.mp he
    exact ⟨rfl, by simp⟩
  · exact hcommand e he

theorem takeWhile_boundary {α : Type*} {p : α → Bool} {xs ys : List α} {a : α}
    (hxs : ∀ x ∈ xs, p x = true) (ha : p a = false) : (xs ++ a :: ys).takeWhile p = xs := by
  rw [List.takeWhile_append_of_pos hxs, List.takeWhile_cons_of_neg (by simp [ha]), List.append_nil]

theorem TransferAccess.ne_command {e : Access} (he : TransferAccess e) :
    e ≠ .outb .command cmdWritePio := by
  rcases he with ⟨w, rfl⟩ | ⟨v, rfl, -⟩
  · simp
  · simp

theorem statuses_sectors {es : List Access} (hes : ∀ e ∈ es, TransferAccess e) :
    ∀ u ∈ statuses es, CleanStatus u := by
  intro u hu
  obtain ⟨e, he, heu⟩ := List.mem_filterMap.mp hu
  rcases hes e he with ⟨w, rfl⟩ | ⟨v, rfl, hv⟩
  · cases heu
  · cases heu
    exact hv

theorem WriteAttempt.errorsReported_iff {v : UInt8} {es : List Access} (h : WriteAttempt v es) :
    (statuses es).head? = some v ∧ (ErrorsReported es ↔ v &&& (srErr ||| srDf) = 0) := by
  obtain ⟨vs, w, sectors, start, rfl, hv, hvs, hsectors⟩ := h
  have hdata : statuses (sinceData (flushed (v :: vs) ++ .writeData w ::
      (sectors ++ (delay ++ .outb .command cmdWritePio :: start)))) = v :: vs := by
    rw [sinceData, takeWhile_boundary (fun e he => by simp [(mem_flushed he).1]) rfl,
      statuses_flushed]
  have hcommand : statuses (sinceCommand (flushed (v :: vs) ++ .writeData w ::
      (sectors ++ (delay ++ .outb .command cmdWritePio :: start)))) =
      v :: (vs ++ statuses sectors) := by
    rw [show flushed (v :: vs) ++ .writeData w ::
        (sectors ++ (delay ++ .outb .command cmdWritePio :: start)) =
      (flushed (v :: vs) ++ .writeData w :: (sectors ++ delay)) ++
        .outb .command cmdWritePio :: start by simp]
    rw [sinceCommand, takeWhile_boundary ?_ (by simp)]
    · simp
    · intro e he
      simp only [List.mem_append, List.mem_cons] at he
      rcases he with he | rfl | he | he
      · simp [(mem_flushed he).2]
      · simp
      · simp [(hsectors e he).ne_command]
      · revert e
        decide
  refine ⟨by simp, ?_, ?_⟩
  · intro hreported
    exact hreported.clean v (by rw [hcommand]; simp) hv
  · intro hclean
    refine ⟨⟨v, by rw [hdata]; simp, hv⟩, ?_⟩
    intro u hu
    rw [hcommand, List.mem_cons, List.mem_append] at hu
    rcases hu with rfl | hu | hu
    · exact fun _ => hclean
    · grind
    · exact statuses_sectors hsectors u hu

/-! ### The attempts -/

theorem writeAttempts_succeeds {lba : UInt32} {count : UInt8} {src : Nat → UInt8}
    {n : Nat} {s s' : State} (h : writeAttempts lba count src n s = (0, s')) :
    ∃ k s₁, k < n ∧ FailedAttempts lba count src k s s₁ ∧
      ataWriteOnce s₁ lba count src = (0, s') := by
  induction n generalizing s with
  | zero => cases h
  | succ n ih =>
    rw [writeAttempts] at h
    split at h
    · next s₁ honce =>
        obtain ⟨-, rfl⟩ := Prod.mk.inj h
        exact ⟨0, s, by omega, .none s, honce⟩
    next r s₁ hfail honce =>
      obtain ⟨k, s₂, hk, hfailed, hlast⟩ := ih h
      have hne : (ataWriteOnce s lba count src).1 ≠ 0 := by
        rwa [honce]
      refine ⟨k + 1, s₂, by omega, .retry hne ?_, hlast⟩
      rwa [honce]

/-- The attempt that succeeds reports the errors of the drive exactly when the
status that ends the wait after the cache flush, the last one read, has neither
ERR nor DF set. -/
theorem ataWriteSectors_errors_iff (s s' : State) (lba : UInt32) (count : UInt8)
    (buffer : Option (Nat → UInt8)) (h : ataWriteSectors s lba count buffer = (0, s')) :
    ∃ src k s₁ es v, buffer = some src ∧ k < retryCount ∧ FailedAttempts lba count src k s s₁ ∧
      ataWriteOnce s₁ lba count src = (0, s') ∧ s'.log = es ++ s₁.log ∧
      (statuses es).head? = some v ∧ (ErrorsReported es ↔ v &&& (srErr ||| srDf) = 0) := by
  unfold ataWriteSectors at h
  split at h
  case h_1 => cases h
  case h_2 src =>
  split at h
  · cases h
  next hcount =>
    split at h
    · cases h
    split at h
    · cases h
    obtain ⟨k, s₁, hk, hfailed, honce⟩ := writeAttempts_succeeds h
    obtain ⟨v, es, hlog, hattempt⟩ := ataWriteOnce_log hcount honce
    exact ⟨src, k, s₁, es, v, rfl, hk, hfailed, honce, hlog, hattempt.errorsReported_iff⟩

/-- A drive whose status register answers `answers` in turn, then `last`. -/
def driveOf (answers : List UInt8) (last : UInt8) : State :=
  { present := true
    drive := { status := fun k => answers.getD k last, data := fun _ => 0,
               lba := fun _ => 0 }
    statusReads := 0, dataReads := 0, lbaReads := 0, log := [] }

/-- One sector of zeros written to a drive that is always ready for data. -/
theorem ataWriteSectors_errors_ready :
    (ataWriteSectors (driveOf [] 0x48) 0 1 (some fun _ => 0)).1 = 0 ∧
      ∃ src k s₁ es v, some (fun _ => 0) = some src ∧ k < retryCount ∧
        FailedAttempts 0 1 src k (driveOf [] 0x48) s₁ ∧ ataWriteOnce s₁ 0 1 src =
          (0, (ataWriteSectors (driveOf [] 0x48) 0 1 (some fun _ => 0)).2) ∧
        (ataWriteSectors (driveOf [] 0x48) 0 1 (some fun _ => 0)).2.log = es ++ s₁.log ∧
        (statuses es).head? = some v ∧ (ErrorsReported es ↔ v &&& (srErr ||| srDf) = 0) := by
  have hzero : (ataWriteSectors (driveOf [] 0x48) 0 1 (some fun _ => 0)).1 = 0 := by
    decide +kernel
  exact ⟨hzero, ataWriteSectors_errors_iff _ _ 0 1 (some fun _ => 0) (Prod.ext hzero rfl)⟩

/-- The drive takes the sector and then fails the cache flush with ERR and DF:
the write returns 0 at its first attempt. -/
theorem ataWriteSectors_flush_fails :
    ∃ s', ataWriteSectors (driveOf [0x40, 0x48] 0x61) 0 1 (some fun _ => 0) = (0, s') ∧
      ataWriteOnce (driveOf [0x40, 0x48] 0x61) 0 1 (fun _ => 0) = (0, s') ∧
      ¬ ErrorsReported s'.log := by
  refine ⟨(ataWriteOnce (driveOf [0x40, 0x48] 0x61) 0 1 fun _ => 0).2, ?_⟩
  have hrun : (ataWriteOnce (driveOf [0x40, 0x48] 0x61) 0 1 fun _ => 0).1 = 0 ∧
      0x61 ∈ statuses (sinceCommand
        (ataWriteOnce (driveOf [0x40, 0x48] 0x61) 0 1 fun _ => 0).2.log) := by
    decide +kernel
  have honce := Prod.ext (y := ((0 : Int),
    (ataWriteOnce (driveOf [0x40, 0x48] 0x61) 0 1 fun _ => 0).2)) hrun.1 rfl
  refine ⟨?_, honce, ?_⟩
  · have hattempts : ataWriteSectors (driveOf [0x40, 0x48] 0x61) 0 1
        (some fun _ => 0) = writeAttempts 0 1 (fun _ => 0) 3 (driveOf [0x40, 0x48] 0x61) := by
      simp [ataWriteSectors, driveOf, maxLba28, retryCount]
    rfl
  · intro hreported
    exact absurd (hreported.clean 0x61 hrun.2 (by decide)) (by decide)

end AresOS.Ata
