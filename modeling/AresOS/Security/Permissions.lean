import AresOS.Security.Accounts

/-!
# Permission decisions

`auth_check_permission` looks the uid of the session up in the account table and
tests one bit of the mode.  The `is_root` flag of the account is not read: uid 0 is
the only superuser.  So in every table that the calls reach, and for every session,
the decision follows the account's rights except for the other superusers, who are
held to the bits of the mode.
-/

namespace AresOS.Auth

/-- The triplets of a file mode, from the lowest bits. -/
inductive FileClass where
  | other
  | group
  | owner

def Account.fileClass (u : Account) (fileUid fileGid : BitVec 32) : FileClass :=
  if u.uid = fileUid then .owner else if u.gid = fileGid then .group else .other

/-- The lowest bit of a triplet. -/
def FileClass.shift : FileClass → Nat
  | .other => 0
  | .group => 3
  | .owner => 6

def Account.bitSet (u : Account) (fileUid fileGid : BitVec 32)
    (fileMode : BitVec 16) (isWrite : Bool) : Bool :=
  fileMode.getLsbD ((u.fileClass fileUid fileGid).shift + if isWrite then 1 else 2)

def State.withSession (s : State) (session : BitVec 32) : State :=
  { s with currentUid := session.toInt }

/-- The account of the session: the active one with its uid, and the first of them
should a uid have been given twice. -/
structure SessionAccount (s : State) (i : Fin maxUsers) : Prop where
  active : (s.users i).active = true
  uid : s.currentUid = ((s.users i).uid.toNat : Int)
  first : ∀ j, j < i → (s.users j).active = true → (s.users j).uid ≠ (s.users i).uid

/-- What the account's rights allow. -/
def HasRight (s : State) (fileUid fileGid : BitVec 32) (fileMode : BitVec 16) (isWrite : Bool) :
    Prop := ∃ i, SessionAccount s i ∧ ((s.users i).isRoot = true ∨
    (s.users i).bitSet fileUid fileGid fileMode isWrite = true)

/-- The account of the session is a superuser, but not uid 0, and the mode does not
let it pass. -/
def SuperuserDenied (s : State) (fileUid fileGid : BitVec 32)
    (fileMode : BitVec 16) (isWrite : Bool) : Prop :=
  ∃ i, SessionAccount s i ∧ (s.users i).uid ≠ 0 ∧ (s.users i).isRoot = true ∧
    (s.users i).bitSet fileUid fileGid fileMode isWrite = false

section

variable {s : State} {session uid : BitVec 32} {i : Fin maxUsers}

theorem slotOf_eq_some_iff :
    slotOf s uid = some i ↔
    (s.users i).active = true ∧ (s.users i).uid = uid ∧
      ∀ j, j < i → (s.users j).active = true → (s.users j).uid ≠ uid := by
  rw [slotOf, slots, List.find?_eq_some_iff_getElem]
  simp only [Bool.and_eq_true, beq_iff_eq, List.getElem_finRange,
    List.length_finRange, Bool.not_eq_true', Bool.and_eq_false_iff, beq_eq_false_iff_ne]
  constructor
  · rintro ⟨⟨hactive, huid⟩, n, hn, rfl, hfirst⟩
    refine ⟨hactive, huid, fun j hj ha => ?_⟩
    exact (hfirst j hj).resolve_left (by simp [ha])
  · rintro ⟨hactive, huid, hfirst⟩
    refine ⟨⟨hactive, huid⟩, i, i.isLt, rfl, fun j hj => ?_⟩
    cases ha : (s.users ⟨j, hj.trans i.isLt⟩).active with
    | false => exact .inl (by simpa using ha)
    | true => exact .inr (by simpa using hfirst ⟨j, hj.trans i.isLt⟩ hj ha)

theorem sessionAccount_iff (h : 0 ≤ session.toInt) :
    SessionAccount (s.withSession session) i ↔ slotOf s session = some i := by
  have hnat : session.toInt = (session.toNat : Int) := by
    rw [BitVec.toInt_eq_toNat_cond] at h ⊢
    split at h <;> omega
  rw [slotOf_eq_some_iff]
  constructor
  · rintro ⟨hactive, huid, hfirst⟩
    have heq : (s.users i).uid = session := by
      change session.toInt = _ at huid
      rw [hnat] at huid
      exact BitVec.eq_of_toNat_eq (by exact_mod_cast huid.symm)
    exact ⟨hactive, heq, fun j hj ha => heq ▸ hfirst j hj ha⟩
  · rintro ⟨hactive, rfl, hfirst⟩
    exact ⟨hactive, hnat, hfirst⟩

theorem not_sessionAccount (h : session.toInt < 0) :
    ¬ SessionAccount (s.withSession session) i := by
  intro hi
  have huid := hi.uid
  change session.toInt = _ at huid
  omega

theorem and_mask (fileMode : BitVec 16) (u : Account) (fileUid fileGid : BitVec 32)
    (isWrite : Bool) :
    (fileMode &&& (if u.uid = fileUid then (if isWrite then 0x0080 else 0x0100)
          else if u.gid = fileGid then (if isWrite then 0x0010 else 0x0020)
          else if isWrite then 0x0002 else 0x0004) != 0) =
      u.bitSet fileUid fileGid fileMode isWrite := by
  have hbit : ∀ k, k < 16 → (fileMode &&& BitVec.twoPow 16 k != 0) = fileMode.getLsbD k := by
    intro k hk
    rw [BitVec.and_twoPow]
    cases fileMode.getLsbD k with
    | false => rfl
    | true =>
      have hne : BitVec.twoPow 16 k ≠ 0 := by
        intro heq
        have hk' := congrArg (fun x => BitVec.getLsbD x k) heq
        simp [hk] at hk'
      simpa using hne
  unfold Account.bitSet Account.fileClass
  split_ifs
  · exact hbit 7 (by decide)
  · exact hbit 8 (by decide)
  · exact hbit 4 (by decide)
  · exact hbit 5 (by decide)
  · exact hbit 1 (by decide)
  · exact hbit 2 (by decide)

end

/-! ### The root account -/

def rootSlot : Fin maxUsers := ⟨0, by decide⟩

structure RootSlot (s : State) : Prop where
  active : (s.users rootSlot).active = true
  uid : (s.users rootSlot).uid = 0
  isRoot : (s.users rootSlot).isRoot = true

section

variable {s : State}

theorem RootSlot.of_users (h : RootSlot s) {s' : State}
    (hu : s'.users rootSlot = s.users rootSlot) : RootSlot s' :=
  ⟨hu ▸ h.active, hu ▸ h.uid, hu ▸ h.isRoot⟩

theorem RootSlot.call (h : RootSlot s) (c : Call) : RootSlot (c.run s).2 := by
  have hout := c.outcome s
  generalize c.run s = r at hout ⊢
  generalize c.given s = g at hout
  cases hout with
  | refused => exact h
  | @created _ _ _ slot _ _ _ hfree =>
    have hslot : slot ≠ rootSlot := by
      rintro rfl
      simp [h.active] at hfree
    exact h.of_users (setUser_other _ hslot.symm)
  | @deleted _ i hroot _ huid =>
    have hi : i ≠ rootSlot := by
      rintro rfl
      exact hroot (huid.symm.trans h.uid)
    exact h.of_users (setUser_other _ hi.symm)
  | @changed _ password i =>
    by_cases hi : i = rootSlot
    · subst hi
      unfold State.rehashed
      constructor <;> rw [setUser_same]
      · exact h.active
      · exact h.uid
      · exact h.isRoot
    · exact h.of_users (setUser_other _ (Ne.symm hi))

theorem RootSlot.calls (h : RootSlot s) (calls : List Call) : RootSlot (afterCalls s calls) := by
  induction calls generalizing s with
  | nil => exact h
  | cons c calls ih => exact ih (h.call c)

theorem authInit_root : RootSlot authInit := by
  constructor <;> decide +kernel

theorem RootSlot.slotOf (h : RootSlot s) : slotOf s 0 = some rootSlot :=
  slotOf_eq_some_iff.mpr ⟨h.active, h.uid, fun j hj => absurd hj (Nat.not_lt_zero j)⟩

end

/-- In every table reached from `auth_init`, for every session and file, the decision
is the one that the account's rights allow, exactly unless the account is a superuser
other than uid 0 whose bit is not set. -/
theorem check_permission_follows_rights_iff (calls : List Call)
    (session fileUid fileGid : BitVec 32) (fileMode : BitVec 16) (isWrite : Bool) :
    let s := (afterCalls authInit calls).withSession session
    (authCheckPermission s fileUid fileGid fileMode isWrite = true ↔
      HasRight s fileUid fileGid fileMode isWrite) ↔
        ¬ SuperuserDenied s fileUid fileGid fileMode isWrite := by
  intro s
  have hroot := authInit_root.calls calls
  unfold authCheckPermission HasRight SuperuserDenied
  change ((if session.toInt < 0 then _ else _) = true ↔ _) ↔ _
  by_cases hneg : session.toInt < 0
  · have hno : ∀ i, ¬ SessionAccount s i := fun i => not_sessionAccount hneg
    simp [hneg, hno]
  have hiff : ∀ i, SessionAccount s i ↔ slotOf (afterCalls authInit calls) session = some i :=
    fun i => sessionAccount_iff (by omega)
  have hcur : BitVec.ofInt 32 s.currentUid = session := BitVec.ofInt_toInt
  simp only [hneg, if_false, hiff, hcur]
  by_cases hzero : session = 0
  · subst hzero
    rw [hroot.slotOf]
    have hs : (s.users rootSlot).uid = 0 ∧ (s.users rootSlot).isRoot = true :=
      ⟨hroot.uid, hroot.isRoot⟩
    simp [hs]
  have hslots : slotOf s session = slotOf (afterCalls authInit calls) session := rfl
  rw [if_neg hzero, hslots]
  cases hfound : slotOf (afterCalls authInit calls) session with
  | none => simp
  | some i =>
    have huid : (s.users i).uid = session := (slotOf_some hfound).2
    simp only [Option.some.injEq, exists_eq_left', ← huid, and_mask]
    rw [huid]
    cases (s.users i).isRoot <;> cases (s.users i).bitSet fileUid fileGid fileMode isWrite <;>
        simp [show session ≠ 0#32 from hzero]

/-- The administrator is a superuser, and is refused a file of another user that
only its owner may read. -/
theorem admin_denied :
    HasRight (authInit.withSession 1) 2 100 0x0100 false ∧
      authCheckPermission (authInit.withSession 1) 2 100 0x0100 false = false := by
  refine ⟨⟨⟨1, by decide⟩, ⟨by decide +kernel, by decide +kernel, by decide +kernel⟩,
    .inl (by decide +kernel)⟩, by decide +kernel⟩

end AresOS.Auth
