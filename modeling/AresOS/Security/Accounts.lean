import AresOS.Security.AuthModel

/-!
# The account table

Runs of `auth_create_user`, `auth_delete_user` and `auth_change_password` from
`auth_init`.

* Each call either is refused and changes nothing or fills, clears or rehashes
  one slot (`CreateOutcome`, `DeleteOutcome`, `ChangeOutcome`).
* Active accounts have distinct uids and distinct, well-formed names, and root
  is always there.
* A new uid is one past the largest live uid, so it is fresh exactly when the
  account with the largest uid ever given is still active.
-/

namespace AresOS.Auth

open ByteBlock
open Aresfs (CString)

/-! ### Searching the slots -/

theorem mem_slots (i : Fin maxUsers) : i ∈ slots := List.mem_finRange i

section

variable {s : State} {uid : BitVec 32} {i : Fin maxUsers}

theorem slotOf_some (h : slotOf s uid = some i) :
    (s.users i).active = true ∧ (s.users i).uid = uid := by
  have hi := List.find?_some h
  rwa [Bool.and_eq_true, beq_iff_eq] at hi

theorem freeSlot_some (h : freeSlot s = some i) : (s.users i).active = false := by
  simpa using List.find?_some h

theorem authStrcmp_eq_zero (a : Bytes usernameMax) (b : CString) :
    authStrcmp a b = 0 ↔ a.string = b.bytes := strcmpAt_string a b.noNul

theorem isDuplicate_false {username : CString}
    (h : isDuplicate s username = false) (ha : (s.users i).active = true) :
    (s.users i).username.string ≠ username.bytes := by
  intro hname
  have hi := List.any_eq_false.mp h i (mem_slots i)
  rw [ha, (authStrcmp_eq_zero _ _).mpr hname] at hi
  exact hi rfl

end

/-! ### What the calls do -/

inductive Call where
  | create (username password : Option CString) (isRoot : Bool)
  | delete (uid : BitVec 32)
  | change (uid : BitVec 32) (password : Option CString)

def Call.run (s : State) : Call → Int × State
  | .create username password isRoot => authCreateUser s username password isRoot
  | .delete uid => authDeleteUser s uid
  | .change uid password => authChangePassword s uid password

def Call.given (s : State) : Call → Option (BitVec 32)
  | .create username password isRoot =>
    let r := authCreateUser s username password isRoot
    if r.2.userCount = s.userCount + 1 then some (BitVec.ofInt 32 r.1)
    else none
  | _ => none

def State.withNew (s : State) (slot : Fin maxUsers) (username password : CString) (isRoot : Bool) :
    State :=
  { s.setUser slot ((s.users slot).fill username password (nextUid s)
      (if isRoot then nextUid s else 100) isRoot) with
    userCount := s.userCount + 1 }

def State.without (s : State) (i : Fin maxUsers) : State :=
  { s.setUser i .zero with
    userCount := if s.userCount > 0 then s.userCount - 1 else s.userCount }

/-- The state with another password in a slot. -/
def State.rehashed (s : State) (i : Fin maxUsers) (password : CString) : State :=
  s.setUser i { s.users i with
    passwordHash := authHashPassword (some password) (s.users i).passwordHash }

/-- What a call returns, leaves and gives. -/
inductive CallOutcome (s : State) : Call → Int × State → Option (BitVec 32) → Prop
  | refused {c : Call} : CallOutcome s c (-1, s) none
  | created {username password : CString} {isRoot : Bool}
      {slot : Fin maxUsers} (hne : username.bytes ≠ []) (hlen : username.bytes.length < usernameMax)
      (hnew : ∀ i, (s.users i).active = true → (s.users i).username.string ≠ username.bytes)
      (hfree : (s.users slot).active = false) :
      CallOutcome s (.create (some username) (some password) isRoot)
        ((nextUid s).toInt, s.withNew slot username password isRoot) (some (nextUid s))
  | deleted {uid : BitVec 32} {i : Fin maxUsers} (hroot : uid ≠ 0)
      (hactive : (s.users i).active = true) (huid : (s.users i).uid = uid) :
      CallOutcome s (.delete uid) (0, s.without i) none
  | changed {uid : BitVec 32} {password : CString} {i : Fin maxUsers}
      (hactive : (s.users i).active = true) (huid : (s.users i).uid = uid) :
      CallOutcome s (.change uid (some password)) (0, s.rehashed i password) none

theorem given_refused {s : State} {username password : Option CString} {isRoot : Bool}
    (h : authCreateUser s username password isRoot = (-1, s)) :
    (Call.create username password isRoot).given s = none := by
  rw [Call.given, h]
  exact if_neg (show ¬ s.userCount = s.userCount + 1 by omega)

theorem create_outcome (s : State) (username password : Option CString) (isRoot : Bool) :
    CallOutcome s (.create username password isRoot) (authCreateUser s username password isRoot)
      ((Call.create username password isRoot).given s) := by
  have hrefused : authCreateUser s username password isRoot = (-1, s) →
      CallOutcome s (.create username password isRoot) (authCreateUser s username password isRoot)
        ((Call.create username password isRoot).given s) := by
    intro h
    rw [given_refused h, h]
    exact .refused
  match username, password with
  | none, _ => exact hrefused rfl
  | some _, none => exact hrefused rfl
  | some username, some password =>
    by_cases hne : username.bytes = []
    · exact hrefused (by simp [authCreateUser, hne])
    by_cases hlen : username.bytes.length ≥ usernameMax
    · exact hrefused (by simp [authCreateUser, hne, hlen])
    cases hdup : isDuplicate s username with
    | true => exact hrefused (by simp [authCreateUser, hne, hlen, hdup])
    | false =>
      cases hslot : freeSlot s with
      | none => exact hrefused (by simp [authCreateUser, hne, hlen, hdup, hslot])
      | some slot =>
        have hrun : authCreateUser s (some username) (some password) isRoot = ((nextUid s).toInt,
              s.withNew slot username password isRoot) := by
          simp only [authCreateUser, hne, hlen, hdup, hslot, if_false, Bool.false_eq_true]
          rfl
        have hgiven : (Call.create (some username) (some password)
            isRoot).given s = some (nextUid s) := by
          rw [Call.given, hrun]
          exact (if_pos rfl).trans (by rw [BitVec.ofInt_toInt])
        rw [hgiven, hrun]
        exact .created hne (by omega) (fun i => isDuplicate_false hdup) (freeSlot_some hslot)

theorem delete_outcome (s : State) (uid : BitVec 32) :
    CallOutcome s (.delete uid) (authDeleteUser s uid) none := by
  unfold authDeleteUser
  by_cases hroot : uid = 0
  · rw [if_pos hroot]
    exact .refused
  rw [if_neg hroot]
  cases hslot : slotOf s uid with
  | none => exact .refused
  | some i => exact .deleted hroot (slotOf_some hslot).1 (slotOf_some hslot).2

theorem change_outcome (s : State) (uid : BitVec 32) (password : Option CString) :
    CallOutcome s (.change uid password) (authChangePassword s uid password)
      none := by
  cases password with
  | none => exact .refused
  | some password =>
    unfold authChangePassword
    cases hslot : slotOf s uid with
    | none => exact .refused
    | some i => exact .changed (slotOf_some hslot).1 (slotOf_some hslot).2

theorem Call.outcome (s : State) (c : Call) : CallOutcome s c (c.run s) (c.given s) := by
  cases c with
  | create username password isRoot => exact create_outcome s username password isRoot
  | delete uid => exact delete_outcome s uid
  | change uid password => exact change_outcome s uid password

/-! ### Runs -/

def afterCalls (s : State) : List Call → State
  | [] => s
  | c :: calls => afterCalls (c.run s).2 calls

def givenUids (s : State) : List Call → List (BitVec 32)
  | [] => []
  | c :: calls => (c.given s).toList ++ givenUids (c.run s).2 calls

/-! ### The next uid -/

def lastUid : BitVec 32 := 0xFFFFFFFF

theorem lt_add_one {x : BitVec 32} (h : x ≠ lastUid) : x < x + 1 := by
  unfold lastUid at h
  bv_omega

/-- The body of the loop that computes the next uid. -/
def raise (s : State) (next : BitVec 32) (i : Fin maxUsers) : BitVec 32 :=
  if !(s.users i).active then next
  else if (s.users i).uid ≥ next then (s.users i).uid + 1
  else next

section

variable {s : State}

theorem raise_spec {i : Fin maxUsers} (h : (s.users i).active = true → (s.users i).uid ≠ lastUid)
    (next : BitVec 32) :
    next ≤ raise s next i ∧
      ((s.users i).active = true → (s.users i).uid < raise s next i) ∧
      (raise s next i = next ∨ (s.users i).active = true ∧
        raise s next i = (s.users i).uid + 1) := by
  unfold raise
  cases ha : (s.users i).active with
  | false => simp
  | true =>
    have hlt := lt_add_one (h ha)
    by_cases hge : (s.users i).uid ≥ next
    · grind
    · grind

theorem foldl_raise (l : List (Fin maxUsers))
    (h : ∀ i, (s.users i).active = true → (s.users i).uid ≠ lastUid) :
    ∀ next, next ≤ l.foldl (raise s) next ∧ (∀ i ∈ l, (s.users i).active = true →
        (s.users i).uid < l.foldl (raise s) next) ∧
      (l.foldl (raise s) next = next ∨ ∃ i, (s.users i).active = true ∧
        l.foldl (raise s) next = (s.users i).uid + 1) := by
  induction l with
  | nil => exact fun next => ⟨BitVec.le_refl _, by simp, .inl rfl⟩
  | cons i l ih =>
    intro next
    obtain ⟨hle, hbelow, horigin⟩ := raise_spec (h i) next
    obtain ⟨hle', hbelow', horigin'⟩ := ih (raise s next i)
    rw [List.foldl_cons]
    refine ⟨BitVec.le_trans hle hle', ?_, ?_⟩
    · grind
    · rcases horigin' with heq | hsome
      · rw [heq]
        exact horigin.imp_right fun hi => ⟨i, hi⟩
      · exact .inr hsome

theorem nextUid_spec (h : ∀ i, (s.users i).active = true → (s.users i).uid ≠ lastUid) :
    (∀ i, (s.users i).active = true → (s.users i).uid < nextUid s) ∧
      (nextUid s = 0 ∨ ∃ i, (s.users i).active = true ∧ nextUid s = (s.users i).uid + 1) := by
  obtain ⟨_, hbelow, horigin⟩ := foldl_raise slots h 0
  exact ⟨fun i => hbelow i (mem_slots i), horigin⟩

end

/-! ### The invariant of the table -/

def activeCount (s : State) : Nat := (Finset.univ.filter fun i => (s.users i).active = true).card

structure Table (s : State) : Prop where
  uids : ∀ i j, (s.users i).active = true → (s.users j).active = true →
    (s.users i).uid = (s.users j).uid → i = j
  names : ∀ i j, (s.users i).active = true → (s.users j).active = true →
    (s.users i).username.string = (s.users j).username.string → i = j
  nonempty : ∀ i, (s.users i).active = true → (s.users i).username.string ≠ []
  terminated : ∀ i, (s.users i).active = true → (s.users i).username.string.length ≤ 23 ∧
      (s.users i).username.byte (s.users i).username.string.length = 0
  count : s.userCount = activeCount s
  root : ∃ i, (s.users i).active = true ∧ (s.users i).uid = 0 ∧
    (s.users i).username.string = rootName.bytes

/-- The active uids are below a bound. -/
def Below (s : State) (n : Nat) : Prop := ∀ i, (s.users i).active = true → (s.users i).uid.toNat < n

section

variable {s : State}

variable {slot : Fin maxUsers} {u : Account}

@[simp]
theorem setUser_same (i : Fin maxUsers) (u : Account) : (s.setUser i u).users i = u := by
  simp [State.setUser]

theorem setUser_other {i j : Fin maxUsers} (u : Account) (h : j ≠ i) :
    (s.setUser i u).users j = s.users j := by
  simp [State.setUser, h]

theorem fill_name (u : Account) {username : CString} (password : CString)
    (uid gid : BitVec 32) (isRoot : Bool) (hlen : username.bytes.length < usernameMax) :
    (u.fill username password uid gid isRoot).username.string = username.bytes ∧
      (u.fill username password uid gid isRoot).username.byte username.bytes.length = 0 := by
  have hcopy : (u.fill username password uid gid isRoot).username =
      u.username.strcpyAt usernameMax 0 username.bytes := rfl
  rw [hcopy]
  refine ⟨string_strcpyAt u.username username.noNul hlen, ?_⟩
  rw [byte_strcpyAt _ _ (by omega) hlen, if_neg (by omega), if_pos (by omega)]

theorem distinct_setUser {α : Type} {k : Account → α}
    (h : ∀ i j, (s.users i).active = true → (s.users j).active = true →
      k (s.users i) = k (s.users j) → i = j)
    (hu : u.active = true → ∀ j, j ≠ slot → (s.users j).active = true → k (s.users j) ≠ k u) :
    ∀ i j, ((s.setUser slot u).users i).active = true → ((s.setUser slot u).users j).active = true →
      k ((s.setUser slot u).users i) = k ((s.setUser slot u).users j) → i = j := by
  intro i j hi hj heq
  by_cases his : i = slot
  · by_cases hjs : j = slot
    · rw [his, hjs]
    · subst his
      rw [setUser_same] at hi heq
      rw [setUser_other u hjs] at hj heq
      exact absurd heq.symm (hu hi j hjs hj)
  by_cases hjs : j = slot
  · subst hjs
    rw [setUser_same] at hj heq
    rw [setUser_other u his] at hi heq
    exact absurd heq (hu hj i his hi)
  · rw [setUser_other u his] at hi heq
    rw [setUser_other u hjs] at hj heq
    exact h i j hi hj heq

theorem forall_setUser {P : Account → Prop} (h : ∀ i, (s.users i).active = true → P (s.users i))
    (hu : u.active = true → P u) :
    ∀ i, ((s.setUser slot u).users i).active = true → P ((s.setUser slot u).users i) := by
  intro i hi
  by_cases his : i = slot
  · subst his
    rw [setUser_same] at hi ⊢
    exact hu hi
  · rw [setUser_other u his] at hi ⊢
    exact h i hi

theorem activeCount_fill (hfree : (s.users slot).active = false) (hu : u.active = true) :
    activeCount (s.setUser slot u) = activeCount s + 1 := by
  have hset : (Finset.univ.filter fun i =>
      ((s.setUser slot u).users i).active = true) =
      insert slot (Finset.univ.filter fun i =>
        (s.users i).active = true) := by
    ext i
    by_cases his : i = slot
    · subst his
      simp [hu]
    · simp [setUser_other u his, his]
  rw [activeCount, hset, Finset.card_insert_of_notMem (by simp [hfree]), activeCount]

theorem activeCount_clear (hactive : (s.users slot).active = true) (hu : u.active = false) :
    activeCount (s.setUser slot u) + 1 = activeCount s := by
  have hset : (Finset.univ.filter fun i =>
      ((s.setUser slot u).users i).active = true) =
      (Finset.univ.filter fun i => (s.users i).active = true).erase slot := by
    ext i
    by_cases his : i = slot
    · subst his
      simp [hu]
    · simp [setUser_other u his, his]
  rw [activeCount, hset, Finset.card_erase_add_one (by simp [hactive]), activeCount]

theorem activeCount_same (hu : u.active = (s.users slot).active) :
    activeCount (s.setUser slot u) = activeCount s := by
  unfold activeCount
  congr 1
  ext i
  by_cases his : i = slot
  · subst his
    simp [hu]
  · simp [setUser_other u his]

theorem Table.create (h : Table s) {username password : CString} (isRoot : Bool)
    (hlast : ∀ i, (s.users i).active = true → (s.users i).uid ≠ lastUid)
    (hne : username.bytes ≠ []) (hlen : username.bytes.length < usernameMax)
    (hnew : ∀ i, (s.users i).active = true → (s.users i).username.string ≠ username.bytes)
    (hfree : (s.users slot).active = false) : Table (s.withNew slot username password isRoot) := by
  obtain ⟨hname, hend⟩ := fill_name (s.users slot) password (nextUid s)
    (if isRoot then nextUid s else 100) isRoot hlen
  have hlength : username.bytes.length ≤ 23 := Nat.le_of_lt_succ hlen
  have hbelow := (nextUid_spec hlast).1
  refine ⟨distinct_setUser h.uids fun _ j _ hj heq => ?_,
    distinct_setUser (k := fun u => u.username.string) h.names fun _ j _ hj heq => ?_,
    forall_setUser (P := fun u => u.username.string ≠ []) h.nonempty fun _ => ?_,
    forall_setUser (P := fun u => u.username.string.length ≤ 23 ∧
      u.username.byte u.username.string.length = 0) h.terminated fun _ => ?_,
    ?_, ?_⟩
  · have hlt := hbelow j hj
    rw [heq] at hlt
    exact absurd hlt (BitVec.lt_irrefl _)
  · exact hnew j hj (heq.trans hname)
  · rwa [hname]
  · rw [hname]
    exact ⟨hlength, hend⟩
  · change s.userCount + 1 = (activeCount (s.setUser slot _) : Int)
    rw [activeCount_fill hfree rfl, h.count]
    rfl
  · obtain ⟨i, hi, hroot⟩ := h.root
    have his : i ≠ slot := by
      rintro rfl
      rw [hfree] at hi
      cases hi
    refine ⟨i, ?_⟩
    rw [State.withNew, setUser_other _ his]
    exact ⟨hi, hroot⟩

theorem Table.delete (h : Table s) (hactive : (s.users slot).active = true)
    (huid : (s.users slot).uid ≠ 0) : Table (s.without slot) := by
  have hclear := activeCount_clear (u := .zero) hactive rfl
  have hno : ¬ Account.zero.active = true := Bool.false_ne_true
  refine ⟨distinct_setUser h.uids fun hu => absurd hu hno,
    distinct_setUser (k := fun u => u.username.string) h.names fun hu => absurd hu hno,
    forall_setUser (P := fun u => u.username.string ≠ []) h.nonempty fun hu => absurd hu hno,
    forall_setUser (P := fun u => u.username.string.length ≤ 23 ∧
      u.username.byte u.username.string.length = 0) h.terminated fun hu => absurd hu hno, ?_, ?_⟩
  · have hcount := h.count
    change (if s.userCount > 0 then s.userCount - 1 else s.userCount) =
      (activeCount (s.setUser slot .zero) : Int)
    omega
  · obtain ⟨i, hi, hzero, hname⟩ := h.root
    have his : i ≠ slot := by
      rintro rfl
      exact huid hzero
    refine ⟨i, ?_⟩
    rw [State.without, setUser_other _ his]
    exact ⟨hi, hzero, hname⟩

theorem Table.change (h : Table s) (hactive : (s.users slot).active = true) (password : CString) :
    Table (s.rehashed slot password) := by
  refine ⟨distinct_setUser h.uids fun _ j hj ha heq => ?_,
    distinct_setUser (k := fun u => u.username.string) h.names fun _ j hj ha heq => ?_,
    forall_setUser (P := fun u => u.username.string ≠ []) h.nonempty
      fun _ => h.nonempty slot hactive,
    forall_setUser (P := fun u => u.username.string.length ≤ 23 ∧
      u.username.byte u.username.string.length = 0) h.terminated
      fun _ => h.terminated slot hactive, ?_, ?_⟩
  · exact hj (h.uids j slot ha hactive heq)
  · exact hj (h.names j slot ha hactive heq)
  · have hsame : activeCount (s.rehashed slot password) = activeCount s := by
      exact activeCount_same rfl
    rw [hsame]
    exact h.count
  · obtain ⟨i, hi, hroot⟩ := h.root
    refine ⟨i, ?_⟩
    rw [State.rehashed]
    by_cases his : i = slot
    · subst his
      rw [setUser_same]
      exact ⟨hi, hroot⟩
    · rw [setUser_other _ his]
      exact ⟨hi, hroot⟩

end

/-! ### Runs keep the invariant -/

section

variable {s : State} {n : Nat}

theorem Below.ne_last (h : Below s n) (hn : n < 2 ^ 32) {i : Fin maxUsers}
    (ha : (s.users i).active = true) : (s.users i).uid ≠ lastUid := by
  intro hlast
  have hlt := h i ha
  rw [hlast] at hlt
  change 0xFFFFFFFF < n at hlt
  omega

theorem Below.nextUid (h : Below s n) (hn : n < 2 ^ 32) : (nextUid s).toNat < n + 1 := by
  rcases (nextUid_spec fun i => h.ne_last hn).2 with hzero | ⟨i, hi, heq⟩
  · rw [hzero]
    exact Nat.succ_pos n
  have hlt := h i hi
  rw [heq, BitVec.toNat_add]
  exact lt_of_le_of_lt (Nat.mod_le _ _) (Nat.succ_lt_succ hlt)

theorem Table.call (h : Table s) (hb : Below s n) (hn : n < 2 ^ 32) (c : Call) :
    Table (c.run s).2 ∧ Below (c.run s).2 (n + (c.given s).toList.length) := by
  have hout := c.outcome s
  generalize c.run s = r at hout ⊢
  generalize c.given s = g at hout ⊢
  cases hout with
  | refused => exact ⟨h, hb⟩
  | created hne hlen hnew hfree =>
    refine ⟨h.create _ (fun i => hb.ne_last hn) hne hlen hnew hfree, ?_⟩
    refine forall_setUser (P := fun u => u.uid.toNat < n + 1)
      (fun i hi => Nat.lt_succ_of_lt (hb i hi)) fun _ => ?_
    exact hb.nextUid hn
  | deleted hroot hactive huid =>
    subst huid
    refine ⟨h.delete hactive hroot, ?_⟩
    exact forall_setUser (P := fun u => u.uid.toNat < n) hb fun hu => by cases hu
  | changed hactive huid =>
    refine ⟨h.change hactive _, ?_⟩
    exact forall_setUser (P := fun u => u.uid.toNat < n) hb fun _ => hb _ hactive

theorem Table.calls (calls : List Call) :
    ∀ {s : State} {n : Nat}, Table s → Below s n →
      n + (givenUids s calls).length < 2 ^ 32 → Table (afterCalls s calls) ∧
        Below (afterCalls s calls) (n + (givenUids s calls).length) := by
  induction calls with
  | nil => exact fun h hb _ => ⟨h, hb⟩
  | cons c calls ih =>
    intro s n h hb hn
    rw [givenUids, List.length_append] at hn ⊢
    obtain ⟨h', hb'⟩ := h.call hb (by omega) c
    rw [← Nat.add_assoc]
    exact ih h' hb' (by omega)

end

theorem authInit_table : Table authInit where
  uids := by decide +kernel
  names := by decide +kernel
  nonempty := by decide +kernel
  terminated := by decide +kernel
  count := by decide +kernel
  root := by decide +kernel

theorem authInit_below : Below authInit 3 := by
  unfold Below
  decide +kernel

/-- In every run with fewer than `2 ^ 31 - 3` creations the table is in order,
and a call that returns -1 changes nothing. -/
theorem account_table_invariant (calls : List Call)
    (hcreated : (givenUids authInit calls).length < 2 ^ 31 - 3) :
    Table (afterCalls authInit calls) ∧ ∀ c : Call, (c.run (afterCalls authInit calls)).1 = -1 →
        (c.run (afterCalls authInit calls)).2 = afterCalls authInit calls := by
  obtain ⟨htable, hbelow⟩ := Table.calls calls authInit_table authInit_below (by omega)
  refine ⟨htable, fun c hc => ?_⟩
  have hout := c.outcome (afterCalls authInit calls)
  generalize c.run (afterCalls authInit calls) = r at hout hc ⊢
  generalize c.given (afterCalls authInit calls) = g at hout
  cases hout with
  | refused => rfl
  | created _ _ _ _ =>
    -- The new uid is below `2 ^ 31`, so it is not returned as -1.
    have hlt := hbelow.nextUid (by omega)
    rw [BitVec.toInt_eq_toNat_of_lt (by omega)] at hc
    omega
  | deleted _ _ _ => cases hc
  | changed _ _ => cases hc

def bobName : CString := ⟨ascii ['b', 'o', 'b'], by decide⟩

def evePassword : CString := ⟨ascii ['e', 'v', 'e'], by decide⟩

/-- A run with one creation and one refused deletion. -/
theorem account_table_invariant_bob :
    Table (afterCalls authInit [.create (some bobName) (some evePassword) false, .delete 0]) :=
  (account_table_invariant [.create (some bobName) (some evePassword) false, .delete 0]
    (by decide +kernel)).1

/-! ### Reused uids -/

/-- At every creation the account with the largest uid ever given is active,
and there is a larger uid.  `m` is the largest uid given before the calls. -/
def KeepsLargest (s : State) (m : BitVec 32) : List Call → Prop
  | [] => True
  | c :: calls =>
    match c.given s with
    | none => KeepsLargest (c.run s).2 m calls
    | some uid =>
      (m ≠ lastUid ∧ ∃ i, (s.users i).active = true ∧ (s.users i).uid = m) ∧
      KeepsLargest (c.run s).2 (if uid < m then m else uid) calls

section

variable {s : State} {m : BitVec 32}

theorem nextUid_fresh_iff (h : ∀ i, (s.users i).active = true → (s.users i).uid ≤ m) :
    m < nextUid s ↔ m ≠ lastUid ∧ ∃ i, (s.users i).active = true ∧ (s.users i).uid = m := by
  constructor
  · intro hlt
    have hm : m ≠ lastUid := by
      unfold lastUid
      bv_omega
    have hlast : ∀ i, (s.users i).active = true → (s.users i).uid ≠ lastUid := by
      intro i hi heq
      have hle := h i hi
      unfold lastUid at hm heq
      bv_omega
    refine ⟨hm, ?_⟩
    rcases (nextUid_spec hlast).2 with hzero | ⟨i, hi, heq⟩
    · bv_omega
    refine ⟨i, hi, ?_⟩
    have hle := h i hi
    bv_omega
  · rintro ⟨hm, i, hi, rfl⟩
    refine (nextUid_spec fun j hj heq => ?_).1 i hi
    have hle := h j hj
    unfold lastUid at hm heq
    bv_omega

theorem nextUid_fresh_eq (h : ∀ i, (s.users i).active = true → (s.users i).uid ≤ m)
    (hlt : m < nextUid s) : nextUid s = m + 1 := by
  obtain ⟨hm, i, hi, huid⟩ := (nextUid_fresh_iff h).mp hlt
  have hlast : ∀ i, (s.users i).active = true → (s.users i).uid ≠ lastUid := by
    intro j hj heq
    have hle := h j hj
    unfold lastUid at hm heq
    bv_omega
  rcases (nextUid_spec hlast).2 with hzero | ⟨j, hj, heq⟩
  · bv_omega
  · have hle := h j hj
    bv_omega

theorem active_le_call (h : ∀ i, (s.users i).active = true → (s.users i).uid ≤ m) (c : Call) :
    match c.given s with
    | none => ∀ i, ((c.run s).2.users i).active = true → ((c.run s).2.users i).uid ≤ m
    | some uid => uid = nextUid s ∧ ∀ i, ((c.run s).2.users i).active = true →
          ((c.run s).2.users i).uid ≤ if uid < m then m else uid := by
  have hout := c.outcome s
  generalize c.run s = r at hout ⊢
  generalize c.given s = g at hout ⊢
  cases hout with
  | refused => exact h
  | created _ _ _ _ =>
    refine ⟨rfl, forall_setUser (P := fun u => u.uid ≤
      if nextUid s < m then m else nextUid s) (fun i hi => ?_) fun _ => ?_⟩
    · have hle := h i hi
      split <;> bv_omega
    · change nextUid s ≤ if nextUid s < m then m else nextUid s
      split <;> bv_omega
  | deleted _ _ _ => exact forall_setUser (P := fun u => u.uid ≤ m) h fun hu => by cases hu
  | changed hactive _ => exact forall_setUser (P := fun u => u.uid ≤ m) h fun _ => h _ hactive

theorem givenUids_fresh_iff (calls : List Call) :
    ∀ {s : State} {m : BitVec 32},
      (∀ i, (s.users i).active = true → (s.users i).uid ≤ m) →
      ((givenUids s calls).Nodup ∧ (∀ u ∈ givenUids s calls, m < u) ↔ KeepsLargest s m calls) := by
  induction calls with
  | nil =>
    intro s m _
    exact ⟨fun _ => trivial, fun _ => ⟨List.nodup_nil, by simp [givenUids]⟩⟩
  | cons c calls ih =>
    intro s m h
    have hcall := active_le_call h c
    rw [givenUids, KeepsLargest]
    cases hg : c.given s with
    | none =>
      rw [hg] at hcall
      exact ih hcall
    | some uid =>
      rw [hg] at hcall
      obtain ⟨huid, hbound⟩ := hcall
      simp only
      rw [← nextUid_fresh_iff h, ← huid]
      have hrest := ih hbound
      by_cases hfresh : m < uid
      · -- The uid is one past `m`, so a later uid is new if it is larger.
        have heq : uid = m + 1 := by
          rw [huid] at hfresh ⊢
          exact nextUid_fresh_eq h hfresh
        have hnot : ¬ uid < m := by bv_omega
        rw [if_neg hnot] at hrest ⊢
        rw [← hrest]
        simp only [Option.toList_some, List.singleton_append,
          List.nodup_cons, List.mem_cons, forall_eq_or_imp]
        constructor
        · rintro ⟨⟨hmem, hnd⟩, _, hall⟩
          refine ⟨hfresh, hnd, fun u hu => ?_⟩
          have hlt := hall u hu
          have hne : u ≠ uid := fun h => hmem (h ▸ hu)
          bv_omega
        · rintro ⟨_, hnd, hall⟩
          refine ⟨⟨fun hmem => ?_, hnd⟩, hfresh, fun u hu => ?_⟩
          · exact absurd (hall uid hmem) (BitVec.lt_irrefl _)
          · have hlt := hall u hu
            bv_omega
      · refine iff_of_false (fun hall => hfresh ?_) fun hc => hfresh hc.1
        exact hall.2 uid (by simp)

end

/-- The uids given in a run are distinct and new exactly when at every creation
the account with the largest uid ever given is still active. -/
theorem uids_not_reused_iff (calls : List Call) :
    ((givenUids authInit calls).Nodup ∧
      ∀ u, u ∈ givenUids authInit calls → u ≠ 0 ∧ u ≠ 1 ∧ u ≠ 2) ↔
        KeepsLargest authInit 2 calls := by
  have hinit : ∀ i, (authInit.users i).active = true → (authInit.users i).uid ≤ 2 := by
    intro i hi
    have hlt := authInit_below i hi
    bv_omega
  rw [← givenUids_fresh_iff calls hinit]
  refine and_congr_right fun _ => forall₂_congr fun u _ => ?_
  bv_omega

def aliceName : CString := ⟨ascii ['a', 'l', 'i', 'c', 'e'], by decide⟩

/-- A deleted account's uid goes to the next account. -/
theorem uid_reused_after_delete :
    givenUids authInit
      [.create (some aliceName) (some evePassword) false, .delete 3,
        .create (some bobName) (some evePassword) false] = [3, 3] := by
  decide +kernel

end AresOS.Auth
