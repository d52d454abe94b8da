import AresOS.Security.Accounts

/-!
# Logging in

What `auth_login` accepts after a run of account calls.

* `Credentials` is the purpose of the account table: the name and the password
  of every account, as the successful calls of the run have set them.
* On printable passwords of at most 32 characters the hash is injective: an
  unused position is 0 and a used one is not.
* The table represents the credentials in every run, so a login succeeds
  exactly with a name and its current password.
-/

namespace AresOS.Auth

open ByteBlock Function
open Aresfs (CString)

/-! ### The hash -/

/-- Printable ASCII of at most 32 characters. -/
def Printable (p : CString) : Prop := p.bytes.length ≤ 32 ∧ ∀ b, b ∈ p.bytes → 0x20 ≤ b ∧ b ≤ 0x7E

instance (p : CString) : Decidable (Printable p) := inferInstanceAs (Decidable (_ ∧ _))

section

variable {p : CString} {k : Nat}

theorem byte_hashLoop (ps : List UInt8) :
    ∀ (hash : Bytes passHashLen) {i : Nat}, i + ps.length ≤ passHashLen →
      ∀ {k : Nat}, k < passHashLen → (hashLoop hash i ps).byte k =
        if i ≤ k ∧ k < i + ps.length then
          hash.byte k ^^^ (ps.getD (k - i) 0 + UInt8.ofNat k)
        else hash.byte k := by
  induction ps with
  | nil =>
    intro hash i _ k _
    rw [hashLoop, if_neg]
    simp only [List.length_nil]
    omega
  | cons c ps ih =>
    intro hash i hi k hk
    rw [List.length_cons] at hi
    have hmod : i % passHashLen = i := Nat.mod_eq_of_lt (by omega)
    rw [hashLoop]
    simp only [hmod]
    rw [ih _ (by omega) hk, byte_put _ _ _ hk, List.length_cons]
    by_cases hki : k = i
    · grind
    rw [if_neg hki]
    by_cases hin : i + 1 ≤ k ∧ k < i + 1 + ps.length
    · grind
    · have hout : ¬ (i ≤ k ∧ k < i + (ps.length + 1)) := by omega
      rw [if_neg hin, if_neg hout]

theorem byte_hash (hp : Printable p) (out : Bytes passHashLen) (hk : k < passHashLen) :
    (authHashPassword (some p) out).byte k =
      if k < p.bytes.length then p.bytes.getD k 0 + UInt8.ofNat k else 0 := by
  rw [authHashPassword, byte_hashLoop p.bytes .zeros (by
    rw [Nat.zero_add]
    exact hp.1) hk]
  simp

theorem mix_ne_zero {b : UInt8} (hlo : 0x20 ≤ b) (hhi : b ≤ 0x7E) (hk : k < passHashLen) :
    b + UInt8.ofNat k ≠ 0 := by
  intro h
  have hnat := congrArg UInt8.toNat h
  have hlo' : 0x20 ≤ b.toNat := hlo
  have hhi' : b.toNat ≤ 0x7E := hhi
  unfold passHashLen at hk
  change (b.toNat + k % 2 ^ 8) % 2 ^ 8 = 0 at hnat
  omega

theorem byte_hash_eq_zero (hp : Printable p) (out : Bytes passHashLen) (hk : k < passHashLen) :
    (authHashPassword (some p) out).byte k = 0 ↔ p.bytes.length ≤ k := by
  rw [byte_hash hp out hk]
  split
  · rename_i hlt
    have hmem : p.bytes.getD k 0 ∈ p.bytes := by grind
    have hb := hp.2 _ hmem
    simp only [mix_ne_zero hb.1 hb.2 hk, false_iff]
    omega
  · simp only [true_iff]
    omega

theorem hash_injective {q : CString} (hp : Printable p) (hq : Printable q)
    {out out' : Bytes passHashLen}
    (h : authHashPassword (some p) out = authHashPassword (some q) out') : p.bytes = q.bytes := by
  have hle : ∀ {p q : CString} {out out' : Bytes passHashLen}, Printable p → Printable q →
      authHashPassword (some p) out = authHashPassword (some q) out' →
        q.bytes.length ≤ p.bytes.length := by
    intro p q out out' hp hq h
    by_cases hlen : p.bytes.length < passHashLen
    · rw [← byte_hash_eq_zero hq out' hlen, ← h, byte_hash_eq_zero hp out hlen]
    have := hq.1
    unfold passHashLen at hlen
    omega
  have hlen := Nat.le_antisymm (hle hq hp h.symm) (hle hp hq h)
  apply List.ext_getElem hlen
  intro k hkp hkq
  have hk : k < passHashLen := lt_of_lt_of_le hkp hp.1
  have hbyte := byte_hash hp out hk
  rw [h, byte_hash hq out' hk, if_pos hkq, if_pos hkp,
    List.getD_eq_getElem _ _ hkq, List.getD_eq_getElem _ _ hkp] at hbyte
  exact (UInt8.add_left_inj _).mp hbyte.symm

theorem hashMatch_iff (a b : Bytes passHashLen) : hashMatch a b = true ↔ a = b := by
  rw [hashMatch, List.all_eq_true]
  constructor
  · grind
  · rintro rfl j _
    exact beq_self_eq_true _

end

/-! ### The credentials that a run has set -/

/-- The name and the current password of every account. -/
abbrev Credentials := BitVec 32 → Option (List UInt8 × List UInt8)

/-- The accounts of `auth_init`. -/
def Credentials.initial : Credentials := fun uid =>
  if uid = 0 then some (rootName.bytes, rootPassword.bytes)
  else if uid = 1 then some (adminName.bytes, adminPassword.bytes)
  else if uid = 2 then some (userName.bytes, userPassword.bytes)
  else none

/-- The credentials after a call that has returned `r`. -/
def Credentials.record (d : Credentials) (r : Int) : Call → Credentials
  | .create (some username) (some password) _ =>
    if r = -1 then d
    else update d (BitVec.ofInt 32 r) (some (username.bytes, password.bytes))
  | .delete uid => if r = 0 then update d uid none else d
  | .change uid (some password) =>
    if r = 0 then
      update d uid ((d uid).map fun e => (e.1, password.bytes))
    else d
  | _ => d

def Credentials.after (d : Credentials) (s : State) : List Call → Credentials
  | [] => d
  | c :: calls => (d.record (c.run s).1 c).after (c.run s).2 calls

def Call.Printable : Call → Prop
  | .create _ (some password) _ => Auth.Printable password
  | .change _ (some password) => Auth.Printable password
  | _ => True

def Account.Has (u : Account) (e : List UInt8 × List UInt8) : Prop :=
  u.username.string = e.1 ∧ ∃ p, Printable p ∧ p.bytes = e.2 ∧
    u.passwordHash = authHashPassword (some p) .zeros

structure Represents (s : State) (d : Credentials) : Prop where
  active : ∀ i, (s.users i).active = true → ∃ e, d (s.users i).uid = some e ∧ (s.users i).Has e
  known : ∀ uid e, d uid = some e → ∃ i, (s.users i).active = true ∧ (s.users i).uid = uid

section

variable {s : State} {d : Credentials}

variable {slot : Fin maxUsers}

theorem Represents.setUser (h : Represents s d) {u : Account} {uid : BitVec 32}
    {v : Option (List UInt8 × List UInt8)}
    (hslot : (s.users slot).active = true → (s.users slot).uid = uid)
    (hother : ∀ j, j ≠ slot → (s.users j).active = true → (s.users j).uid ≠ uid)
    (hu : u.active = true → u.uid = uid ∧ ∃ e, v = some e ∧ u.Has e)
    (hv : u.active = false → v = none) : Represents (s.setUser slot u) (update d uid v) := by
  constructor
  · intro i hi
    by_cases his : i = slot
    · subst his
      rw [setUser_same] at hi ⊢
      obtain ⟨huid, e, he, hhas⟩ := hu hi
      exact ⟨e, by rw [huid, update_self, he], hhas⟩
    · rw [setUser_other u his] at hi ⊢
      rw [update_of_ne (hother i his hi)]
      exact h.active i hi
  · intro uid' e he
    by_cases heq : uid' = uid
    · subst heq
      rw [update_self] at he
      refine ⟨slot, ?_⟩
      rw [setUser_same]
      cases ha : u.active with
      | false =>
        rw [hv ha] at he
        cases he
      | true => exact ⟨rfl, (hu ha).1⟩
    · rw [update_of_ne heq] at he
      obtain ⟨i, hi, huid⟩ := h.known uid' e he
      have his : i ≠ slot := by
        rintro rfl
        exact heq (huid.symm.trans (hslot hi))
      exact ⟨i, by rw [setUser_other u his]; exact ⟨hi, huid⟩⟩

theorem Represents.create (h : Represents s d) {username password : CString} (isRoot : Bool)
    (hlast : ∀ i, (s.users i).active = true → (s.users i).uid ≠ lastUid)
    (hlen : username.bytes.length < usernameMax)
    (hfree : (s.users slot).active = false) (hp : Printable password) :
    Represents (s.withNew slot username password isRoot) (update d (nextUid s)
        (some (username.bytes, password.bytes))) := by
  have hset : Represents (s.setUser slot ((s.users slot).fill username password (nextUid s)
        (if isRoot then nextUid s else 100) isRoot))
      (update d (nextUid s) (some (username.bytes, password.bytes))) := by
    refine h.setUser (fun ha => ?_) (fun j _ hj heq => ?_) (fun _ => ?_) fun ha => by cases ha
    · rw [hfree] at ha
      cases ha
    · have hlt := (nextUid_spec hlast).1 j hj
      rw [heq] at hlt
      exact absurd hlt (BitVec.lt_irrefl _)
    · exact ⟨rfl, _, rfl, (fill_name _ _ _ _ _ hlen).1, password, hp, rfl, rfl⟩
  exact ⟨hset.active, hset.known⟩

theorem Table.other_uid (ht : Table s) (hactive : (s.users slot).active = true)
    (j : Fin maxUsers) (hj : j ≠ slot) (ha : (s.users j).active = true) :
    (s.users j).uid ≠ (s.users slot).uid := fun heq => hj (ht.uids j slot ha hactive heq)

theorem Represents.delete (h : Represents s d) (ht : Table s)
    (hactive : (s.users slot).active = true) :
    Represents (s.without slot) (update d (s.users slot).uid none) := by
  have hset := h.setUser (u := .zero) (v := none) (fun _ => rfl)
    (ht.other_uid hactive) (fun ha => by cases ha) (fun _ => rfl)
  exact ⟨hset.active, hset.known⟩

theorem Represents.change (h : Represents s d) (ht : Table s)
    (hactive : (s.users slot).active = true) {password : CString} (hp : Printable password) :
    Represents (s.rehashed slot password) (update d (s.users slot).uid
        ((d (s.users slot).uid).map fun e => (e.1, password.bytes))) := by
  obtain ⟨e, he, hname, _⟩ := h.active slot hactive
  refine h.setUser (fun _ => rfl) (ht.other_uid hactive) (fun _ => ?_) fun ha => ?_
  · exact ⟨rfl, (e.1, password.bytes), by rw [he]; rfl, hname, password, hp, rfl, rfl⟩
  · rw [hactive] at ha
    cases ha

theorem Represents.call (h : Represents s d) (ht : Table s) {n : Nat}
    (hb : Below s n) (hn : n < 2 ^ 31) {c : Call} (hc : c.Printable) :
    Represents (c.run s).2 (d.record (c.run s).1 c) := by
  have hout := c.outcome s
  generalize c.run s = r at hout ⊢
  generalize c.given s = g at hout
  cases hout with
  | refused =>
    have hsame : d.record (-1) c = d := by
      unfold Credentials.record
      split <;> simp
    rwa [hsame]
  | created hne hlen hnew hfree =>
    have hlt := hb.nextUid (by omega)
    have hnot : (nextUid s).toInt ≠ -1 := by grind
    simp only [Credentials.record, hnot, if_false, BitVec.ofInt_toInt]
    exact h.create _ (fun i => hb.ne_last (by omega)) hlen hfree hc
  | deleted _ hactive huid =>
    subst huid
    exact h.delete ht hactive
  | changed hactive huid =>
    subst huid
    exact h.change ht hactive hc

theorem Represents.calls (calls : List Call) :
    ∀ {s : State} {d : Credentials} {n : Nat}, Represents s d → Table s →
      Below s n → n + (givenUids s calls).length < 2 ^ 31 → (∀ c ∈ calls, c.Printable) →
      Represents (afterCalls s calls) (d.after s calls) := by
  induction calls with
  | nil => exact fun h _ _ _ _ => h
  | cons c calls ih =>
    intro s d n h ht hb hn hprintable
    rw [givenUids, List.length_append] at hn
    obtain ⟨ht', hb'⟩ := ht.call hb (by omega) c
    exact ih (h.call ht hb (by omega) (hprintable c (by simp))) ht' hb'
      (by omega) fun c' hc' => hprintable c' (by simp [hc'])

end

/-! ### Logging in -/

section

variable {s : State} {u p : CString}

theorem authLogin_found (ht : Table s) {i : Fin maxUsers} (hi : (s.users i).active = true)
    (hname : (s.users i).username.string = u.bytes)
    (hhash : (s.users i).passwordHash = authHashPassword (some p) .zeros) :
    authLogin s (some u) (some p) = (s.users i).uid.toInt := by
  have hmatch := (hashMatch_iff _ _).mpr hhash
  have hcmp := (authStrcmp_eq_zero _ _).mpr hname
  unfold authLogin
  simp only
  cases hfind : slots.find? fun i =>
      (s.users i).active && authStrcmp (s.users i).username u == 0 &&
        hashMatch (s.users i).passwordHash (authHashPassword (some p) .zeros) with
  | none =>
    have hnot := List.find?_eq_none.mp hfind i (mem_slots i)
    rw [hi, hcmp, hmatch] at hnot
    exact absurd rfl hnot
  | some j =>
    have hj := List.find?_some hfind
    simp only [Bool.and_eq_true, beq_iff_eq] at hj
    obtain ⟨⟨hactive, hcmp'⟩, _⟩ := hj
    have hname' := (authStrcmp_eq_zero _ _).mp hcmp'
    rw [ht.names j i hactive hi (hname'.trans hname.symm)]

theorem authLogin_some (h : authLogin s (some u) (some p) ≠ -1) :
    ∃ i, (s.users i).active = true ∧
      (s.users i).username.string = u.bytes ∧
      (s.users i).passwordHash = authHashPassword (some p) .zeros := by
  unfold authLogin at h
  simp only at h
  split at h
  · rename_i i hfind
    have hi := List.find?_some hfind
    simp only [Bool.and_eq_true, beq_iff_eq] at hi
    obtain ⟨⟨hactive, hcmp⟩, hmatch⟩ := hi
    exact ⟨i, hactive, (authStrcmp_eq_zero _ _).mp hcmp, (hashMatch_iff _ _).mp hmatch⟩
  · exact absurd rfl h

theorem Represents.login {d : Credentials} (h : Represents s d) (ht : Table s)
    (hb : Below s (2 ^ 31)) (hp : Printable p) :
    (0 ≤ authLogin s (some u) (some p) ↔
        ∃ uid, d uid = some (u.bytes, p.bytes)) ∧ ∀ uid, d uid = some (u.bytes, p.bytes) →
        authLogin s (some u) (some p) = uid.toNat := by
  have hvalue : ∀ uid, d uid = some (u.bytes, p.bytes) →
      authLogin s (some u) (some p) = uid.toNat := by
    intro uid huid
    obtain ⟨i, hi, rfl⟩ := h.known uid _ huid
    obtain ⟨e, he, hname, q, hq, hbytes, hhash⟩ := h.active i hi
    rw [huid] at he
    cases he
    have hpq : authHashPassword (some q) .zeros = authHashPassword (some p) .zeros := by
      rw [authHashPassword, authHashPassword, hbytes]
    have hlt := hb i hi
    rw [authLogin_found ht hi hname (hhash.trans hpq), BitVec.toInt_eq_toNat_of_lt (by omega)]
  refine ⟨⟨fun hlogin => ?_, fun ⟨uid, huid⟩ => ?_⟩, hvalue⟩
  · obtain ⟨i, hi, hname, hhash⟩ := authLogin_some (s := s) (u := u) (p := p) (by omega)
    obtain ⟨e, he, hname', q, hq, hbytes, hhash'⟩ := h.active i hi
    refine ⟨(s.users i).uid, ?_⟩
    rw [he, ← hname, hname', ← hash_injective hq hp (hhash'.symm.trans hhash), hbytes]
  · rw [hvalue uid huid]
    exact Int.natCast_nonneg _

end

theorem fill_has (u : Account) {username password : CString} (uid gid : BitVec 32) (isRoot : Bool)
    (hlen : username.bytes.length < usernameMax) (hp : Printable password) :
    (u.fill username password uid gid isRoot).Has (username.bytes, password.bytes) :=
  ⟨(fill_name u password uid gid isRoot hlen).1, password, hp, rfl, rfl⟩

theorem authInit_represents : Represents authInit .initial := by
  have hroot : authInit.users ⟨0, by decide⟩ =
      Account.zero.fill rootName rootPassword 0 0 true := rfl
  have hadmin : authInit.users ⟨1, by decide⟩ =
      Account.zero.fill adminName adminPassword 1 1 true := rfl
  have huser : authInit.users ⟨2, by decide⟩ =
      Account.zero.fill userName userPassword 2 100 false := rfl
  constructor
  · intro i hi
    have hcases : i = ⟨0, by decide⟩ ∨ i = ⟨1, by decide⟩ ∨ i = ⟨2, by decide⟩ := by
      revert i
      decide +kernel
    rcases hcases with rfl | rfl | rfl
    · exact ⟨_, rfl, fill_has _ _ _ _ (by decide) (by decide +kernel)⟩
    · exact ⟨_, rfl, fill_has _ _ _ _ (by decide) (by decide +kernel)⟩
    · exact ⟨_, rfl, fill_has _ _ _ _ (by decide) (by decide +kernel)⟩
  · intro uid e he
    unfold Credentials.initial at he
    split at he
    · rename_i h0
      exact ⟨⟨0, by decide⟩, rfl, h0.symm⟩
    split at he
    · rename_i h1
      exact ⟨⟨1, by decide⟩, rfl, h1.symm⟩
    split at he
    · rename_i h2
      exact ⟨⟨2, by decide⟩, rfl, h2.symm⟩
    · cases he

/-- The credentials after a run from `auth_init`. -/
def credentials (calls : List Call) : Credentials := Credentials.after .initial authInit calls

/-- In every run with printable passwords and fewer than `2 ^ 31 - 3`
creations, the credentials are those of the active accounts, a login succeeds
exactly with the name and the current password of one, and returns its uid; and
the hash tells printable passwords apart. -/
theorem login_accepts_current_password (calls : List Call)
    (hcreated : (givenUids authInit calls).length < 2 ^ 31 - 3)
    (hprintable : ∀ c, c ∈ calls → c.Printable) (u : CString) {p : CString} (hp : Printable p) :
    (∀ uid name, (∃ password, credentials calls uid = some (name, password)) ↔
      ∃ i, ((afterCalls authInit calls).users i).active = true ∧
        ((afterCalls authInit calls).users i).uid = uid ∧
        ((afterCalls authInit calls).users i).username.string = name) ∧
    (0 ≤ authLogin (afterCalls authInit calls) (some u) (some p) ↔
      ∃ uid, credentials calls uid = some (u.bytes, p.bytes)) ∧
    (∀ uid, credentials calls uid = some (u.bytes, p.bytes) →
      authLogin (afterCalls authInit calls) (some u) (some p) = uid.toNat) ∧
    (∀ q, Printable q → authHashPassword (some p) .zeros =
      authHashPassword (some q) .zeros → p.bytes = q.bytes) := by
  obtain ⟨htable, hbelow⟩ := Table.calls calls authInit_table authInit_below (by omega)
  have hrep := Represents.calls calls authInit_represents authInit_table
    authInit_below (by omega) hprintable
  obtain ⟨hlogin, hvalue⟩ := hrep.login (u := u) htable
    (fun i hi => lt_trans (hbelow i hi) (by omega)) hp
  refine ⟨fun uid name => ⟨?_, ?_⟩, hlogin, hvalue, fun q hq => hash_injective hp hq⟩
  · rintro ⟨password, hsome⟩
    obtain ⟨i, hi, rfl⟩ := hrep.known uid _ hsome
    obtain ⟨e, he, hname, _⟩ := hrep.active i hi
    refine ⟨i, hi, rfl, ?_⟩
    rw [credentials, he] at hsome
    cases hsome
    exact hname
  · rintro ⟨i, hi, rfl, rfl⟩
    obtain ⟨e, he, hname, _⟩ := hrep.active i hi
    exact ⟨e.2, by rw [credentials, he, hname]⟩

/-- Bob's password is changed to `admin123`. -/
theorem login_accepts_current_password_bob :
    authLogin (afterCalls authInit
        [.create (some bobName) (some evePassword) false, .change 3 (some adminPassword)])
      (some bobName) (some adminPassword) = (3 : BitVec 32).toNat := (login_accepts_current_password
    [.create (some bobName) (some evePassword) false,
      .change 3 (some adminPassword)] (by decide +kernel)
    (by
      intro c hc
      rcases List.mem_pair.mp hc with rfl | rfl
      · exact (by decide +kernel : Printable evePassword)
      · exact (by decide +kernel : Printable adminPassword))
    bobName (p := adminPassword) (by decide +kernel)).2.2.1 3 (by decide +kernel)

theorem authRunLogin_session {s s' : State}
    {lines : List (CString × CString)} (h : authRunLogin s lines = some s') :
    ∃ line, line ∈ lines.take 3 ∧ 0 ≤ s'.currentUid ∧
      s'.currentUid = authLogin s (some line.1) (some line.2) ∧
      s' = { s with currentUid := s'.currentUid } := by
  obtain ⟨line, hmem, hline⟩ := List.exists_of_findSome?_eq_some h
  refine ⟨line, hmem, ?_⟩
  unfold authAttempt at hline
  by_cases hge : authLogin s (some line.1) (some line.2) ≥ 0
  · grind
  · simp [hge] at hline

end AresOS.Auth
