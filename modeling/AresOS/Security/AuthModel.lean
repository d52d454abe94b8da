import AresOS.Fs.AresfsModel
import AresOS.Lib.ByteString

/-!
# User accounts

Shallow embedding of `security/auth.c`.

* A `const char *` argument is a string or `NULL` (`none`).
* `uid` and `gid` are 32-bit words; a uid is returned as an `int`, so it is
  read as a signed number.
* The loops over the 16 slots are searches and folds over their indices in
  ascending order.
* `auth_run_login` gets the lines that `auth_read_line` returns; the console
  is not modelled.
-/

namespace AresOS.Auth

open ByteBlock
open Aresfs (CString)

def maxUsers : Nat := 16

def usernameMax : Nat := 24

def passHashLen : Nat := 32

/-- `user_account_t`. -/
structure Account where
  username : Bytes usernameMax
  passwordHash : Bytes passHashLen
  uid : BitVec 32
  gid : BitVec 32
  isRoot : Bool
  active : Bool

/-- An account after `auth_memset(.., 0, ..)`. -/
def Account.zero : Account := ⟨.zeros, .zeros, 0, 0, false, false⟩

structure State where
  users : Fin maxUsers → Account
  userCount : Int
  /-- The uid of the session; -1 without one. -/
  currentUid : Int

def slots : List (Fin maxUsers) := List.finRange maxUsers

def authStrcmp (a : Bytes usernameMax) (b : CString) : Int := a.strcmpAt 0 b.bytes

def authStrcpyN (dst : Bytes usernameMax) (src : CString) (cap : Nat) : Bytes usernameMax :=
  if cap = 0 then dst else dst.strcpyAt cap 0 src.bytes

/-- The loop of `auth_hash_password` over the password from index `i` on. -/
def hashLoop (hash : Bytes passHashLen) (i : Nat) : List UInt8 → Bytes passHashLen
  | [] => hash
  | c :: password =>
    let idx := i % passHashLen
    let mix := c + UInt8.ofNat i
    hashLoop (hash.put idx (hash.byte idx ^^^ mix)) (i + 1) password

def authHashPassword (password : Option CString) (hashOut : Bytes passHashLen) :
    Bytes passHashLen :=
  match password with
  | none => hashOut
  | some password => hashLoop .zeros 0 password.bytes

def rootName : CString := ⟨ascii ['r', 'o', 'o', 't'], by decide⟩

def rootPassword : CString := ⟨ascii ['r', 'o', 'o', 't', '1', '2', '3'], by decide⟩

def adminName : CString := ⟨ascii ['a', 'd', 'm', 'i', 'n'], by decide⟩

def adminPassword : CString := ⟨ascii ['a', 'd', 'm', 'i', 'n', '1', '2', '3'], by decide⟩

def userName : CString := ⟨ascii ['u', 's', 'e', 'r'], by decide⟩

def userPassword : CString := ⟨ascii ['u', 's', 'e', 'r', '1', '2', '3'], by decide⟩

/-- The assignments that fill an account in `auth_init` and
`auth_create_user`. -/
def Account.fill (u : Account) (username password : CString) (uid gid : BitVec 32) (isRoot : Bool) :
    Account where
  username := authStrcpyN u.username username usernameMax
  passwordHash := authHashPassword (some password) u.passwordHash
  uid := uid
  gid := gid
  isRoot := isRoot
  active := true

def authInit : State where
  users := fun i =>
    if i.val = 0 then Account.zero.fill rootName rootPassword 0 0 true
    else if i.val = 1 then Account.zero.fill adminName adminPassword 1 1 true
    else if i.val = 2 then Account.zero.fill userName userPassword 2 100 false
    else .zero
  userCount := 3
  currentUid := -1

/-- The comparison of two hashes in `auth_login`. -/
def hashMatch (a b : Bytes passHashLen) : Bool :=
  (List.finRange passHashLen).all fun j => a j == b j

def authLogin (s : State) (username password : Option CString) : Int :=
  match username, password with
  | some username, some password =>
    let hash := authHashPassword (some password) .zeros
    let found := slots.find? fun i =>
      (s.users i).active && authStrcmp (s.users i).username username == 0 &&
        hashMatch (s.users i).passwordHash hash
    match found with
    | some i => (s.users i).uid.toInt
    | none => -1
  | _, _ => -1

/-- The loop that rejects duplicate usernames. -/
def isDuplicate (s : State) (username : CString) : Bool :=
  slots.any fun i => (s.users i).active && authStrcmp (s.users i).username username == 0

def freeSlot (s : State) : Option (Fin maxUsers) := slots.find? fun i => !(s.users i).active

/-- One past the largest live uid; the sum wraps. -/
def nextUid (s : State) : BitVec 32 :=
  slots.foldl (fun next i =>
      if !(s.users i).active then next
      else if (s.users i).uid ≥ next then (s.users i).uid + 1
      else next)
    0

def State.setUser (s : State) (i : Fin maxUsers) (u : Account) : State :=
  { s with users := Function.update s.users i u }

def authCreateUser (s : State) (username password : Option CString) (isRoot : Bool) : Int × State :=
  match username, password with
  | some username, some password =>
    if username.bytes = [] then (-1, s)
    else if username.bytes.length ≥ usernameMax then (-1, s)
    else if isDuplicate s username then (-1, s)
    else
      match freeSlot s with
      | none => (-1, s)
      | some slot =>
        let uid := nextUid s
        let gid := if isRoot then uid else 100
        let u := (s.users slot).fill username password uid gid isRoot
        (uid.toInt, { s.setUser slot u with userCount := s.userCount + 1 })
  | _, _ => (-1, s)

/-- The first active account with a uid. -/
def slotOf (s : State) (uid : BitVec 32) : Option (Fin maxUsers) :=
  slots.find? fun i => (s.users i).active && (s.users i).uid == uid

def authDeleteUser (s : State) (uid : BitVec 32) : Int × State :=
  if uid = 0 then (-1, s)
  else
    match slotOf s uid with
    | none => (-1, s)
    | some i =>
      (0, { s.setUser i .zero with
        userCount := if s.userCount > 0 then s.userCount - 1
          else s.userCount })

def authChangePassword (s : State) (uid : BitVec 32) (newPassword : Option CString) : Int × State :=
  match newPassword with
  | none => (-1, s)
  | some newPassword =>
    match slotOf s uid with
    | none => (-1, s)
    | some i =>
      (0, s.setUser i { s.users i with
        passwordHash := authHashPassword (some newPassword) (s.users i).passwordHash })

def authCheckPermission (s : State) (fileUid fileGid : BitVec 32)
    (fileMode : BitVec 16) (isWrite : Bool) : Bool :=
  if s.currentUid < 0 then false
  else
    let curUid := BitVec.ofInt 32 s.currentUid
    if curUid = 0 then true
    else
      match slotOf s curUid with
      | none => false
      | some i =>
        let curGid := (s.users i).gid
        let mask : BitVec 16 :=
          if curUid = fileUid then (if isWrite then 0x0080 else 0x0100)
          else if curGid = fileGid then (if isWrite then 0x0010 else 0x0020)
          else if isWrite then 0x0002 else 0x0004
        fileMode &&& mask != 0

/-- The username buffer of an account, or `NULL`. -/
def authUsername (s : State) (uid : BitVec 32) : Option (Bytes usernameMax) :=
  (slotOf s uid).map fun i => (s.users i).username

/-- `auth_run_login` after the lines of one attempt have been read. -/
def authAttempt (s : State) (username password : CString) : Bool × State :=
  let uid := authLogin s (some username) (some password)
  if uid ≥ 0 then (true, { s with currentUid := uid }) else (false, s)

/-- `auth_run_login`: at most three attempts; `none` if the system is
locked. -/
def authRunLogin (s : State) (lines : List (CString × CString)) : Option State :=
  (lines.take 3).findSome? fun line =>
    match authAttempt s line.1 line.2 with
    | (true, s) => some s
    | (false, _) => none

end AresOS.Auth
