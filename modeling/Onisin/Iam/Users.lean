import Mathlib.Data.List.Forall2
import Onisin.Iam.AuthCode

/-!
The users of the identity provider. The table holds a hash in the place of each password; beside
it stand the accounts it is about, with the passwords as they were set. The management commands
keep the two together, and a login goes through the table.
-/

set_option autoImplicit false

namespace Onisin.Iam
open Lib

/-! The table. -/

/-- Argon2 with its salted hashes as texts. -/
structure Hashing where
  hashPassword : (salt password : Text) → Text
  verifyPassword : (password phc : Text) → Bool

structure IamUser where
  id : Int
  email : Text
  username : Text
  groups : List Text
  deriving DecidableEq, Repr

structure UserRow where
  user : IamUser
  passwordHash : Text
  deriving DecidableEq, Repr

/-- The rows and the sequence of the ids. -/
structure UserTable where
  rows : List UserRow
  nextId : Int
  deriving DecidableEq, Repr

def UserTable.empty : UserTable := ⟨[], 1⟩

inductive Failure where
  | notStorable
  | tooLong
  | noMoreIds
  | duplicateEmail
  | noAnswer
  deriving DecidableEq, Repr

/-- The database has no texts with a NUL. -/
def storable (t : Text) : Bool := !t.contains '\u0000'

/-- What a column of limited length stores: spaces beyond its end are cut off, and nothing else. -/
def varchar (n : Nat) (t : Text) : Option Text :=
  if t.length ≤ n then some t
  else if (t.drop n).all (· == ' ') then some (t.take n)
  else none

/-- The user a creation stores under the next id. The columns are checked before an id is drawn. -/
def newUser (taken : List Text) (nextId : Int) (email username : Text) (groups : List Text) :
    Except Failure IamUser :=
  if !(storable email && storable username && groups.all storable) then .error .notStorable
  else
    match varchar 320 email, varchar 200 username with
    | some email, some username =>
      if nextId > 2147483647 then .error .noMoreIds
      else if taken.contains email then .error .duplicateEmail
      else .ok ⟨nextId, email, username, groups⟩
    | _, _ => .error .tooLong

/-- A refused row has used up its id when only its email was in the way. -/
def idAfter (nextId : Int) : Except Failure IamUser → Int
  | .ok _ => nextId + 1
  | .error .duplicateEmail => nextId + 1
  | .error _ => nextId

def UserTable.emails (t : UserTable) : List Text := t.rows.map fun r => r.user.email

def createUser (h : Hashing) (salt email username password : Text) (groups : List Text)
    (t : UserTable) : Except Failure IamUser × UserTable :=
  let stored := newUser t.emails t.nextId email username groups
  let rows :=
    match stored with
    | .ok user => t.rows ++ [⟨user, h.hashPassword salt password⟩]
    | .error _ => t.rows
  (stored, ⟨rows, idAfter t.nextId stored⟩)

def listUsers (t : UserTable) : List IamUser :=
  (t.rows.map UserRow.user).mergeSort fun u v => decide (u.id ≤ v.id)

def setGroups (id : Int) (groups : List Text) (t : UserTable) : UserTable :=
  { t with rows := t.rows.map fun r => if r.user.id = id then { r with user.groups := groups } else r }

def setPassword (h : Hashing) (salt : Text) (id : Int) (password : Text) (t : UserTable) : UserTable :=
  { t with
    rows := t.rows.map fun r =>
      if r.user.id = id then { r with passwordHash := h.hashPassword salt password } else r }

def deleteUser (id : Int) (t : UserTable) : UserTable :=
  { t with rows := t.rows.filter fun r => r.user.id ≠ id }

def verifyLogin (h : Hashing) (t : UserTable) (email password : Text) : Option IamUser :=
  match t.rows.find? fun r => r.user.email = email with
  | none => none
  | some r => if h.verifyPassword password r.passwordHash then some r.user else none

def adminEmail : Text := "admin@oos.local".toList

/-- 16 hex characters from 8 random bytes. -/
def randomPassword (bytes : Fin 8 → UInt8) : Text :=
  (List.ofFn bytes).flatMap (hexByte "0123456789abcdef".toList)

/-! The management commands. -/

inductive Command where
  | list
  | create (email username password : Text) (groups : List Text)
  | setGroups (id : Int) (groups : List Text)
  | setPassword (id : Int) (password : Text)
  | delete (id : Int)
  /-- At the start of the service. -/
  | seedAdminIfEmpty (bytes : Fin 8 → UInt8)

inductive Reply where
  | users (users : List IamUser)
  | created (user : IamUser)
  | ok
  | failed (f : Failure)
  /-- The credentials that are printed. -/
  | seeded (email password : Text)
  deriving DecidableEq, Repr

/-- How the database is met: it answers, its answer is lost, or it is not reached. -/
inductive Database where
  | answers
  | answerLost
  | unreachable
  deriving DecidableEq, Repr

def createdReply : Except Failure IamUser → Reply
  | .ok user => .created user
  | .error f => .failed f

def seededReply (password : Text) : Except Failure IamUser → Reply
  | .ok _ => .seeded adminEmail password
  | .error f => .failed f

def handle (h : Hashing) (salt : Text) (t : UserTable) : Command → Reply × UserTable
  | .list => (.users (listUsers t), t)
  | .create email username password groups =>
    let (stored, t) := createUser h salt email username password groups t
    (createdReply stored, t)
  | .setGroups id groups =>
    if groups.all storable then (.ok, setGroups id groups t) else (.failed .notStorable, t)
  | .setPassword id password => (.ok, setPassword h salt id password t)
  | .delete id => (.ok, deleteUser id t)
  | .seedAdminIfEmpty bytes =>
    if t.rows.length > 0 then (.ok, t)
    else
      let password := randomPassword bytes
      let (stored, t) := createUser h salt adminEmail "Admin".toList password ["oos-admin".toList] t
      (seededReply password stored, t)

/-- A command over a connection that may fail. -/
def viaDatabase {σ : Type} (db : Database) (s : σ) (done : Reply × σ) : Reply × σ :=
  match db with
  | .answers => done
  | .answerLost => (.failed .noAnswer, done.2)
  | .unreachable => (.failed .noAnswer, s)

/-! The accounts: what the table is about. -/

structure Account where
  user : IamUser
  password : Text
  deriving DecidableEq, Repr

structure Accounts where
  accounts : List Account
  nextId : Int
  deriving DecidableEq, Repr

def Accounts.empty : Accounts := ⟨[], 1⟩

def Accounts.emails (as : Accounts) : List Text := as.accounts.map fun a => a.user.email

def Accounts.create (as : Accounts) (email username password : Text) (groups : List Text) :
    Except Failure IamUser × Accounts :=
  let stored := newUser as.emails as.nextId email username groups
  let accounts :=
    match stored with
    | .ok user => as.accounts ++ [⟨user, password⟩]
    | .error _ => as.accounts
  (stored, ⟨accounts, idAfter as.nextId stored⟩)

/-- A change of the account with the id. -/
def Accounts.change (as : Accounts) (id : Int) (f : Account → Account) : Accounts :=
  { as with accounts := as.accounts.map fun a => if a.user.id = id then f a else a }

def Accounts.apply (as : Accounts) : Command → Reply × Accounts
  | .list => (.users (as.accounts.map Account.user), as)
  | .create email username password groups =>
    let (stored, as) := as.create email username password groups
    (createdReply stored, as)
  | .setGroups id groups =>
    if groups.all storable then (.ok, as.change id fun a => { a with user.groups := groups })
    else (.failed .notStorable, as)
  | .setPassword id password => (.ok, as.change id fun a => { a with password := password })
  | .delete id => (.ok, { as with accounts := as.accounts.filter fun a => a.user.id ≠ id })
  | .seedAdminIfEmpty bytes =>
    if as.accounts.length > 0 then (.ok, as)
    else
      let password := randomPassword bytes
      let (stored, as) := as.create adminEmail "Admin".toList password ["oos-admin".toList]
      (seededReply password stored, as)

/-- Each id is below the next one and each email is there once. -/
structure Accounts.Ok (as : Accounts) : Prop where
  ids : as.accounts.Pairwise fun a b => a.user.id < b.user.id
  below : ∀ a ∈ as.accounts, a.user.id < as.nextId
  emails : as.emails.Nodup

theorem accounts_empty_ok : Accounts.empty.Ok := by
  constructor <;> simp [Accounts.empty, Accounts.emails]

theorem newUser_ok {taken : List Text} {nextId : Int} {email username : Text} {groups : List Text}
    {user : IamUser} (h : newUser taken nextId email username groups = .ok user) :
    user.id = nextId ∧ user.email ∉ taken ∧ user.groups = groups := by
  unfold newUser at h
  split at h
  · cases h
  · split at h
    · split at h
      · cases h
      · split at h
        · cases h
        · rename_i htaken
          cases h
          exact ⟨rfl, by simpa using htaken, rfl⟩
    · cases h

theorem le_idAfter (nextId : Int) (stored : Except Failure IamUser) : nextId ≤ idAfter nextId stored := by
  unfold idAfter
  split <;> omega

theorem create_ok {as : Accounts} (h : as.Ok) (email username password : Text) (groups : List Text) :
    (as.create email username password groups).2.Ok := by
  unfold Accounts.create
  cases hstored : newUser as.emails as.nextId email username groups with
  | error f =>
    refine ⟨h.ids, fun a ha => ?_, h.emails⟩
    exact Int.lt_of_lt_of_le (h.below a ha) (le_idAfter _ _)
  | ok user =>
    obtain ⟨hid, hemail, -⟩ := newUser_ok hstored
    constructor
    case ids =>
      refine List.pairwise_append.mpr ⟨h.ids, List.pairwise_singleton _ _, fun a ha b hb => ?_⟩
      rw [List.mem_singleton.mp hb]
      exact hid ▸ h.below a ha
    case below =>
      intro a ha
      obtain ha | ha := List.mem_append.mp ha
      · have hlow := h.below a ha
        simp only [idAfter]
        omega
      · rw [List.mem_singleton.mp ha]
        simp only [idAfter]
        omega
    case emails =>
      simp only [Accounts.emails, List.map_append, List.map_cons, List.map_nil]
      refine List.nodup_append.mpr ⟨h.emails, by simp, fun e he e' he' heq => ?_⟩
      rw [List.mem_singleton] at he'
      exact hemail (he' ▸ heq ▸ he)

theorem change_ok {as : Accounts} (h : as.Ok) (id : Int) {f : Account → Account}
    (hf : ∀ a, (f a).user.id = a.user.id ∧ (f a).user.email = a.user.email) : (as.change id f).Ok := by
  have hkept (a : Account) : (if a.user.id = id then f a else a).user.id = a.user.id ∧
      (if a.user.id = id then f a else a).user.email = a.user.email := by
    split
    · exact hf a
    · exact ⟨rfl, rfl⟩
  constructor
  case ids =>
    simp only [Accounts.change, List.pairwise_map, (hkept _).1]
    exact h.ids
  case below =>
    intro a ha
    obtain ⟨b, hb, rfl⟩ := List.mem_map.mp ha
    rw [(hkept b).1]
    exact h.below b hb
  case emails =>
    simp only [Accounts.emails, Accounts.change, List.map_map, Function.comp_def, (hkept _).2]
    exact h.emails

theorem apply_ok {as : Accounts} (h : as.Ok) (c : Command) : (as.apply c).2.Ok := by
  cases c with
  | list => exact h
  | create email username password groups => exact create_ok h ..
  | setGroups id groups =>
    simp only [Accounts.apply]
    split
    · exact change_ok h id fun a => ⟨rfl, rfl⟩
    · exact h
  | setPassword id password => exact change_ok h id fun a => ⟨rfl, rfl⟩
  | delete id =>
    have hsub : (as.accounts.filter fun a => a.user.id ≠ id).Sublist as.accounts := List.filter_sublist
    exact ⟨h.ids.sublist hsub, fun a ha => h.below a (hsub.subset ha), h.emails.sublist (hsub.map _)⟩
  | seedAdminIfEmpty bytes =>
    simp only [Accounts.apply]
    split
    · exact h
    · exact create_ok h ..

/-! The table keeps the accounts. -/

/-- The row of an account has some hash of its password. -/
structure Stores (h : Hashing) (a : Account) (r : UserRow) : Prop where
  user : r.user = a.user
  hash : ∃ salt, r.passwordHash = h.hashPassword salt a.password

structure Holds (h : Hashing) (as : Accounts) (t : UserTable) : Prop where
  rows : List.Forall₂ (Stores h) as.accounts t.rows
  nextId : t.nextId = as.nextId

variable {h : Hashing} {as : Accounts} {t : UserTable}

theorem holds_empty (h : Hashing) : Holds h Accounts.empty UserTable.empty := ⟨.nil, rfl⟩

theorem stores_users {accounts : List Account} {rows : List UserRow}
    (hrows : List.Forall₂ (Stores h) accounts rows) :
    rows.map UserRow.user = accounts.map Account.user := by
  induction hrows with
  | nil => rfl
  | cons hstores _ ih => rw [List.map_cons, List.map_cons, ih, hstores.user]

theorem Holds.users (hold : Holds h as t) : t.rows.map UserRow.user = as.accounts.map Account.user :=
  stores_users hold.rows

theorem Holds.emails (hold : Holds h as t) : t.emails = as.emails := by
  have husers := congrArg (List.map IamUser.email) hold.users
  rwa [List.map_map, List.map_map] at husers

theorem Holds.length (hold : Holds h as t) : t.rows.length = as.accounts.length :=
  hold.rows.length_eq.symm

theorem listUsers_eq (hold : Holds h as t) (hok : as.Ok) :
    listUsers t = as.accounts.map Account.user := by
  rw [listUsers, hold.users]
  refine List.mergeSort_of_pairwise (List.pairwise_map.mpr (hok.ids.imp fun hlt => ?_))
  exact decide_eq_true (Int.le_of_lt hlt)

theorem createUser_holds (hold : Holds h as t) (salt email username password : Text)
    (groups : List Text) :
    (createUser h salt email username password groups t).1 = (as.create email username password groups).1 ∧
      Holds h (as.create email username password groups).2
        (createUser h salt email username password groups t).2 := by
  unfold createUser Accounts.create
  rw [hold.emails, hold.nextId]
  cases newUser as.emails as.nextId email username groups with
  | error f => exact ⟨rfl, hold.rows, rfl⟩
  | ok user => exact ⟨rfl, List.rel_append hold.rows (.cons ⟨rfl, salt, rfl⟩ .nil), rfl⟩

theorem change_holds (hold : Holds h as t) (id : Int) {f : Account → Account} {g : UserRow → UserRow}
    (hfg : ∀ a r, Stores h a r → Stores h (f a) (g r)) :
    Holds h (as.change id f) { t with rows := t.rows.map fun r => if r.user.id = id then g r else r } := by
  obtain ⟨hrows, hnext⟩ := hold
  refine ⟨List.rel_map (fun a r hstores => ?_) hrows, hnext⟩
  rw [hstores.user]
  split
  · exact hfg a r hstores
  · exact hstores

theorem stores_filter {accounts : List Account} {rows : List UserRow}
    (hrows : List.Forall₂ (Stores h) accounts rows) (id : Int) :
    List.Forall₂ (Stores h) (accounts.filter fun a => a.user.id ≠ id)
      (rows.filter fun r => r.user.id ≠ id) := by
  induction hrows with
  | nil => exact .nil
  | cons hstores _ ih =>
    rw [List.filter_cons, List.filter_cons, hstores.user]
    split
    · exact .cons hstores ih
    · exact ih

theorem deleteUser_holds (hold : Holds h as t) (id : Int) :
    Holds h { as with accounts := as.accounts.filter fun a => a.user.id ≠ id } (deleteUser id t) :=
  ⟨stores_filter hold.rows id, hold.nextId⟩

/-- A command on the table answers as on the accounts, whatever the hashes are. -/
theorem handle_holds (hold : Holds h as t) (hok : as.Ok) (salt : Text) (c : Command) :
    (handle h salt t c).1 = (as.apply c).1 ∧ Holds h (as.apply c).2 (handle h salt t c).2 := by
  cases c with
  | list => exact ⟨congrArg Reply.users (listUsers_eq hold hok), hold⟩
  | create email username password groups =>
    obtain ⟨hstored, hafter⟩ := createUser_holds hold salt email username password groups
    exact ⟨congrArg createdReply hstored, hafter⟩
  | setGroups id groups =>
    simp only [handle, Accounts.apply]
    split
    · refine ⟨rfl, change_holds hold id fun a r hstores => ⟨?_, hstores.hash⟩⟩
      simp only [hstores.user]
    · exact ⟨rfl, hold⟩
  | setPassword id password =>
    exact ⟨rfl, change_holds hold id fun a r hstores => ⟨hstores.user, salt, rfl⟩⟩
  | delete id => exact ⟨rfl, deleteUser_holds hold id⟩
  | seedAdminIfEmpty bytes =>
    simp only [handle, Accounts.apply, hold.length]
    split
    · exact ⟨rfl, hold⟩
    · obtain ⟨hstored, hafter⟩ := createUser_holds hold salt adminEmail "Admin".toList
        (randomPassword bytes) ["oos-admin".toList]
      exact ⟨congrArg (seededReply _) hstored, hafter⟩

/-! A login. -/

/-- Some hash of the password set lets the one given pass. -/
def Accepts (h : Hashing) (set given : Text) : Prop :=
  ∃ salt, h.verifyPassword given (h.hashPassword salt set) = true

theorem stores_row {accounts : List Account} {rows : List UserRow}
    (hrows : List.Forall₂ (Stores h) accounts rows) {r : UserRow} (hr : r ∈ rows) :
    ∃ a ∈ accounts, Stores h a r := by
  induction hrows with
  | nil => cases hr
  | @cons a r' _ _ hstores _ ih =>
    obtain rfl | hr := List.mem_cons.mp hr
    · exact ⟨a, List.mem_cons_self, hstores⟩
    · obtain ⟨b, hb, hstores⟩ := ih hr
      exact ⟨b, List.mem_cons_of_mem _ hb, hstores⟩

theorem stores_find {accounts : List Account} {rows : List UserRow}
    (hrows : List.Forall₂ (Stores h) accounts rows) (hemails : (accounts.map fun a => a.user.email).Nodup)
    {a : Account} (ha : a ∈ accounts) :
    ∃ r, rows.find? (fun r => r.user.email = a.user.email) = some r ∧ Stores h a r := by
  induction hrows with
  | nil => cases ha
  | @cons b r _ _ hstores _ ih =>
    obtain ⟨hnew, hemails⟩ := List.nodup_cons.mp hemails
    rw [List.find?_cons, hstores.user]
    obtain rfl | ha := List.mem_cons.mp ha
    · exact ⟨r, by simp, hstores⟩
    · have hne : b.user.email ≠ a.user.email := by
        intro heq
        exact hnew (List.mem_map.mpr ⟨a, ha, heq.symm⟩)
      obtain ⟨r', hfind, hstores'⟩ := ih hemails ha
      exact ⟨r', by simpa [hne] using hfind, hstores'⟩

/-- Whoever is let in has an account with the email, and gave a password that passes for the one
that was last set there. -/
theorem verifyLogin_sound (hold : Holds h as t) {email password : Text} {user : IamUser}
    (hlogin : verifyLogin h t email password = some user) :
    ∃ a ∈ as.accounts, a.user = user ∧ user.email = email ∧ Accepts h a.password password := by
  unfold verifyLogin at hlogin
  split at hlogin
  · cases hlogin
  · rename_i r hfind
    split at hlogin
    · rename_i hverify
      cases hlogin
      have hemail : r.user.email = email := by simpa using List.find?_some hfind
      obtain ⟨a, ha, hstores⟩ := stores_row hold.rows (List.mem_of_find?_eq_some hfind)
      obtain ⟨salt, hhash⟩ := hstores.hash
      exact ⟨a, ha, hstores.user.symm, hemail, salt, hhash ▸ hverify⟩
    · cases hlogin

/-- A hash lets its own password pass. -/
def Hashing.Verifies (h : Hashing) : Prop :=
  ∀ salt password, h.verifyPassword password (h.hashPassword salt password) = true

theorem verifyLogin_complete (hold : Holds h as t) (hok : as.Ok) (hverifies : h.Verifies) {a : Account}
    (ha : a ∈ as.accounts) : verifyLogin h t a.user.email a.password = some a.user := by
  obtain ⟨r, hfind, hstores⟩ := stores_find hold.rows hok.emails ha
  obtain ⟨salt, hhash⟩ := hstores.hash
  rw [verifyLogin, hfind]
  have hpass := hverifies salt a.password
  simp only [hhash, hpass, if_true, hstores.user]

end Onisin.Iam
