import Onisin.Iam.Users

/-!
The identity provider as a whole: logins and token requests run beside the management commands,
which create, change and delete the users in between.
-/

set_option autoImplicit false

namespace Onisin.Iam
open Lib

/-! The service. -/

structure Service where
  users : UserTable
  server : Server
  answers : List Reply

def Service.start : Service := ⟨UserTable.empty, Server.start, []⟩

def IamUser.subject (u : IamUser) : TokenSubject := ⟨u.email, u.username, u.groups⟩

/-- The credential check of a submitted form. -/
def checkLogin (h : Hashing) (t : UserTable) (f : AuthForm) (reached : Bool) : LoginResult :=
  if !reached || !storable f.email then .lookupFailed
  else
    match verifyLogin h t f.email f.password with
    | some user => .found user.subject
    | none => .rejected

/-- A sequence may skip ids, as it does when the database comes back after a crash. -/
inductive ServiceAct where
  | manage (c : Command) (salt : Text) (db : Database)
  | skipIds (count : Nat)
  | login (f : AuthForm) (reached : Bool)
  | insertCode (i : Nat) (bytes : Fin 16 → UInt8)
  | tokenRequest (f : TokenForm)
  | checkGrant (i : Nat)
  | issue (i : Nat) (signed : Bool)
  | tick (sec : Nat)

/-- What a step is for the endpoints. -/
def ServiceAct.act (h : Hashing) (t : UserTable) : ServiceAct → Option Act
  | .manage _ _ _ => none
  | .skipIds _ => none
  | .login f reached => some (.authSubmit f (checkLogin h t f reached))
  | .insertCode i bytes => some (.insertCode i bytes)
  | .tokenRequest f => some (.tokenRequest f)
  | .checkGrant i => some (.checkGrant i)
  | .issue i signed => some (.issue i signed)
  | .tick sec => some (.tick sec)

def Service.manage (h : Hashing) (s : Service) (c : Command) (salt : Text) (db : Database) : Service :=
  let (reply, users) := viaDatabase db s.users (handle h salt s.users c)
  { s with users, answers := s.answers ++ [reply] }

def Service.step (h : Hashing) (st : Settings) (s : Service) (a : ServiceAct) : Service :=
  match a with
  | .manage c salt db => s.manage h c salt db
  | .skipIds count => { s with users.nextId := s.users.nextId + count }
  | a =>
    match a.act h s.users with
    | some act => { s with server := Iam.step st s.server act }
    | none => s

/-! The accounts along a run. -/

structure Ledger where
  accounts : Accounts
  answers : List Reply

def Ledger.start : Ledger := ⟨Accounts.empty, []⟩

/-- What the managers see and what is kept for them; neither salts nor hashes come into it. -/
def Ledger.step (l : Ledger) : ServiceAct → Ledger
  | .manage c _ db =>
    let (reply, accounts) := viaDatabase db l.accounts (l.accounts.apply c)
    ⟨accounts, l.answers ++ [reply]⟩
  | .skipIds count => { l with accounts.nextId := l.accounts.nextId + count }
  | _ => l

def ledger (acts : List ServiceAct) : Ledger := run Ledger.step Ledger.start acts

structure Kept (h : Hashing) (l : Ledger) (s : Service) : Prop where
  table : Holds h l.accounts s.users
  ok : l.accounts.Ok
  answers : s.answers = l.answers

variable {h : Hashing} {st : Settings}

theorem kept_step {l : Ledger} {s : Service} (hkept : Kept h l s) (a : ServiceAct) :
    Kept h (l.step a) (s.step h st a) := by
  obtain ⟨htable, hok, hanswers⟩ := hkept
  cases a with
  | manage c salt db =>
    obtain ⟨hreply, hafter⟩ := handle_holds htable hok salt c
    cases db with
    | answers =>
      have hboth : s.answers ++ [(handle h salt s.users c).1] = l.answers ++ [(l.accounts.apply c).1] := by
        rw [hanswers, hreply]
      exact ⟨hafter, apply_ok hok c, hboth⟩
    | answerLost => exact ⟨hafter, apply_ok hok c, congrArg (· ++ [_]) hanswers⟩
    | unreachable => exact ⟨htable, hok, congrArg (· ++ [_]) hanswers⟩
  | skipIds count =>
    refine ⟨⟨htable.rows, congrArg (· + (count : Int)) htable.nextId⟩, ⟨hok.ids, fun a ha => ?_, hok.emails⟩,
      hanswers⟩
    have hlow := hok.below a ha
    simp only [Ledger.step]
    omega
  | login f reached => exact ⟨htable, hok, hanswers⟩
  | insertCode i bytes => exact ⟨htable, hok, hanswers⟩
  | tokenRequest f => exact ⟨htable, hok, hanswers⟩
  | checkGrant i => exact ⟨htable, hok, hanswers⟩
  | issue i signed => exact ⟨htable, hok, hanswers⟩
  | tick sec => exact ⟨htable, hok, hanswers⟩

theorem kept_run (h : Hashing) (st : Settings) (acts : List ServiceAct) :
    Kept h (ledger acts) (run (Service.step h st) Service.start acts) := by
  have hrun : ∀ (l : Ledger) (s : Service), Kept h l s →
      Kept h (run Ledger.step l acts) (run (Service.step h st) s acts) := by
    intro l s hkept
    induction acts generalizing l s with
    | nil => exact hkept
    | cons a acts ih => exact ih _ _ (kept_step hkept a)
  exact hrun _ _ ⟨holds_empty h, accounts_empty_ok, rfl⟩

/-! Ids. -/

def Reply.createdId : Reply → Option Int
  | .created user => some user.id
  | _ => none

/-- The ids given so far, in the order of the answers, are below the next one. -/
structure Ledger.Counts (l : Ledger) : Prop where
  increasing : (l.answers.filterMap Reply.createdId).Pairwise (· < ·)
  below : ∀ id ∈ l.answers.filterMap Reply.createdId, id < l.accounts.nextId

theorem create_nextId (as : Accounts) (email username password : Text) (groups : List Text) :
    as.nextId ≤ (as.create email username password groups).2.nextId := le_idAfter _ _

theorem apply_nextId (as : Accounts) (c : Command) : as.nextId ≤ (as.apply c).2.nextId := by
  cases c with
  | create email username password groups => exact create_nextId ..
  | setGroups id groups =>
    simp only [Accounts.apply]
    split <;> exact Int.le_refl _
  | seedAdminIfEmpty bytes =>
    simp only [Accounts.apply]
    split
    · exact Int.le_refl _
    · exact create_nextId ..
  | _ => exact Int.le_refl _

theorem apply_createdId {as : Accounts} {c : Command} {id : Int}
    (hid : (as.apply c).1.createdId = some id) :
    as.nextId = id ∧ id < (as.apply c).2.nextId := by
  cases c with
  | create email username password groups =>
    simp only [Accounts.apply, Accounts.create] at hid ⊢
    cases hstored : newUser as.emails as.nextId email username groups with
    | error f =>
      rw [hstored] at hid
      cases hid
    | ok user =>
      rw [hstored] at hid
      obtain ⟨hnext, -⟩ := newUser_ok hstored
      have huser : user.id = id := Option.some.inj hid
      simp only [idAfter]
      omega
  | setGroups id groups =>
    simp only [Accounts.apply] at hid
    split at hid <;> cases hid
  | seedAdminIfEmpty bytes =>
    simp only [Accounts.apply] at hid
    split at hid
    · cases hid
    · unfold seededReply at hid
      split at hid <;> cases hid
  | list => cases hid
  | setPassword id password => cases hid
  | delete id => cases hid

theorem counts_answer {l : Ledger} (hcounts : l.Counts) (reply : Reply) {accounts : Accounts}
    (hnext : l.accounts.nextId ≤ accounts.nextId)
    (hid : ∀ id, reply.createdId = some id → l.accounts.nextId = id ∧ id < accounts.nextId) :
    Ledger.Counts ⟨accounts, l.answers ++ [reply]⟩ := by
  obtain ⟨hincreasing, hbelow⟩ := hcounts
  cases hreply : reply.createdId with
  | none =>
    have hsame : (l.answers ++ [reply]).filterMap Reply.createdId = l.answers.filterMap Reply.createdId := by
      simp [hreply]
    refine ⟨hsame.symm ▸ hincreasing, fun id hmem => ?_⟩
    exact Int.lt_of_lt_of_le (hbelow id (hsame ▸ hmem)) hnext
  | some id =>
    obtain ⟨hold, hnew⟩ := hid id hreply
    have hmore : (l.answers ++ [reply]).filterMap Reply.createdId =
        l.answers.filterMap Reply.createdId ++ [id] := by
      simp [hreply]
    constructor
    · rw [hmore, List.pairwise_append]
      refine ⟨hincreasing, List.pairwise_singleton _ _, fun i hi j hj => ?_⟩
      rw [List.mem_singleton.mp hj, ← hold]
      exact hbelow i hi
    · intro i hi
      rw [hmore, List.mem_append, List.mem_singleton] at hi
      obtain hi | rfl := hi
      · exact Int.lt_of_lt_of_le (hbelow i hi) hnext
      · exact hnew

theorem counts_step (l : Ledger) (a : ServiceAct) (hcounts : l.Counts) : (l.step a).Counts := by
  cases a with
  | manage c salt db =>
    cases db with
    | answers =>
      exact counts_answer hcounts _ (apply_nextId _ c) fun id hid => apply_createdId hid
    | answerLost =>
      exact counts_answer hcounts _ (apply_nextId _ c) fun id hid => absurd hid (by simp [Reply.createdId])
    | unreachable =>
      exact counts_answer hcounts _ (Int.le_refl _) fun id hid => absurd hid (by simp [Reply.createdId])
  | skipIds count =>
    refine ⟨hcounts.increasing, fun id hid => ?_⟩
    have hlow := hcounts.below id hid
    simp only [Ledger.step]
    omega
  | _ => exact hcounts

theorem counts_start : Ledger.start.Counts := by
  constructor <;> simp [Ledger.start]

theorem counts_run (acts : List ServiceAct) : (ledger acts).Counts :=
  run_keeps counts_step counts_start acts

/-- In every run the managers get the answers that the accounts give, from which no salt and no
hash can be read; emails are unique and ids are never given twice; and exactly the accounts' own
credentials are let in, up to passwords that the hash lets pass for each other. -/
theorem service_keeps_accounts (h : Hashing) (st : Settings) (hverifies : h.Verifies)
    (acts : List ServiceAct) :
    let s := run (Service.step h st) Service.start acts
    let l := ledger acts
    s.answers = l.answers ∧ l.accounts.Ok ∧ (s.answers.filterMap Reply.createdId).Pairwise (· < ·) ∧
      (∀ a ∈ l.accounts.accounts, verifyLogin h s.users a.user.email a.password = some a.user) ∧
      ∀ email password user, verifyLogin h s.users email password = some user →
        ∃ a ∈ l.accounts.accounts, a.user = user ∧ user.email = email ∧ Accepts h a.password password := by
  have hkept := kept_run h st acts
  refine ⟨hkept.answers, hkept.ok, ?_, ?_, ?_⟩
  · rw [hkept.answers]
    exact (counts_run acts).increasing
  · exact fun a ha => verifyLogin_complete hkept.table hkept.ok hverifies ha
  · exact fun email password user hlogin => verifyLogin_sound hkept.table hlogin

/-! Tokens. -/

theorem step_server (s : Service) (a : ServiceAct) :
    (s.step h st a).server =
      match a.act h s.users with
      | some act => Iam.step st s.server act
      | none => s.server := by
  cases a <;> rfl

/-- The codes and tokens of the endpoints go back to logins. -/
theorem backed_serviceStep (s : Service) (a : ServiceAct) (hbacked : Backed st s.server) :
    Backed st (s.step h st a).server := by
  rw [step_server]
  cases a.act h s.users with
  | none => exact hbacked
  | some act => exact backed_step s.server act hbacked

theorem backed_serviceRun (h : Hashing) (st : Settings) (acts : List ServiceAct) :
    Backed st (run (Service.step h st) Service.start acts).server :=
  run_keeps backed_serviceStep (backed_start st) acts

/-- The form was submitted when the account was there, with its email and a password that passes
for the one it had then. -/
structure Admitted (h : Hashing) (acts : List ServiceAct) (f : AuthForm) (a : Account) : Prop where
  submitted : ∃ pre post, acts = pre ++ .login f true :: post ∧ a ∈ (ledger pre).accounts.accounts
  email : a.user.email = f.email
  password : Accepts h a.password f.password

theorem Admitted.snoc {acts : List ServiceAct} {f : AuthForm} {a : Account} (hadmitted : Admitted h acts f a)
    (last : ServiceAct) : Admitted h (acts ++ [last]) f a := by
  obtain ⟨⟨pre, post, hacts, ha⟩, hemail, hpassword⟩ := hadmitted
  exact ⟨⟨pre, post ++ [last], by simp [hacts], ha⟩, hemail, hpassword⟩

theorem checkLogin_found {t : UserTable} {f : AuthForm} {reached : Bool} {user : TokenSubject}
    (hfound : checkLogin h t f reached = .found user) :
    reached = true ∧ ∃ u, verifyLogin h t f.email f.password = some u ∧ u.subject = user := by
  unfold checkLogin at hfound
  split at hfound
  · cases hfound
  · rename_i hreached
    split at hfound
    · rename_i u hlogin
      cases hfound
      have htrue : reached = true := by
        cases reached with
        | false => exact absurd rfl hreached
        | true => rfl
      exact ⟨htrue, u, hlogin, rfl⟩
    · cases hfound

theorem verified_admitted (acts : List ServiceAct) {p : AuthForm × TokenSubject}
    (hp : p ∈ (run (Service.step h st) Service.start acts).server.verified) :
    ∃ a, Admitted h acts p.1 a ∧ a.user.subject = p.2 := by
  induction acts using List.reverseRecOn with
  | nil => cases hp
  | append_singleton acts last ih =>
    rw [run_append] at hp
    have htable := (kept_run h st acts).table
    generalize run (Service.step h st) Service.start acts = s at hp ih htable
    have hserver : (run (Service.step h st) s [last]).server = _ := step_server s last
    rw [hserver] at hp
    have hbefore (hold : p ∈ s.server.verified) : ∃ a, Admitted h (acts ++ [last]) p.1 a ∧
        a.user.subject = p.2 := by
      obtain ⟨a, hadmitted, hsubject⟩ := ih hold
      exact ⟨a, hadmitted.snoc last, hsubject⟩
    cases hact : last.act h s.users with
    | none =>
      rw [hact] at hp
      exact hbefore hp
    | some act =>
      rw [hact] at hp
      have hcase : p ∈ s.server.verified ∨ Act.authSubmit p.1 (.found p.2) ∈ [act] := verified_run hp
      obtain hold | hsubmit := hcase
      · exact hbefore hold
      · obtain rfl := List.mem_singleton.mp hsubmit
        cases last with
        | login f reached =>
          simp only [ServiceAct.act, Option.some.injEq, Act.authSubmit.injEq] at hact
          obtain ⟨rfl, hfound⟩ := hact
          obtain ⟨rfl, user, hlogin, hsubject⟩ := checkLogin_found hfound
          obtain ⟨a, ha, rfl, hemail, hpassword⟩ := verifyLogin_sound htable hlogin
          exact ⟨a, ⟨⟨acts, [], rfl, ha⟩, hemail, hpassword⟩, hsubject⟩
        | _ => cases hact

/-- The token says who the account was at the check of its credentials, to the client that had
asked, which has shown the verifier of the same form. -/
structure Authenticates (h : Hashing) (st : Settings) (acts : List ServiceAct) (t : Issued) (f : AuthForm)
    (a : Account) : Prop where
  admitted : Admitted h acts f a
  subject : t.claims.sub = a.user.email ∧ t.claims.email = a.user.email ∧
    t.claims.preferredUsername = a.user.username ∧ t.claims.groups = a.user.groups
  audience : t.claims.aud = f.clientId
  verifier : st.s256 t.grant.form.codeVerifier = f.codeChallenge

/-- However logins, token requests and changes of the users interleave, the tokens that are sent are
those of the history, and each goes back to a submit at whose check the account it names was there
and accepted the submitted password. -/
theorem tokens_authenticate (h : Hashing) (st : Settings) (acts : List ServiceAct) :
    let s := run (Service.step h st) Service.start acts
    s.server.replies.filterMap Response.asToken = s.server.issued.map (fun t => (t.claims, st.tokenTtlSec)) ∧
      ∀ t ∈ s.server.issued, ∃ f a, Authenticates h st acts t f a := by
  have hbacked := backed_serviceRun h st acts
  refine ⟨hbacked.sent, fun t ht => ?_⟩
  have hgrant := List.mem_map_of_mem (f := Issued.grant) ht
  obtain ⟨⟨l, hl, -, hpending⟩, -, -⟩ := hbacked.granted t.grant (List.mem_append_right _ hgrant)
  obtain ⟨-, hverifier⟩ := hbacked.passed t.grant (List.mem_append_right _ hgrant)
  obtain ⟨now, hclaims⟩ := hbacked.claims t ht
  obtain ⟨a, hadmitted, hsubject⟩ := verified_admitted acts (hbacked.logins l hl).1
  rw [← hpending] at hverifier hclaims
  have huser : l.user = a.user.subject := hsubject.symm
  refine ⟨l.form, a, hadmitted, ?_, ?_, hverifier⟩
  · rw [hclaims]
    simp only [signToken, Login.pending, huser, IamUser.subject, and_self]
  · rw [hclaims]
    rfl

/-! A user whose password was changed before the login. -/

/-- Passwords are turned around and salted at the end. -/
def sampleHashing : Hashing where
  hashPassword salt password := password.reverse ++ salt
  verifyPassword password phc := password.reverse.isPrefixOf phc

theorem sampleHashing_verifies : sampleHashing.Verifies := fun _ _ =>
  List.isPrefixOf_iff_prefix.mpr (List.prefix_append _ _)

def sampleService : List ServiceAct :=
  [.manage (.create "frank@demo".toList "frank".toList "first".toList ["admin".toList]) ['s'] .answers,
    .skipIds 2,
    .manage (.create "frank@demo".toList "other".toList "second".toList []) ['t'] .answers,
    .manage (.create "anna@demo".toList "anna".toList "hidden".toList []) ['u'] .answerLost,
    .manage (.setPassword 1 "secret".toList) ['v'] .answers,
    .manage .list [] .answers,
    .login sampleForm true, .insertCode 0 fun _ => 7, .tick 10,
    .tokenRequest ⟨sampleCode, sampleVerifier⟩, .checkGrant 0, .manage (.delete 1) [] .answers, .issue 0 true]

def frank : IamUser := ⟨1, "frank@demo".toList, "frank".toList, ["admin".toList]⟩

def anna : IamUser := ⟨5, "anna@demo".toList, "anna".toList, []⟩

theorem sampleService_keeps :
    let s := run (Service.step sampleHashing sampleSettings) Service.start sampleService
    s.answers = [.created frank, .failed .duplicateEmail, .failed .noAnswer, .ok, .users [frank, anna], .ok] ∧
      (s.answers.filterMap Reply.createdId).Pairwise (· < ·) ∧
      verifyLogin sampleHashing s.users "anna@demo".toList "hidden".toList = some anna ∧
      ∀ password user, verifyLogin sampleHashing s.users "frank@demo".toList password ≠ some user := by
  obtain ⟨hanswers, -, hids, hin, hout⟩ :=
    service_keeps_accounts sampleHashing sampleSettings sampleHashing_verifies sampleService
  have haccounts : (ledger sampleService).accounts.accounts = [⟨anna, "hidden".toList⟩] := by decide +kernel
  rw [haccounts] at hin hout
  refine ⟨hanswers.trans (by decide +kernel), hids, hin _ (List.mem_singleton_self _), fun password user hlogin => ?_⟩
  obtain ⟨a, ha, rfl, hemail, -⟩ := hout _ password user hlogin
  rw [List.mem_singleton.mp ha] at hemail
  exact absurd hemail (by decide)

/-- The token names the account of the login, though it was deleted since. -/
example :
    ((run (Service.step sampleHashing sampleSettings) Service.start sampleService).server.replies.filterMap
      Response.asToken).map (fun t => t.1.sub) = ["frank@demo".toList] := by
  decide +kernel

end Onisin.Iam
