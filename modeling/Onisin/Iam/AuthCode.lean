import Mathlib.Data.List.Perm.Basic
import Onisin.Lib.Runs
import Onisin.Lib.Text

/-!
The authorization-code endpoints. Handlers of any number of clients interleave; they share the
clock and the map of pending codes, which each of them touches once, under a lock. Beside the
server's own state a run records its history: the logins that were given a code and the
tokens that were issued.
-/

set_option autoImplicit false

namespace Onisin.Iam
open Lib

/-! PKCE. -/

/-- The configuration, and the two library functions the verifier goes through. -/
structure Settings where
  issuer : Text
  tokenTtlSec : Nat
  codeTtlSec : Nat
  sha256 : List UInt8 → List UInt8
  base64urlNopad : List UInt8 → Text

def timingSafeEq (a b : List UInt8) : Bool :=
  if a.length ≠ b.length then false
  else ((a.zip b).foldl (fun diff p => diff ||| (p.1 ^^^ p.2)) 0) == 0

/-- `BASE64URL(SHA256(verifier))`. -/
def Settings.s256 (st : Settings) (verifier : Text) : Text :=
  st.base64urlNopad (st.sha256 (utf8 verifier))

def verifyS256 (st : Settings) (verifier challenge : Text) : Bool :=
  timingSafeEq (utf8 (st.s256 verifier)) (utf8 challenge)

theorem foldl_diff_eq_zero (pairs : List (UInt8 × UInt8)) (diff : UInt8) :
    pairs.foldl (fun diff p => diff ||| (p.1 ^^^ p.2)) diff = 0 ↔
      diff = 0 ∧ ∀ p ∈ pairs, p.1 = p.2 := by
  induction pairs generalizing diff with
  | nil => simp
  | cons p pairs ih =>
    rw [List.foldl_cons, ih, UInt8.or_eq_zero_iff, UInt8.xor_eq_zero_iff]
    simp [and_assoc]

theorem timingSafeEq_iff {a b : List UInt8} : timingSafeEq a b = true ↔ a = b := by
  unfold timingSafeEq
  split
  · rename_i hlen
    exact iff_of_false Bool.false_ne_true fun h => hlen (congrArg List.length h)
  · rename_i hlen
    rw [beq_iff_eq, foldl_diff_eq_zero]
    constructor
    · rintro ⟨-, h⟩
      refine List.ext_getElem (not_not.mp hlen) fun i hi hj => ?_
      have hz : i < (a.zip b).length := by
        rw [List.length_zip]
        omega
      simpa [List.getElem_zip] using h _ (List.getElem_mem hz)
    · rintro rfl
      refine ⟨rfl, fun p hp => ?_⟩
      obtain ⟨i, hi, rfl⟩ := List.mem_iff_getElem.mp hp
      rw [List.getElem_zip]

theorem verifyS256_iff {st : Settings} {verifier challenge : Text} :
    verifyS256 st verifier challenge = true ↔ st.s256 verifier = challenge := by
  rw [verifyS256, timingSafeEq_iff]
  exact ⟨utf8_injective, congrArg utf8⟩

/-! Requests, pending codes and tokens. -/

structure TokenSubject where
  email : Text
  username : Text
  groups : List Text
  deriving DecidableEq, Repr

structure PendingCode where
  sub : TokenSubject
  clientId : Text
  codeChallenge : Text
  issuedAt : Nat
  deriving DecidableEq, Repr

structure AuthForm where
  email : Text
  password : Text
  clientId : Text
  redirectUri : Text
  codeChallenge : Text
  state : Text
  deriving DecidableEq, Repr

structure TokenForm where
  code : Text
  codeVerifier : Text
  deriving DecidableEq, Repr

/-- What the credential check comes back with. -/
inductive LoginResult where
  | found (user : TokenSubject)
  | rejected
  | lookupFailed
  deriving DecidableEq, Repr

structure Claims where
  sub : Text
  email : Text
  preferredUsername : Text
  groups : List Text
  iss : Text
  aud : Text
  iat : Nat
  exp : Nat
  deriving DecidableEq, Repr

/-- The claims of the signed token; the signature itself is left out. -/
def signToken (st : Settings) (audience : Text) (sub : TokenSubject) (now : Nat) : Claims :=
  ⟨sub.email, sub.email, sub.username, sub.groups, st.issuer, audience, now, now + st.tokenTtlSec⟩

inductive Response where
  | missingParameters
  | loginForm (error : Text)
  | redirect (location : Text)
  | error (status : Nat) (error : Text) (description : Option Text)
  | token (claims : Claims) (expiresIn : Nat)
  deriving DecidableEq, Repr

/-- The login form again, with the message of a failed attempt. -/
def renderForm (f : AuthForm) (error : Text) : Response :=
  if f.clientId.isEmpty || f.redirectUri.isEmpty || f.codeChallenge.isEmpty then .missingParameters
  else .loginForm error

def hexByte (digits : Text) (b : UInt8) : Text :=
  [digits.getD (b.toNat / 16) '0', digits.getD (b.toNat % 16) '0']

/-- 32 hex characters from 16 random bytes. -/
def newCode (bytes : Fin 16 → UInt8) : Text :=
  (List.ofFn bytes).flatMap (hexByte "0123456789abcdef".toList)

def isUnreserved (b : UInt8) : Bool :=
  let n := b.toNat
  (65 ≤ n && n ≤ 90) || (97 ≤ n && n ≤ 122) || (48 ≤ n && n ≤ 57) || n == 45 || n == 95 ||
    n == 46 || n == 126

def urlencode (s : Text) : Text :=
  (utf8 s).flatMap fun b =>
    if isUnreserved b then [Char.ofNat b.toNat] else ['%'] ++ hexByte "0123456789ABCDEF".toList b

def redirectTarget (f : AuthForm) (code : Text) : Text :=
  f.redirectUri ++ "?code=".toList ++ urlencode code ++
    if f.state.isEmpty then [] else "&state=".toList ++ urlencode f.state

/-! The server and its handlers, cut at the points where other handlers may run. -/

/-- A login that was given a code. -/
structure Login where
  code : Text
  form : AuthForm
  user : TokenSubject
  time : Nat
  deriving DecidableEq, Repr

def Login.pending (l : Login) : PendingCode := ⟨l.user, l.form.clientId, l.form.codeChallenge, l.time⟩

/-- A token request that has taken its code out of the map. -/
structure Grant where
  form : TokenForm
  pc : PendingCode
  presentedAt : Nat
  deriving DecidableEq, Repr

structure Issued where
  grant : Grant
  claims : Claims
  deriving DecidableEq, Repr

structure Server where
  now : Nat
  codes : Text → Option PendingCode
  /-- Submits whose credentials were found good, before they draw their code. -/
  submitting : List (AuthForm × TokenSubject)
  /-- Token requests before their checks, and those that passed them. -/
  taken : List Grant
  checked : List Grant
  replies : List Response
  -- history
  verified : List (AuthForm × TokenSubject)
  logins : List Login
  issued : List Issued

def Server.start : Server := ⟨0, fun _ => none, [], [], [], [], [], [], []⟩

def Server.reply (s : Server) (r : Response) : Server := { s with replies := s.replies ++ [r] }

def loginError : Text := "Invalid email or password.".toList

/-- `POST /auth` up to the answer of the credential check. -/
def Server.authSubmit (s : Server) (f : AuthForm) : LoginResult → Server
  | .found user =>
    { s with submitting := s.submitting ++ [(f, user)], verified := s.verified ++ [(f, user)] }
  | .rejected => s.reply (renderForm f loginError)
  | .lookupFailed => s.reply (renderForm f loginError)

/-- The rest of it: the code is drawn and put into the map under the lock. -/
def Server.insertCode (s : Server) (i : Nat) (bytes : Fin 16 → UInt8) : Server :=
  match s.submitting[i]? with
  | none => s
  | some (f, user) =>
    let code := newCode bytes
    let l : Login := ⟨code, f, user, s.now⟩
    let s' : Server :=
      { s with
        submitting := s.submitting.eraseIdx i
        codes := fun c => if c = code then some l.pending else s.codes c
        logins := s.logins ++ [l] }
    s'.reply (.redirect (redirectTarget f code))

/-- `POST /token` up to the removal of the code, which happens whatever comes next. -/
def Server.tokenRequest (s : Server) (f : TokenForm) : Server :=
  if f.code.isEmpty || f.codeVerifier.isEmpty then s.reply (.error 400 "invalid_request".toList none)
  else
    match s.codes f.code with
    | none => s.reply (.error 400 "invalid_grant".toList (some "unknown code".toList))
    | some pc =>
      { s with
        codes := fun c => if c = f.code then none else s.codes c
        taken := s.taken ++ [⟨f, pc, s.now⟩] }

/-- The expiry and PKCE checks on the entry that was removed. -/
def Server.checkGrant (st : Settings) (s : Server) (i : Nat) : Server :=
  match s.taken[i]? with
  | none => s
  | some g =>
    let rest : Server := { s with taken := s.taken.eraseIdx i }
    if s.now - g.pc.issuedAt > st.codeTtlSec then
      rest.reply (.error 400 "invalid_grant".toList (some "code expired".toList))
    else if !verifyS256 st g.form.codeVerifier g.pc.codeChallenge then
      rest.reply (.error 400 "invalid_grant".toList (some "PKCE failed".toList))
    else { rest with checked := s.checked ++ [g] }

/-- Signing, which may fail. -/
def Server.issue (st : Settings) (s : Server) (i : Nat) (signed : Bool) : Server :=
  match s.checked[i]? with
  | none => s
  | some g =>
    let rest : Server := { s with checked := s.checked.eraseIdx i }
    if signed then
      let claims := signToken st g.pc.clientId g.pc.sub s.now
      let s' : Server := { rest with issued := s.issued ++ [⟨g, claims⟩] }
      s'.reply (.token claims st.tokenTtlSec)
    else rest.reply (.error 500 "server_error".toList none)

inductive Act where
  | tick (sec : Nat)
  | authSubmit (f : AuthForm) (r : LoginResult)
  | insertCode (i : Nat) (bytes : Fin 16 → UInt8)
  | tokenRequest (f : TokenForm)
  | checkGrant (i : Nat)
  | issue (i : Nat) (signed : Bool)

def step (st : Settings) (s : Server) : Act → Server
  | .tick sec => { s with now := s.now + sec }
  | .authSubmit f r => s.authSubmit f r
  | .insertCode i bytes => s.insertCode i bytes
  | .tokenRequest f => s.tokenRequest f
  | .checkGrant i => s.checkGrant st i
  | .issue i signed => s.issue st i signed

/-- No code is drawn twice. -/
def Fresh (s : Server) : Act → Prop
  | .insertCode _ bytes => newCode bytes ∉ s.logins.map Login.code
  | _ => True

/-! Every code is in one place: in the map, with the request that took it out, or with the
token it was redeemed for. -/

def Grant.code (g : Grant) : Text := g.form.code

def Server.used (s : Server) : List Grant := s.taken ++ s.checked ++ s.issued.map Issued.grant

/-- A login stands behind the entry. -/
def Known (logins : List Login) (code : Text) (pc : PendingCode) : Prop :=
  ∃ l ∈ logins, l.code = code ∧ l.pending = pc

/-- The request passed the expiry check and the PKCE check. -/
structure Passed (st : Settings) (g : Grant) : Prop where
  inTime : g.presentedAt ≤ g.pc.issuedAt + st.codeTtlSec
  verifier : st.s256 g.form.codeVerifier = g.pc.codeChallenge

/-- A login stands behind the request, which came later. -/
structure Granted (s : Server) (g : Grant) : Prop where
  known : Known s.logins g.code g.pc
  issued : g.pc.issuedAt ≤ g.presentedAt
  presented : g.presentedAt ≤ s.now

/-- The token of a reply, and how long it is good for. -/
def Response.asToken : Response → Option (Claims × Nat)
  | .token claims expiresIn => some (claims, expiresIn)
  | _ => none

/-- Everything goes back to a login, and the tokens sent are those of the history. -/
structure Backed (st : Settings) (s : Server) : Prop where
  entries : ∀ code pc, s.codes code = some pc → Known s.logins code pc
  granted : ∀ g ∈ s.used, Granted s g
  passed : ∀ g ∈ s.checked ++ s.issued.map Issued.grant, Passed st g
  claims : ∀ t ∈ s.issued, ∃ now, t.claims = signToken st t.grant.pc.clientId t.grant.pc.sub now
  sent : s.replies.filterMap Response.asToken = s.issued.map fun t => (t.claims, st.tokenTtlSec)
  submitting : ∀ p ∈ s.submitting, p ∈ s.verified
  logins : ∀ l ∈ s.logins, (l.form, l.user) ∈ s.verified ∧ l.time ≤ s.now ∧ l.code ≠ []

/-- No code was taken twice, and none that was taken is in the map. -/
structure OnePlace (codes : Text → Option PendingCode) (used : List Grant) : Prop where
  once : (used.map Grant.code).Nodup
  gone : ∀ g ∈ used, codes g.code = none

structure Inv (st : Settings) (s : Server) : Prop extends Backed st s where
  onePlace : OnePlace s.codes s.used

theorem OnePlace.subperm {codes : Text → Option PendingCode} {used used' : List Grant}
    (h : OnePlace codes used) (hsub : used'.Subperm used) : OnePlace codes used' := by
  refine ⟨?_, fun g hg => h.gone g (hsub.subset hg)⟩
  obtain ⟨l, hperm, hsublist⟩ := hsub
  exact (hperm.map Grant.code).nodup_iff.mp (h.once.sublist (hsublist.map Grant.code))

theorem newCode_ne_nil (bytes : Fin 16 → UInt8) : newCode bytes ≠ [] := by
  rw [newCode, List.ofFn_succ, List.flatMap_cons]
  exact List.cons_ne_nil _ _

theorem backed_start (st : Settings) : Backed st Server.start := by
  constructor
  case sent => rfl
  all_goals nofun

theorem inv_start (st : Settings) : Inv st Server.start :=
  ⟨backed_start st, List.nodup_nil, nofun⟩

/-- Moving the `i`-th element of one list to the end of the next keeps them together. -/
theorem move_perm {α : Type} {l : List α} {i : Nat} {g : α} (h : l[i]? = some g) (m r : List α) :
    (l.eraseIdx i ++ (m ++ [g]) ++ r).Perm (l ++ m ++ r) := by
  obtain ⟨hi, rfl⟩ := List.getElem?_eq_some_iff.mp h
  have hmid : (l.eraseIdx i ++ m ++ l[i] :: r).Perm (l[i] :: (l.eraseIdx i ++ m ++ r)) :=
    List.perm_middle
  have hback := (List.getElem_cons_eraseIdx_perm hi).append_right (m ++ r)
  simpa [List.append_assoc] using hmid.trans (by simpa [List.append_assoc] using hback)

theorem drop_subperm {α : Type} (l : List α) (i : Nat) (r : List α) :
    (l.eraseIdx i ++ r).Subperm (l ++ r) :=
  ((List.eraseIdx_sublist l i).append_right r).subperm

theorem Known.mono {logins : List Login} {code : Text} {pc : PendingCode} (h : Known logins code pc)
    (more : List Login) : Known (logins ++ more) code pc := by
  obtain ⟨l, hl, hc, hp⟩ := h
  exact ⟨l, List.mem_append_left more hl, hc, hp⟩

/-! What the handlers do to the requests that hold a code. -/

section Used
variable {st : Settings} {s : Server}

theorem taken_perm (s : Server) (g : Grant) :
    ((s.taken ++ [g]) ++ s.checked ++ s.issued.map Issued.grant).Perm (g :: s.used) := by
  simp [Server.used, List.append_assoc]

theorem checkGrant_used (st : Settings) (s : Server) (i : Nat) : (s.checkGrant st i).used.Subperm s.used := by
  unfold Server.checkGrant
  split
  · exact List.Subperm.refl _
  · rename_i g hi
    have hdrop : (s.taken.eraseIdx i ++ s.checked ++ s.issued.map Issued.grant).Subperm s.used := by
      simpa [Server.used, List.append_assoc] using drop_subperm s.taken i _
    dsimp only
    repeat' split
    · exact hdrop
    · exact hdrop
    · exact (move_perm hi s.checked (s.issued.map Issued.grant)).subperm

theorem issue_used (st : Settings) (s : Server) (i : Nat) (signed : Bool) :
    (s.issue st i signed).used.Subperm s.used := by
  unfold Server.issue
  split
  · exact List.Subperm.refl _
  · rename_i g hi
    dsimp only
    split
    · refine List.Perm.subperm ?_
      have hperm := (move_perm hi (s.issued.map Issued.grant) []).append_left s.taken
      simpa [Server.used, Server.reply, List.append_assoc] using hperm
    · have hdrop := ((List.eraseIdx_sublist s.checked i).append_right
        (s.issued.map Issued.grant)).append_left s.taken
      simpa [Server.used, Server.reply, List.append_assoc] using hdrop.subperm

end Used

/-! Every step keeps what is known, whatever codes are drawn. -/

section Steps
variable {st : Settings} {s : Server}

theorem backed_reply (h : Backed st s) {r : Response} (hr : r.asToken = none) : Backed st (s.reply r) := by
  have hsent : (s.replies ++ [r]).filterMap Response.asToken = s.replies.filterMap Response.asToken := by
    simp [hr]
  exact ⟨h.entries, fun g hg => ⟨(h.granted g hg).known, (h.granted g hg).issued, (h.granted g hg).presented⟩,
    h.passed, h.claims, hsent.trans h.sent, h.submitting, h.logins⟩

theorem backed_tick (h : Backed st s) (sec : Nat) : Backed st { s with now := s.now + sec } := by
  refine ⟨h.entries, ?_, h.passed, h.claims, h.sent, h.submitting, ?_⟩
  · intro g hg
    obtain ⟨hknown, hissued, hnow⟩ := h.granted g hg
    exact ⟨hknown, hissued, Nat.le_add_right_of_le hnow⟩
  · intro l hl
    obtain ⟨hver, htime, hcode⟩ := h.logins l hl
    exact ⟨hver, Nat.le_add_right_of_le htime, hcode⟩

theorem renderForm_asToken (f : AuthForm) (error : Text) : (renderForm f error).asToken = none := by
  unfold renderForm
  split <;> rfl

theorem backed_authSubmit (h : Backed st s) (f : AuthForm) (r : LoginResult) :
    Backed st (s.authSubmit f r) := by
  cases r with
  | rejected => exact backed_reply h (renderForm_asToken f _)
  | lookupFailed => exact backed_reply h (renderForm_asToken f _)
  | found user =>
    refine ⟨h.entries, ?_, h.passed, h.claims, h.sent, ?_, ?_⟩
    · intro g hg
      obtain ⟨hknown, hissued, hnow⟩ := h.granted g hg
      exact ⟨hknown, hissued, hnow⟩
    · intro p hp
      obtain hp | hp := List.mem_append.mp hp
      · exact List.mem_append_left _ (h.submitting p hp)
      · exact List.mem_append_right _ hp
    · intro l hl
      obtain ⟨hver, hrest⟩ := h.logins l hl
      exact ⟨List.mem_append_left _ hver, hrest⟩

theorem backed_insertCode (h : Backed st s) (i : Nat) (bytes : Fin 16 → UInt8) :
    Backed st (s.insertCode i bytes) := by
  unfold Server.insertCode
  split
  · exact h
  · rename_i f user hi
    refine backed_reply ?_ rfl
    refine ⟨?_, ?_, h.passed, h.claims, h.sent, ?_, ?_⟩
    · intro code pc hcode
      dsimp only at hcode ⊢
      split at hcode
      · rename_i heq
        exact ⟨_, List.mem_append_right _ List.mem_cons_self, heq.symm, Option.some.inj hcode⟩
      · exact (h.entries code pc hcode).mono _
    · intro g hg
      obtain ⟨hknown, hissued, hnow⟩ := h.granted g hg
      exact ⟨hknown.mono _, hissued, hnow⟩
    · exact fun p hp => h.submitting p (List.mem_of_mem_eraseIdx hp)
    · intro l hl
      obtain hl | hl := List.mem_append.mp hl
      · exact h.logins l hl
      · obtain rfl := List.mem_singleton.mp hl
        exact ⟨h.submitting _ (List.mem_of_getElem? hi), Nat.le_refl _, newCode_ne_nil bytes⟩

theorem backed_tokenRequest (h : Backed st s) (f : TokenForm) : Backed st (s.tokenRequest f) := by
  unfold Server.tokenRequest
  split
  · exact backed_reply h rfl
  · split
    · exact backed_reply h rfl
    · rename_i pc hpc
      refine ⟨?_, ?_, h.passed, h.claims, h.sent, h.submitting, h.logins⟩
      · intro code pc' hcode
        dsimp only at hcode
        split at hcode
        · cases hcode
        · exact h.entries code pc' hcode
      · intro g hg
        obtain rfl | hg := List.mem_cons.mp ((taken_perm s _).mem_iff.mp hg)
        · obtain ⟨l, hl, hcode, rfl⟩ := h.entries f.code pc hpc
          exact ⟨⟨l, hl, hcode, rfl⟩, (h.logins l hl).2.1, Nat.le_refl _⟩
        · obtain ⟨hknown, hissued, hnow⟩ := h.granted g hg
          exact ⟨hknown, hissued, hnow⟩

theorem backed_checkGrant (h : Backed st s) (i : Nat) : Backed st (s.checkGrant st i) := by
  have hsub := (checkGrant_used st s i).subset
  revert hsub
  unfold Server.checkGrant
  split
  · exact fun _ => h
  · rename_i g hi
    have hg : g ∈ s.used := List.mem_append_left _ (List.mem_append_left _ (List.mem_of_getElem? hi))
    have hrest (hsub : ∀ g' ∈ s.taken.eraseIdx i ++ s.checked ++ s.issued.map Issued.grant, g' ∈ s.used) :
        Backed st { s with taken := s.taken.eraseIdx i } := by
      refine ⟨h.entries, fun g' hg' => ?_, h.passed, h.claims, h.sent, h.submitting, h.logins⟩
      obtain ⟨hknown, hissued, hnow⟩ := h.granted g' (hsub g' hg')
      exact ⟨hknown, hissued, hnow⟩
    dsimp only
    split
    · exact fun hsub => backed_reply (hrest fun g' hg' => hsub hg') rfl
    · rename_i hexp
      split
      · exact fun hsub => backed_reply (hrest fun g' hg' => hsub hg') rfl
      · rename_i hver
        intro hsub
        obtain ⟨-, hissued, hnow⟩ := h.granted g hg
        have hpassed : Passed st g := ⟨by omega, verifyS256_iff.mp (by simpa using hver)⟩
        refine ⟨h.entries, fun g' hg' => ?_, fun g' hg' => ?_, h.claims, h.sent, h.submitting, h.logins⟩
        · obtain ⟨hknown, hissued, hnow⟩ := h.granted g' (hsub hg')
          exact ⟨hknown, hissued, hnow⟩
        · rw [List.append_assoc, List.mem_append] at hg'
          obtain hg' | hg' := hg'
          · exact h.passed g' (List.mem_append_left _ hg')
          · obtain rfl | hg' := List.mem_cons.mp hg'
            · exact hpassed
            · exact h.passed g' (List.mem_append_right _ hg')

theorem backed_issue (h : Backed st s) (i : Nat) (signed : Bool) : Backed st (s.issue st i signed) := by
  have hsub := (issue_used st s i signed).subset
  revert hsub
  unfold Server.issue
  split
  · exact fun _ => h
  · rename_i g hi
    have hg : g ∈ s.checked := List.mem_of_getElem? hi
    have hchecked : ∀ g' ∈ s.checked.eraseIdx i, g' ∈ s.checked := fun _ => List.mem_of_mem_eraseIdx
    dsimp only
    split
    · intro hsub
      refine ⟨h.entries, fun g' hg' => ?_, fun g' hg' => ?_, fun t ht => ?_, ?_, h.submitting, h.logins⟩
      · obtain ⟨hknown, hissued, hnow⟩ := h.granted g' (hsub hg')
        exact ⟨hknown, hissued, hnow⟩
      · simp only [Server.reply, List.map_append, List.mem_append, List.map_cons, List.map_nil,
          List.mem_singleton] at hg'
        obtain hg' | hg' | rfl := hg'
        · exact h.passed g' (List.mem_append_left _ (hchecked g' hg'))
        · exact h.passed g' (List.mem_append_right _ hg')
        · exact h.passed g' (List.mem_append_left _ hg)
      · obtain ht | ht := List.mem_append.mp ht
        · exact h.claims t ht
        · obtain rfl := List.mem_singleton.mp ht
          exact ⟨s.now, rfl⟩
      · simp only [Server.reply, List.filterMap_append, List.map_append, h.sent]
        rfl
    · intro hsub
      have hrest : Backed st { s with checked := s.checked.eraseIdx i } := by
        refine ⟨h.entries, fun g' hg' => ?_, fun g' hg' => ?_, h.claims, h.sent, h.submitting, h.logins⟩
        · obtain ⟨hknown, hissued, hnow⟩ := h.granted g' (hsub hg')
          exact ⟨hknown, hissued, hnow⟩
        · obtain hg' | hg' := List.mem_append.mp hg'
          · exact h.passed g' (List.mem_append_left _ (hchecked g' hg'))
          · exact h.passed g' (List.mem_append_right _ hg')
      exact backed_reply hrest rfl

theorem backed_step (s : Server) (a : Act) (h : Backed st s) : Backed st (step st s a) := by
  cases a with
  | tick sec => exact backed_tick h sec
  | authSubmit f r => exact backed_authSubmit h f r
  | insertCode i bytes => exact backed_insertCode h i bytes
  | tokenRequest f => exact backed_tokenRequest h f
  | checkGrant i => exact backed_checkGrant h i
  | issue i signed => exact backed_issue h i signed

/-! As long as no code is drawn twice, each is in one place. -/

theorem onePlace_insertCode (h : Inv st s) (i : Nat) {bytes : Fin 16 → UInt8}
    (hfresh : newCode bytes ∉ s.logins.map Login.code) :
    OnePlace (s.insertCode i bytes).codes (s.insertCode i bytes).used := by
  unfold Server.insertCode
  split
  · exact h.onePlace
  · refine ⟨h.onePlace.once, fun g hg => ?_⟩
    have hne : g.code ≠ newCode bytes := by
      obtain ⟨l, hl, hcode, -⟩ := (h.granted g hg).known
      intro heq
      exact hfresh (heq ▸ hcode ▸ List.mem_map_of_mem hl)
    exact (if_neg hne).trans (h.onePlace.gone g hg)

theorem onePlace_tokenRequest (h : Inv st s) (f : TokenForm) :
    OnePlace (s.tokenRequest f).codes (s.tokenRequest f).used := by
  unfold Server.tokenRequest
  split
  · exact h.onePlace
  · split
    · exact h.onePlace
    · rename_i pc hpc
      have hnew : f.code ∉ s.used.map Grant.code := by
        intro hmem
        obtain ⟨g, hg, hcode⟩ := List.mem_map.mp hmem
        have hgone := h.onePlace.gone g hg
        rw [hcode, hpc] at hgone
        cases hgone
      have honce : (((⟨f, pc, s.now⟩ : Grant) :: s.used).map Grant.code).Nodup :=
        List.nodup_cons.mpr ⟨hnew, h.onePlace.once⟩
      refine OnePlace.subperm ⟨honce, ?_⟩ (taken_perm s _).subperm
      intro g hg
      dsimp only
      split
      · rfl
      · rename_i hne
        obtain rfl | hg := List.mem_cons.mp hg
        · exact absurd rfl hne
        · exact h.onePlace.gone g hg

theorem checkGrant_codes (st : Settings) (s : Server) (i : Nat) : (s.checkGrant st i).codes = s.codes := by
  unfold Server.checkGrant
  repeat' split
  all_goals rfl

theorem issue_codes (st : Settings) (s : Server) (i : Nat) (signed : Bool) :
    (s.issue st i signed).codes = s.codes := by
  unfold Server.issue
  repeat' split
  all_goals rfl

theorem inv_step (s : Server) (a : Act) (h : Inv st s) (hfresh : Fresh s a) : Inv st (step st s a) := by
  refine ⟨backed_step s a h.toBacked, ?_⟩
  cases a with
  | tick sec => exact h.onePlace
  | authSubmit f r => cases r <;> exact h.onePlace
  | insertCode i bytes => exact onePlace_insertCode h i hfresh
  | tokenRequest f => exact onePlace_tokenRequest h f
  | checkGrant i =>
    rw [step, checkGrant_codes]
    exact h.onePlace.subperm (checkGrant_used st s i)
  | issue i signed =>
    rw [step, issue_codes]
    exact h.onePlace.subperm (issue_used st s i signed)

theorem inv_run {acts : List Act} (h : Along (step st) Fresh Server.start acts) :
    Inv st (run (step st) Server.start acts) :=
  run_invariant inv_step (inv_start st) h

end Steps

/-! A code that was given out and is no longer in the map does not come back. -/

def Spent (code : Text) (s : Server) : Prop := code ∈ s.logins.map Login.code ∧ s.codes code = none

theorem spent_step {st : Settings} {code : Text} (s : Server) (a : Act) (h : Spent code s)
    (hfresh : Fresh s a) : Spent code (step st s a) := by
  obtain ⟨hlogin, hgone⟩ := h
  cases a with
  | tick sec => exact ⟨hlogin, hgone⟩
  | authSubmit f r => cases r <;> exact ⟨hlogin, hgone⟩
  | insertCode i bytes =>
    simp only [step, Server.insertCode]
    split
    · exact ⟨hlogin, hgone⟩
    · refine ⟨?_, ?_⟩
      · simp only [Server.reply, List.map_append]
        exact List.mem_append_left _ hlogin
      · have hne : code ≠ newCode bytes := fun heq => hfresh (heq ▸ hlogin)
        exact (if_neg hne).trans hgone
  | tokenRequest f =>
    simp only [step, Server.tokenRequest]
    split
    · exact ⟨hlogin, hgone⟩
    · split
      · exact ⟨hlogin, hgone⟩
      · refine ⟨hlogin, ?_⟩
        dsimp only
        split
        · rfl
        · exact hgone
  | checkGrant i =>
    simp only [step, Server.checkGrant]
    repeat' split
    all_goals exact ⟨hlogin, hgone⟩
  | issue i signed =>
    simp only [step, Server.issue]
    repeat' split
    all_goals exact ⟨hlogin, hgone⟩

theorem spent_run {st : Settings} {code : Text} {s : Server} {acts : List Act} (h : Spent code s)
    (hfresh : Along (step st) Fresh s acts) : Spent code (run (step st) s acts) :=
  run_invariant spent_step h hfresh

/-- An attempt with a known code and a verifier spends the code. -/
theorem tokenRequest_spends {st : Settings} {s : Server} (h : Inv st s) {f : TokenForm}
    (hver : f.codeVerifier ≠ []) (hcode : s.codes f.code ≠ none) : Spent f.code (s.tokenRequest f) := by
  obtain ⟨pc, hpc⟩ := Option.ne_none_iff_exists'.mp hcode
  obtain ⟨l, hl, hlcode, -⟩ := h.entries f.code pc hpc
  have hne : f.code ≠ [] := hlcode ▸ (h.logins l hl).2.2
  have hcond : (f.code.isEmpty || f.codeVerifier.isEmpty) = false := by
    simp [hne, hver]
  have hmem : f.code ∈ s.logins.map Login.code := hlcode ▸ List.mem_map_of_mem hl
  simp only [Server.tokenRequest, hcond, hpc]
  exact ⟨hmem, if_pos rfl⟩

/-- Every submit counted as verified was one whose credentials the check found good. -/
theorem verified_run {st : Settings} {s : Server} {acts : List Act} {p : AuthForm × TokenSubject}
    (h : p ∈ (run (step st) s acts).verified) :
    p ∈ s.verified ∨ Act.authSubmit p.1 (.found p.2) ∈ acts := by
  induction acts generalizing s with
  | nil => exact .inl h
  | cons a acts ih =>
    obtain h | h := ih h
    · have hstep : p ∈ s.verified ∨ a = .authSubmit p.1 (.found p.2) := by
        cases a with
        | authSubmit f r =>
          cases r with
          | found user =>
            obtain h | h := List.mem_append.mp h
            · exact .inl h
            · exact .inr (by rw [List.mem_singleton.mp h])
          | rejected => exact .inl h
          | lookupFailed => exact .inl h
        | tick sec => exact .inl h
        | insertCode i bytes =>
          simp only [step, Server.insertCode] at h
          split at h <;> exact .inl h
        | tokenRequest f =>
          simp only [step, Server.tokenRequest] at h
          repeat' split at h
          all_goals exact .inl h
        | checkGrant i =>
          simp only [step, Server.checkGrant] at h
          repeat' split at h
          all_goals exact .inl h
        | issue i signed =>
          simp only [step, Server.issue] at h
          repeat' split at h
          all_goals exact .inl h
      obtain hold | rfl := hstep
      · exact .inl hold
      · exact .inr List.mem_cons_self
    · exact .inr (List.mem_cons_of_mem a h)

/-- The login that a token goes back to. -/
structure BoundTo (st : Settings) (acts : List Act) (t : Issued) (l : Login) : Prop where
  code : l.code = t.grant.code
  loggedIn : Act.authSubmit l.form (.found l.user) ∈ acts
  verifier : st.s256 t.grant.form.codeVerifier = l.form.codeChallenge
  afterLogin : l.time ≤ t.grant.presentedAt
  inTime : t.grant.presentedAt ≤ l.time + st.codeTtlSec
  subject : t.claims.sub = l.user.email ∧ t.claims.email = l.user.email ∧
    t.claims.preferredUsername = l.user.username ∧ t.claims.groups = l.user.groups
  audience : t.claims.aud = l.form.clientId

/-- Tokens go back to the login their code was made for. -/
theorem Backed.boundTo {st : Settings} {acts : List Act}
    (h : Backed st (run (step st) Server.start acts)) {t : Issued}
    (ht : t ∈ (run (step st) Server.start acts).issued) :
    ∃ l ∈ (run (step st) Server.start acts).logins, BoundTo st acts t l := by
  have hmem := List.mem_map_of_mem (f := Issued.grant) ht
  obtain ⟨⟨l, hl, hcode, hpend⟩, hissued, -⟩ := h.granted t.grant (List.mem_append_right _ hmem)
  obtain ⟨hin, hver⟩ := h.passed t.grant (List.mem_append_right _ hmem)
  obtain ⟨now, hclaims⟩ := h.claims t ht
  obtain hstart | hacts := verified_run (h.logins l hl).1
  · cases hstart
  · rw [← hpend] at hissued hin hver hclaims
    refine ⟨l, hl, hcode, hacts, hver, hissued, hin, ?_, ?_⟩
    · rw [hclaims]
      exact ⟨rfl, rfl, rfl, rfl⟩
    · rw [hclaims]
      rfl

/-- In every interleaving of the handlers the tokens that are sent are those of the history, a code
yields at most one, a token goes back to the login its code was made for, and an attempt on a known
code leaves it unusable for good. -/
theorem codes_single_use_and_bound (st : Settings) (acts : List Act)
    (hfresh : Along (step st) Fresh Server.start acts) :
    let s := run (step st) Server.start acts
    (s.replies.filterMap Response.asToken = s.issued.map fun t => (t.claims, st.tokenTtlSec)) ∧
    (s.issued.map fun t => t.grant.code).Nodup ∧
    (∀ t ∈ s.issued, ∃ l ∈ s.logins, BoundTo st acts t l) ∧
    ∀ pre f post, acts = pre ++ .tokenRequest f :: post → f.codeVerifier ≠ [] →
      (run (step st) Server.start pre).codes f.code ≠ none →
      s.codes f.code = none ∧
      ∀ f' : TokenForm, f'.code = f.code → f'.codeVerifier ≠ [] →
        s.tokenRequest f' =
          s.reply (.error 400 "invalid_grant".toList (some "unknown code".toList)) := by
  have hinv := inv_run hfresh
  refine ⟨hinv.sent, ?_, fun t ht => hinv.toBacked.boundTo ht, ?_⟩
  · have hsub : ((run (step st) Server.start acts).issued.map Issued.grant).Sublist
        (run (step st) Server.start acts).used := List.sublist_append_right _ _
    have hnodup := hinv.onePlace.once.sublist (hsub.map Grant.code)
    rwa [List.map_map] at hnodup
  · intro pre f post hacts hver hcode
    subst hacts
    obtain ⟨hpre, -, hpost⟩ := along_append.mp hfresh
    have hspent := spent_run (tokenRequest_spends (inv_run hpre) hver hcode) hpost
    have hrun : run (step st) Server.start (pre ++ .tokenRequest f :: post) =
        run (step st) ((run (step st) Server.start pre).tokenRequest f) post := by
      rw [run_append]
      rfl
    rw [hrun]
    refine ⟨hspent.2, fun f' hcode' hver' => ?_⟩
    obtain ⟨l, hl, hlcode⟩ := List.mem_map.mp hspent.1
    have hne : f'.code ≠ [] := by
      rw [hcode', ← hlcode]
      rw [← hrun] at hl
      exact (hinv.logins l hl).2.2
    have hcond : (f'.code.isEmpty || f'.codeVerifier.isEmpty) = false := by
      simp [hne, hver']
    rw [Server.tokenRequest, hcond, hcode', hspent.2]
    rfl

/-! The worked example of the verifier's tests: two logins for one application, the redemption of
both codes with requests that overlap, and an attempt to use the first one again. -/

def sampleVerifier : Text := "dBjftJeZ4CVP-mB92K27uhbUJU1p1r_wW1gFWFOEjXk".toList

def sampleChallenge : Text := "E9Melhoa2OwvFrEMTJguCHaoeK1t8URWbuGJSstw-cM".toList

/-- The digest of the sample verifier and its text. -/
def sampleSettings : Settings where
  issuer := "http://localhost:4300".toList
  tokenTtlSec := 3600
  codeTtlSec := 60
  sha256 := fun _ => [19, 211, 30, 150, 26, 26, 216, 236, 47, 22, 177, 12, 76, 152, 46, 8, 118, 168,
    120, 173, 109, 241, 68, 86, 110, 225, 137, 74, 203, 112, 249, 195]
  base64urlNopad := fun _ => sampleChallenge

def sampleForm : AuthForm :=
  ⟨"frank@demo".toList, "secret".toList, "oos".toList, "http://localhost:1420".toList,
    sampleChallenge, []⟩

def sampleUser : TokenSubject := ⟨"frank@demo".toList, "frank".toList, ["admin".toList]⟩

def sampleCode : Text := newCode fun _ => 7

def otherForm : AuthForm :=
  ⟨"anna@demo".toList, "hidden".toList, "oosd".toList, "http://localhost:1430".toList, sampleChallenge, []⟩

def otherUser : TokenSubject := ⟨"anna@demo".toList, "anna".toList, ["user".toList]⟩

def otherCode : Text := newCode fun _ => 9

def sampleRun : List Act :=
  [.authSubmit sampleForm (.found sampleUser), .authSubmit otherForm (.found otherUser),
    .insertCode 1 fun _ => 9, .insertCode 0 fun _ => 7, .tick 10,
    .tokenRequest ⟨sampleCode, sampleVerifier⟩, .tokenRequest ⟨otherCode, sampleVerifier⟩, .checkGrant 1,
    .tokenRequest ⟨sampleCode, sampleVerifier⟩, .checkGrant 0, .issue 0 true, .issue 0 true]

theorem sampleRun_fresh : Along (step sampleSettings) Fresh Server.start sampleRun := by
  have hother : newCode (fun _ => 7) ∉ [newCode fun _ => 9] := by decide
  exact ⟨trivial, trivial, List.not_mem_nil, hother, trivial, trivial, trivial, trivial, trivial, trivial,
    trivial, trivial, trivial⟩

theorem sampleRun_bound :
    let s := run (step sampleSettings) Server.start sampleRun
    (s.replies.filterMap Response.asToken).map (fun t => t.1.sub) = ["anna@demo".toList, "frank@demo".toList] ∧
      s.replies.filterMap Response.asToken = s.issued.map (fun t => (t.claims, 3600)) ∧
      (∀ t ∈ s.issued, ∃ l ∈ s.logins, BoundTo sampleSettings sampleRun t l) ∧
      s.codes sampleCode = none ∧
      s.tokenRequest ⟨sampleCode, sampleVerifier⟩ =
        s.reply (.error 400 "invalid_grant".toList (some "unknown code".toList)) := by
  obtain ⟨hsent, -, hbound, hspent⟩ := codes_single_use_and_bound sampleSettings sampleRun sampleRun_fresh
  obtain ⟨hgone, hrefused⟩ := hspent (sampleRun.take 5) ⟨sampleCode, sampleVerifier⟩ (sampleRun.drop 6) rfl
    (by decide) (by decide)
  exact ⟨by decide +kernel, hsent, hbound, hgone, hrefused ⟨sampleCode, sampleVerifier⟩ rfl (by decide)⟩

end Onisin.Iam
