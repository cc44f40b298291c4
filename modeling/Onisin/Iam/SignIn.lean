import Onisin.Iam.Desktop
import Onisin.Iam.SessionToken

/-!
A whole login: the application opens the provider's page, the user submits it, the redirect
comes back to the application, and the code is exchanged for the token, while the provider
serves any number of other clients.
-/

set_option autoImplicit false

namespace Onisin.Iam
open Lib

/-! A code stays in the map until it is presented. -/

/-- The code is redeemable, and was given out. -/
structure Redeemable (code : Text) (pc : PendingCode) (s : Server) : Prop where
  entry : s.codes code = some pc
  known : code ∈ s.logins.map Login.code

/-- No code is drawn twice, and this one is not presented. -/
def Leaves (code : Text) (s : Server) (a : Act) : Prop :=
  Fresh s a ∧ ∀ f, a = .tokenRequest f → f.code ≠ code

variable {st : Settings} {s : Server} {code : Text} {pc : PendingCode}

theorem redeemable_step (s : Server) (a : Act) (h : Redeemable code pc s) (hleaves : Leaves code s a) :
    Redeemable code pc (step st s a) := by
  obtain ⟨hentry, hknown⟩ := h
  obtain ⟨hfresh, hother⟩ := hleaves
  cases a with
  | tick sec => exact ⟨hentry, hknown⟩
  | authSubmit f r => cases r <;> exact ⟨hentry, hknown⟩
  | insertCode i bytes =>
    simp only [step, Server.insertCode]
    split
    · exact ⟨hentry, hknown⟩
    · have hne : code ≠ newCode bytes := fun heq => hfresh (heq ▸ hknown)
      refine ⟨(if_neg hne).trans hentry, ?_⟩
      simp only [Server.reply, List.map_append]
      exact List.mem_append_left _ hknown
  | tokenRequest f =>
    have hne : code ≠ f.code := (hother f rfl).symm
    simp only [step, Server.tokenRequest]
    split
    · exact ⟨hentry, hknown⟩
    · split
      · exact ⟨hentry, hknown⟩
      · exact ⟨(if_neg hne).trans hentry, hknown⟩
  | checkGrant i =>
    simp only [step, Server.checkGrant]
    repeat' split
    all_goals exact ⟨hentry, hknown⟩
  | issue i signed =>
    simp only [step, Server.issue]
    repeat' split
    all_goals exact ⟨hentry, hknown⟩

/-- The token request of a client, served without a pause. -/
def Server.redeem (st : Settings) (s : Server) (f : TokenForm) : Server :=
  ((s.tokenRequest f).checkGrant st s.taken.length).issue st s.checked.length true

theorem redeem_replies {f : TokenForm} (hcode : f.code ≠ []) (hverifier : f.codeVerifier ≠ [])
    (hentry : s.codes f.code = some pc) (htime : s.now ≤ pc.issuedAt + st.codeTtlSec)
    (hmatch : st.s256 f.codeVerifier = pc.codeChallenge) :
    (s.redeem st f).replies =
      s.replies ++ [.token (signToken st pc.clientId pc.sub s.now) st.tokenTtlSec] := by
  have hcond : (f.code.isEmpty || f.codeVerifier.isEmpty) = false := by simp [hcode, hverifier]
  have hold : ¬ s.now - pc.issuedAt > st.codeTtlSec := by omega
  have hver : verifyS256 st f.codeVerifier pc.codeChallenge = true := verifyS256_iff.mpr hmatch
  simp [Server.redeem, Server.tokenRequest, Server.checkGrant, Server.issue, hcond, hentry, hold, hver,
    Server.reply]

/-! The whole login. -/

/-- What an application needs of its provider and of its own address for a login. -/
structure Attempt.Proper (st : Settings) (a : Attempt) (origin path : Text) : Prop where
  endpoint : '?' ∉ a.authEp ∧ '#' ∉ a.authEp
  redirectUri : a.redirectUri = origin ++ path
  callback : "/callback".toList <+: path
  plain : ∀ c ∈ path, c ≠ '?' ∧ c ≠ ' ' ∧ c ≠ '\n'
  header : ∀ c ∈ a.redirectUri, HeaderChar c
  state : a.state ≠ []
  verifier : a.verifier ≠ []
  challenge : a.challenge = st.s256 a.verifier

/-- The form the user submits on the page that the application has opened. -/
def loginForm (a : Attempt) (email password : Text) : AuthForm :=
  posted email password (authForm (authUrl a))

theorem loginForm_eq {a : Attempt} {origin path : Text} (hst : st.base64urlNopad = base64Encode)
    (ha : a.Proper st origin path) (email password : Text) :
    loginForm a email password =
      { email, password, clientId := a.clientId, redirectUri := a.redirectUri
        codeChallenge := a.challenge, state := a.state } := by
  have hch : a.challenge = base64Encode (st.sha256 (utf8 a.verifier)) := by
    rw [ha.challenge, Settings.s256, hst]
  rw [loginForm, authForm_authUrl hch ha.endpoint.1 ha.endpoint.2, posted_eq]

/-- The acts of the provider for the user's own submit. -/
def submit (s : Server) (a : Attempt) (email password : Text) (user : TokenSubject)
    (bytes : Fin 16 → UInt8) : List Act :=
  [.authSubmit (loginForm a email password) (.found user), .insertCode s.submitting.length bytes]

/-- The provider once it has served the submit. -/
def Server.served (st : Settings) (s : Server) (a : Attempt) (email password : Text) (user : TokenSubject)
    (bytes : Fin 16 → UInt8) : Server :=
  run (step st) s (submit s a email password user bytes)

theorem served_redeemable (st : Settings) (s : Server) (a : Attempt) (email password : Text)
    (user : TokenSubject) (bytes : Fin 16 → UInt8) :
    Redeemable (newCode bytes)
        ⟨user, (loginForm a email password).clientId, (loginForm a email password).codeChallenge, s.now⟩
        (s.served st a email password user bytes) ∧
      (s.served st a email password user bytes).replies =
        s.replies ++ [.redirect (redirectTarget (loginForm a email password) (newCode bytes))] := by
  have hlast : (s.submitting ++ [(loginForm a email password, user)])[s.submitting.length]? =
      some (loginForm a email password, user) := by simp
  simp only [Server.served, submit, run, List.foldl_cons, List.foldl_nil, step, Server.authSubmit,
    Server.insertCode, hlast, Server.reply, and_true]
  exact ⟨if_pos rfl, by simp⟩

/-- What the provider does between the submit and the exchange of its code for the token: other
clients are served, draw codes of their own and present theirs, until the code would expire. -/
structure Meanwhile (st : Settings) (s : Server) (code : Text) (since : Nat) (acts : List Act) : Prop where
  leaves : Along (step st) (Leaves code) s acts
  inTime : (run (step st) s acts).now ≤ since + st.codeTtlSec

/-- The browser is sent to the application's own address, where the application finds its code. -/
structure ComesBack (headerValue : List UInt8 → Bool) (a : Attempt) (s : Server) (code origin target : Text) :
    Prop where
  reply : s.replies.getLast? = some (.redirect (origin ++ target))
  sent : respond headerValue (origin ++ target) = .answer (.redirect (origin ++ target))
  found : ∀ before rest more, (∀ b ∈ before, Elsewhere b) →
    waitForCode a.state (before ++ .request (browserRequest target more) :: rest) = some (.ok code)

theorem served_comesBack {st : Settings} {a : Attempt} {origin path : Text} {headerValue : List UInt8 → Bool}
    (hst : st.base64urlNopad = base64Encode) (hlib : DocumentedHeaderValue headerValue)
    (ha : a.Proper st origin path) (s : Server) (email password : Text) (user : TokenSubject)
    (bytes : Fin 16 → UInt8) :
    ComesBack headerValue a (s.served st a email password user bytes) (newCode bytes) origin
      (path ++ '?' :: codeQuery (loginForm a email password) (newCode bytes)) := by
  have hform := loginForm_eq hst ha email password
  have huri : (loginForm a email password).redirectUri = a.redirectUri := by rw [hform]
  have hstate : (loginForm a email password).state = a.state := by rw [hform]
  have hlocation : redirectTarget (loginForm a email password) (newCode bytes) =
      origin ++ (path ++ '?' :: codeQuery (loginForm a email password) (newCode bytes)) := by
    rw [redirectTarget_eq, huri, ha.redirectUri, List.append_assoc]
  constructor
  case reply => rw [(served_redeemable st s a email password user bytes).2, hlocation, List.getLast?_concat]
  case sent =>
    rw [← hlocation, respond, if_pos ((headerValue_target hlib).mpr (huri ▸ ha.header))]
  case found =>
    intro before rest more hbefore
    rw [← hstate]
    exact waitForCode_redirect hbefore ha.callback ha.plain (hstate ▸ ha.state)

/-- The exchange of the code gives a token, and it says who was signed in. -/
def SignsIn (float : Text → Option Text) (key : SigningKey) (st : Settings) (s : Server) (form : TokenForm)
    (user : TokenSubject) : Prop :=
  ∃ claims, (s.redeem st form).replies = s.replies ++ [.token claims st.tokenTtlSec] ∧
    decodeClaims float (compactToken key claims) =
      some
        { email := user.email
          username := usernameOf user.email user.username
          groups := shownGroups user
          role := roleOf (shownGroups user)
          exp := s.now + st.tokenTtlSec }

theorem signsIn_of_redeemable {verifier challenge clientId : Text} {user : TokenSubject} {since : Nat}
    (h : Redeemable code ⟨user, clientId, challenge, since⟩ s) (hcode : code ≠ [])
    (hverifier : verifier ≠ []) (htime : s.now ≤ since + st.codeTtlSec)
    (hmatch : st.s256 verifier = challenge) (hyear : s.now + st.tokenTtlSec < 2 ^ 63)
    (float : Text → Option Text) (key : SigningKey) :
    SignsIn float key st s ⟨code, verifier⟩ user := by
  have hreplies := redeem_replies (f := ⟨code, verifier⟩) hcode hverifier h.entry htime hmatch
  exact ⟨_, hreplies, decodeClaims_issued float key st clientId user s.now hyear⟩

def desktopSettings : Settings := { sampleSettings with base64urlNopad := base64Encode }

def desktopAttempt : Attempt :=
  ⟨"http://localhost:4300/auth".toList, "oos".toList, "http://127.0.0.1:1421/callback".toList,
    sampleVerifier, sampleChallenge, "a b&c".toList⟩

theorem desktopAttempt_proper :
    desktopAttempt.Proper desktopSettings "http://127.0.0.1:1421".toList "/callback".toList := by
  constructor
  case header =>
    have hall : (desktopAttempt.redirectUri.all fun c => decide (HeaderChar c)) = true := by decide
    exact fun c hc => of_decide_eq_true (List.all_eq_true.mp hall c hc)
  case plain =>
    have hall : ("/callback".toList.all fun c => decide (c ≠ '?' ∧ c ≠ ' ' ∧ c ≠ '\n')) = true := by
      decide
    exact fun c hc => of_decide_eq_true (List.all_eq_true.mp hall c hc)
  all_goals decide

def otherActs : List Act :=
  [.authSubmit sampleForm (.found sampleUser), .insertCode 0 fun _ => 7, .tick 10,
    .tokenRequest ⟨sampleCode, sampleVerifier⟩, .tick 20]

def desktopUser : TokenSubject := ⟨"admin@demo".toList, [], []⟩

/-- The provider that has served the submit of the application's user. -/
def desktopServed : Server :=
  Server.start.served desktopSettings desktopAttempt "admin@demo".toList "secret".toList desktopUser fun _ => 9

theorem otherActs_meanwhile :
    Meanwhile desktopSettings desktopServed (newCode fun _ => 9) Server.start.now otherActs := by
  have hother : sampleCode ≠ newCode fun _ => 9 := by decide
  have hfresh : newCode (fun _ => 7) ∉
      (step desktopSettings desktopServed (.authSubmit sampleForm (.found sampleUser))).logins.map Login.code := by
    decide
  constructor
  case leaves =>
    refine ⟨⟨trivial, ?_⟩, ⟨hfresh, ?_⟩, ⟨trivial, ?_⟩, ⟨trivial, ?_⟩, ⟨trivial, ?_⟩, trivial⟩
    case refine_4 =>
      intro f hf
      cases hf
      exact hother
    all_goals
      intro f hf
      cases hf
  case inTime => decide

end Onisin.Iam
