import Onisin.Iam.LoginRedirect
import Onisin.Lib.Base64
import Onisin.Mem.LossyText

/-!
The desktop application's side of a login: the address it opens in the browser, the page the
browser gets there, and the loopback listener that waits for the redirect.
-/

set_option autoImplicit false

namespace Onisin.Iam
open Lib
open Mem (lossyText lossyText_utf8)

/-! The address. -/

/-- What the application knows of the provider, and what it drew for this login. -/
structure Attempt where
  authEp : Text
  clientId : Text
  redirectUri : Text
  verifier : Text
  challenge : Text
  state : Text
  deriving DecidableEq, Repr

def authUrl (a : Attempt) : Text :=
  a.authEp ++ "?response_type=code&client_id=".toList ++ urlencode a.clientId ++
    "&redirect_uri=".toList ++ urlencode a.redirectUri ++
    "&code_challenge=".toList ++ a.challenge ++
    "&code_challenge_method=S256&state=".toList ++ urlencode a.state ++
    "&scope=".toList ++ urlencode "openid profile email".toList

/-! The page. -/

def replaceChar (c : Char) (text t : Text) : Text := t.flatMap fun d => if d = c then text else [d]

def esc (s : Text) : Text :=
  replaceChar '"' "&quot;".toList (replaceChar '>' "&gt;".toList
    (replaceChar '<' "&lt;".toList (replaceChar '&' "&amp;".toList s)))

structure FormParams where
  clientId : Text
  redirectUri : Text
  codeChallenge : Text
  state : Text
  deriving DecidableEq, Repr

/-- `GET /auth`: a parameter that is not there is empty. -/
def authForm (url : Text) : FormParams :=
  let param (name : String) := (paramOf (queryParams url) name.toList).getD []
  { clientId := param "client_id", redirectUri := param "redirect_uri"
    codeChallenge := param "code_challenge", state := param "state" }

/-- An attribute of the page, from behind its opening quote. -/
def attributeText (value : Text) : Text := esc value ++ "\">".toList

/-- What a character reference stands for, and its length behind the `&`. -/
def reference (t : Text) : Option (Char × Nat) :=
  if "amp;".toList <+: t then some ('&', 4)
  else if "lt;".toList <+: t then some ('<', 3)
  else if "gt;".toList <+: t then some ('>', 3)
  else if "quot;".toList <+: t then some ('"', 5)
  else none

/-- How a browser reads a double-quoted attribute: up to the first quote, references resolved.
`skip` is what is left of a reference just met. -/
def readAttributeFrom : Nat → Text → Text
  | _, [] => []
  | skip + 1, _ :: t => readAttributeFrom skip t
  | 0, c :: t =>
    if c = '"' then []
    else if c = '&' then
      match reference t with
      | some (d, length) => d :: readAttributeFrom length t
      | none => c :: readAttributeFrom 0 t
    else c :: readAttributeFrom 0 t

def readAttribute (t : Text) : Text := readAttributeFrom 0 t

/-- What the browser posts when the user fills in the page of these parameters. -/
def posted (email password : Text) (p : FormParams) : AuthForm :=
  { email, password
    clientId := readAttribute (attributeText p.clientId)
    redirectUri := readAttribute (attributeText p.redirectUri)
    codeChallenge := readAttribute (attributeText p.codeChallenge)
    state := readAttribute (attributeText p.state) }

/-! The listener. -/

def urldecode (s : Text) : Text := lossyText (percentDecode s)

/-- A line ends before `\n` or `\r\n`. -/
def firstLine (t : Text) : Text :=
  let line := t.takeWhile (· ≠ '\n')
  if '\n' ∈ t ∧ line.getLast? = some '\r' then line.dropLast else line

/-- `read` is what the first read of the connection comes back with. -/
def readRequestTarget (read : List UInt8) : Text :=
  (((firstLine (lossyText read)).splitOn ' ')[1]?).getD []

/-- The code and the state seen so far; a later one wins. -/
def callbackParam (found : Option Text × Option Text) (piece : Text) : Option Text × Option Text :=
  if '=' ∈ piece then
    let name := piece.takeWhile (· ≠ '=')
    let value := (piece.dropWhile (· ≠ '=')).drop 1
    if name = "code".toList then (some (urldecode value), found.2)
    else if name = "state".toList then (found.1, some (urldecode value))
    else found
  else found

def callbackParams (target : Text) : Option Text × Option Text :=
  match (target.splitOn '?')[1]? with
  | some query => (query.splitOn '&').foldl callbackParam (none, none)
  | none => (none, none)

def callbackResult (expectedState target : Text) : Except Text Text :=
  match callbackParams target with
  | (some code, some state) =>
    if state = expectedState then .ok code else .error "callback state mismatch".toList
  | _ => .error "callback missing code".toList

inductive Arrival where
  | request (read : List UInt8)
  | deadline
  | acceptFailed (reason : Text)
  deriving DecidableEq, Repr

/-- No result while the listener still waits. -/
def waitForCode (expectedState : Text) : List Arrival → Option (Except Text Text)
  | [] => none
  | .deadline :: _ => some (.error "login timeout".toList)
  | .acceptFailed reason :: _ => some (.error ("accept failed: ".toList ++ reason))
  | .request read :: rest =>
    let target := readRequestTarget read
    if "/callback".toList <+: target then some (callbackResult expectedState target)
    else waitForCode expectedState rest

/-! The page gives the parameters back. -/

theorem esc_eq (s : Text) : esc s = s.flatMap fun c =>
    if c = '&' then "&amp;".toList else if c = '<' then "&lt;".toList
    else if c = '>' then "&gt;".toList else if c = '"' then "&quot;".toList else [c] := by
  induction s with
  | nil => rfl
  | cons c s ih =>
    rw [List.flatMap_cons, ← ih]
    by_cases hamp : c = '&'
    · subst hamp
      rfl
    by_cases hlt : c = '<'
    · subst hlt
      rfl
    by_cases hgt : c = '>'
    · subst hgt
      rfl
    by_cases hquot : c = '"'
    · subst hquot
      rfl
    simp [esc, replaceChar, hamp, hlt, hgt, hquot]

theorem readAttributeFrom_skip (skipped t : Text) :
    readAttributeFrom skipped.length (skipped ++ t) = readAttributeFrom 0 t := by
  induction skipped with
  | nil => rfl
  | cons c skipped ih => exact ih

theorem readAttribute_reference {name : Text} {d : Char} (h : ∀ t, reference (name ++ t) = some (d, name.length))
    (t : Text) : readAttribute ('&' :: (name ++ t)) = d :: readAttribute t := by
  rw [readAttribute, readAttributeFrom, if_neg (by decide), if_pos rfl, h]
  simp only [readAttributeFrom_skip, readAttribute]

/-- No value ends its attribute early or is read as another one. -/
theorem readAttribute_esc (s rest : Text) : readAttribute (esc s ++ '"' :: rest) = s := by
  rw [esc_eq]
  induction s with
  | nil => rfl
  | cons c s ih =>
    rw [List.flatMap_cons, List.append_assoc]
    split
    · rename_i h
      subst h
      exact (@readAttribute_reference "amp;".toList _ (fun _ => rfl) _).trans (congrArg _ ih)
    split
    · rename_i h
      subst h
      exact (@readAttribute_reference "lt;".toList _ (fun _ => rfl) _).trans (congrArg _ ih)
    split
    · rename_i h
      subst h
      exact (@readAttribute_reference "gt;".toList _ (fun _ => rfl) _).trans (congrArg _ ih)
    split
    · rename_i h
      subst h
      exact (@readAttribute_reference "quot;".toList _ (fun _ => rfl) _).trans (congrArg _ ih)
    · rename_i hamp _ _ hquot
      rw [List.singleton_append, readAttribute, readAttributeFrom, if_neg hquot, if_neg hamp]
      exact congrArg _ ih

theorem posted_eq (email password : Text) (p : FormParams) :
    posted email password p =
      { email, password, clientId := p.clientId, redirectUri := p.redirectUri
        codeChallenge := p.codeChallenge, state := p.state } := by
  have hread (s : Text) : readAttribute (attributeText s) = s := readAttribute_esc s ['>']
  simp only [posted, hread]

/-! The provider reads the parameters of the address. -/

theorem urlencode_alphabet {c : Char} (h : c ∈ base64Alphabet) :
    (String.utf8EncodeChar c).flatMap encodeByte = [c] := by
  have hall : base64Alphabet.all (fun c => (String.utf8EncodeChar c).flatMap encodeByte == [c]) = true := by
    decide
  exact eq_of_beq (List.all_eq_true.mp hall c h)

theorem urlencode_base64 (bytes : List UInt8) : urlencode (base64Encode bytes) = base64Encode bytes := by
  have hall : ∀ t : Text, (∀ c ∈ t, c ∈ base64Alphabet) → urlencode t = t := by
    intro t ht
    induction t with
    | nil => rfl
    | cons c t ih =>
      obtain ⟨hc, ht⟩ := List.forall_mem_cons.mp ht
      rw [urlencode_eq, utf8_cons, List.flatMap_append, urlencode_alphabet hc, ← urlencode_eq, ih ht]
      rfl
  exact hall _ fun c hc => base64Encode_mem hc

/-- A piece of the query with its parameter. -/
def authPieces (a : Attempt) : List (Text × Text) :=
  [("response_type".toList, "code".toList), ("client_id".toList, a.clientId),
    ("redirect_uri".toList, a.redirectUri), ("code_challenge".toList, a.challenge),
    ("code_challenge_method".toList, "S256".toList), ("state".toList, a.state),
    ("scope".toList, "openid profile email".toList)]

def pieceText (p : Text × Text) : Text := p.1 ++ '=' :: urlencode p.2

theorem queryPairs_pieces {pieces : List (Text × Text)} (h : ∀ p ∈ pieces, '&' ∉ p.1 ∧ '=' ∉ p.1) :
    queryPairs (Text.join ['&'] (pieces.map pieceText)) =
      pieces.map fun p => (percentDecode p.1, utf8 p.2) := by
  induction pieces with
  | nil => rfl
  | cons p pieces ih =>
    obtain ⟨⟨hamp, heq⟩, hrest⟩ := List.forall_mem_cons.mp h
    have hsingle : queryPairs (pieceText p) = [(percentDecode p.1, utf8 p.2)] := by
      rw [pieceText, queryPairs_singleton (encodedPiece_amp hamp _) (by simp), queryPair_encoded heq]
    rw [List.map_cons, List.map_cons, Text.join_cons]
    cases pieces with
    | nil => simpa using hsingle
    | cons q pieces =>
      rw [if_neg (by simp), List.singleton_append, queryPairs_append, hsingle, ih hrest]
      rfl

theorem authUrl_eq (a : Attempt) {digest : List UInt8} (hch : a.challenge = base64Encode digest) :
    authUrl a = a.authEp ++ '?' :: Text.join ['&'] ((authPieces a).map pieceText) := by
  have hplain : urlencode a.challenge = a.challenge := hch ▸ urlencode_base64 digest
  have hcode : urlencode "code".toList = "code".toList := by decide
  have hmethod : urlencode "S256".toList = "S256".toList := by decide
  have hfirst : "?response_type=code&client_id=".toList = '?' :: ("response_type".toList ++ '=' ::
    ("code".toList ++ '&' :: ("client_id".toList ++ ['=']))) := rfl
  have huri : "&redirect_uri=".toList = '&' :: ("redirect_uri".toList ++ ['=']) := rfl
  have hchallenge : "&code_challenge=".toList = '&' :: ("code_challenge".toList ++ ['=']) := rfl
  have hstate : "&code_challenge_method=S256&state=".toList = '&' :: ("code_challenge_method".toList ++
    '=' :: ("S256".toList ++ '&' :: ("state".toList ++ ['=']))) := rfl
  have hscope : "&scope=".toList = '&' :: ("scope".toList ++ ['=']) := rfl
  rw [authUrl, hfirst, huri, hchallenge, hstate, hscope, authPieces]
  simp only [List.map_cons, List.map_nil, Text.join, pieceText, hplain, hcode, hmethod, List.append_assoc,
    List.cons_append, List.nil_append]

theorem mem_join {sep : Text} {ts : List Text} {c : Char} (h : c ∈ Text.join sep ts) :
    c ∈ sep ∨ ∃ t ∈ ts, c ∈ t := by
  induction ts with
  | nil => cases h
  | cons t ts ih =>
    rw [Text.join_cons, List.mem_append] at h
    obtain h | h := h
    · exact .inr ⟨t, List.mem_cons_self, h⟩
    split at h
    · cases h
    · obtain h | h := List.mem_append.mp h
      · exact .inl h
      · exact (ih h).imp_right fun ⟨u, hu, hc⟩ => ⟨u, List.mem_cons_of_mem _ hu, hc⟩

theorem fragment_not_mem_pieces {pieces : List (Text × Text)} (h : ∀ p ∈ pieces, '#' ∉ p.1) :
    '#' ∉ Text.join ['&'] (pieces.map pieceText) := by
  intro hmem
  obtain hsep | ⟨t, ht, hc⟩ := mem_join hmem
  · exact absurd hsep (by decide)
  · obtain ⟨p, hp, rfl⟩ := List.mem_map.mp ht
    rw [pieceText, List.mem_append, List.mem_cons] at hc
    obtain hc | hc | hc := hc
    · exact h p hp hc
    · cases hc
    · exact not_mem_urlencode rfl hc

theorem authUrl_params {a : Attempt} {digest : List UInt8} (hch : a.challenge = base64Encode digest)
    (hmark : '?' ∉ a.authEp) (hfragment : '#' ∉ a.authEp) :
    queryParams (authUrl a) = (authPieces a).map fun p => (utf8 p.1, utf8 p.2) := by
  have hquery : '#' ∉ Text.join ['&'] ((authPieces a).map pieceText) :=
    fragment_not_mem_pieces (by simp [authPieces])
  rw [authUrl_eq a hch, queryParams, queryPart_append hmark hfragment hquery, Option.getD_some,
    queryPairs_pieces (by simp [authPieces])]
  rfl

/-- The page the browser gets is made from the parameters of the attempt. -/
theorem authForm_authUrl {a : Attempt} {digest : List UInt8} (hch : a.challenge = base64Encode digest)
    (hmark : '?' ∉ a.authEp) (hfragment : '#' ∉ a.authEp) :
    authForm (authUrl a) =
      { clientId := a.clientId, redirectUri := a.redirectUri, codeChallenge := a.challenge
        state := a.state } := by
  have hparam (name : String) (value : Text)
      (h : ((authPieces a).map fun p => (utf8 p.1, utf8 p.2)).lookup (utf8 name.toList) = some (utf8 value)) :
      paramOf (queryParams (authUrl a)) name.toList = some value :=
    paramOf_eq_some.mpr (by rw [authUrl_params hch hmark hfragment, h])
  have hid := hparam "client_id" a.clientId rfl
  have huri := hparam "redirect_uri" a.redirectUri rfl
  have hchallenge := hparam "code_challenge" a.challenge rfl
  have hstate := hparam "state" a.state rfl
  simp only [authForm, hid, huri, hchallenge, hstate, Option.getD_some]

/-! The listener takes the code out of the redirect. -/

theorem urldecode_urlencode (s : Text) : urldecode (urlencode s) = s := by
  rw [urldecode, percentDecode_encoded, lossyText_utf8]

theorem callbackParam_code (found : Option Text × Option Text) (code : Text) :
    callbackParam found (codePiece code) = (some code, found.2) := by
  have hname : '=' ∉ codeName := by decide
  rw [callbackParam, codePiece, if_pos (by simp), takeWhile_ne_append hname, dropWhile_ne_append hname]
  simp only [List.drop_one, List.tail_cons, urldecode_urlencode]
  rfl

theorem callbackParam_state (found : Option Text × Option Text) (state : Text) :
    callbackParam found (stateName ++ '=' :: urlencode state) = (found.1, some state) := by
  have hname : '=' ∉ stateName := by decide
  rw [callbackParam, if_pos (by simp), takeWhile_ne_append hname, dropWhile_ne_append hname]
  simp only [List.drop_one, List.tail_cons, urldecode_urlencode]
  rfl

theorem callbackParams_redirect {f : AuthForm} {path code : Text} (hpath : '?' ∉ path)
    (hstate : f.state ≠ []) :
    callbackParams (path ++ '?' :: codeQuery f code) = (some code, some f.state) := by
  have hlit : "&state=".toList = '&' :: (stateName ++ ['=']) := rfl
  have hsuffix : stateSuffix f = '&' :: (stateName ++ '=' :: urlencode f.state) := by
    rw [stateSuffix, if_neg (by simpa using hstate), hlit, List.cons_append, List.append_assoc,
      List.singleton_append]
  have hquery : '?' ∉ codeQuery f code := by
    intro h
    obtain h | h | h := mem_codeQuery h
    · cases h
    · cases h
    · cases h
  have hamp : '&' ∉ codePiece code := encodedPiece_amp (by decide) _
  have hamp' : '&' ∉ stateName ++ '=' :: urlencode f.state := encodedPiece_amp (by decide) _
  rw [callbackParams, List.splitOn_append_cons_self_of_not_mem hpath, List.splitOn_eq_singleton hquery]
  simp only [List.getElem?_cons_succ, List.getElem?_cons_zero]
  rw [codeQuery, hsuffix, List.splitOn_append_cons_self_of_not_mem hamp, List.splitOn_eq_singleton hamp']
  simp only [List.foldl_cons, List.foldl_nil, callbackParam_code, callbackParam_state]

/-- What the browser sends to the listener when it follows a redirect to a path there. -/
def browserRequest (target more : Text) : List UInt8 :=
  utf8 ("GET ".toList ++ target ++ " HTTP/1.1\r\n".toList ++ more)

theorem firstLine_crlf {line : Text} (h : '\n' ∉ line) (more : Text) :
    firstLine (line ++ '\r' :: '\n' :: more) = line := by
  have hsplit : line ++ '\r' :: '\n' :: more = (line ++ ['\r']) ++ '\n' :: more := by simp
  have hline : '\n' ∉ line ++ ['\r'] := by simp [h]
  rw [firstLine, hsplit, takeWhile_ne_append hline]
  simp

theorem readRequestTarget_browser {target : Text} (hspace : ' ' ∉ target) (hline : '\n' ∉ target)
    (more : Text) : readRequestTarget (browserRequest target more) = target := by
  have hrequest : "GET ".toList ++ target ++ " HTTP/1.1\r\n".toList ++ more =
      ("GET".toList ++ ' ' :: (target ++ ' ' :: "HTTP/1.1".toList)) ++ '\r' :: '\n' :: more := by
    have hget : "GET ".toList = "GET".toList ++ [' '] := rfl
    have hversion : " HTTP/1.1\r\n".toList = ' ' :: ("HTTP/1.1".toList ++ ['\r', '\n']) := rfl
    rw [hget, hversion]
    simp only [List.append_assoc, List.cons_append, List.nil_append]
  have hfirst : '\n' ∉ "GET".toList ++ ' ' :: (target ++ ' ' :: "HTTP/1.1".toList) := by
    simp [hline]
  rw [readRequestTarget, browserRequest, lossyText_utf8, hrequest, firstLine_crlf hfirst,
    List.splitOn_append_cons_self_of_not_mem (by decide), List.splitOn_append_cons_self_of_not_mem hspace]
  rfl

/-- Requests to other paths. -/
def Elsewhere (a : Arrival) : Prop :=
  ∃ read, a = .request read ∧ ¬ "/callback".toList <+: readRequestTarget read

theorem waitForCode_elsewhere {expected : Text} {before : List Arrival} (h : ∀ a ∈ before, Elsewhere a)
    (rest : List Arrival) : waitForCode expected (before ++ rest) = waitForCode expected rest := by
  induction before with
  | nil => rfl
  | cons a before ih =>
    obtain ⟨⟨read, rfl, hread⟩, hbefore⟩ := List.forall_mem_cons.mp h
    rw [List.cons_append, waitForCode, if_neg hread]
    exact ih hbefore

/-- The listener passes over other requests and takes the code of its own login. -/
theorem waitForCode_redirect {f : AuthForm} {path code more : Text} {before rest : List Arrival}
    (hbefore : ∀ a ∈ before, Elsewhere a) (hcallback : "/callback".toList <+: path)
    (hpath : ∀ c ∈ path, c ≠ '?' ∧ c ≠ ' ' ∧ c ≠ '\n') (hstate : f.state ≠ []) :
    waitForCode f.state
        (before ++ .request (browserRequest (path ++ '?' :: codeQuery f code) more) :: rest) =
      some (.ok code) := by
  have hplain (c : Char) (hreserved : urlSafe c = false) (hequals : c ≠ '=') (hamp : c ≠ '&')
      (hmark : c ≠ '?') (hc : c ∉ path) : c ∉ path ++ '?' :: codeQuery f code := by
    intro hmem
    rw [List.mem_append, List.mem_cons] at hmem
    obtain hmem | hmem | hmem := hmem
    · exact hc hmem
    · exact hmark hmem
    · obtain h | h | h := mem_codeQuery hmem
      · exact hequals h
      · exact hamp h
      · rw [hreserved] at h
        cases h
  have hspace : ' ' ∉ path ++ '?' :: codeQuery f code :=
    hplain ' ' (by decide) (by decide) (by decide) (by decide) fun hc => (hpath _ hc).2.1 rfl
  have hline : '\n' ∉ path ++ '?' :: codeQuery f code :=
    hplain '\n' (by decide) (by decide) (by decide) (by decide) fun hc => (hpath _ hc).2.2 rfl
  have hmark : '?' ∉ path := fun hc => (hpath _ hc).1 rfl
  have hstarts : "/callback".toList <+: path ++ '?' :: codeQuery f code :=
    hcallback.trans (List.prefix_append _ _)
  rw [waitForCode_elsewhere hbefore, waitForCode, readRequestTarget_browser hspace hline]
  simp only [if_pos hstarts, callbackResult, callbackParams_redirect hmark hstate, if_true]

end Onisin.Iam
