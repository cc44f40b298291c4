import Onisin.Iam.AuthCode
import Onisin.Lib.Url

/-!
The redirect that a login ends in. Its target is the submitted redirect URI with the code and the
state put behind it; it has to be a header value, and the client reads it as a URL.
-/

set_option autoImplicit false

namespace Onisin.Iam
open Lib

/-- The bytes that the HTTP library takes as the value of a header: everything from the space on
except DEL, and the tab. -/
def DocumentedHeaderValue (headerValue : List UInt8 → Bool) : Prop :=
  ∀ v, headerValue v = true ↔ ∀ b ∈ v, b.toNat = 9 ∨ 32 ≤ b.toNat ∧ b.toNat ≠ 127

inductive Outcome where
  | answer (r : Response)
  | panic
  deriving DecidableEq, Repr

/-- The response builder fails on a header value that is not accepted, and its `expect` panics. -/
def respond (headerValue : List UInt8 → Bool) (location : Text) : Outcome :=
  if headerValue (utf8 location) then .answer (.redirect location) else .panic

def authSubmit (headerValue : List UInt8 → Bool) (f : AuthForm) (login : LoginResult)
    (bytes : Fin 16 → UInt8) : Outcome :=
  match login with
  | .found _ => respond headerValue (redirectTarget f (newCode bytes))
  | .rejected => .answer (renderForm f loginError)
  | .lookupFailed => .answer (renderForm f loginError)

/-- The handler in one go answers as it does in the server, where others may run in between. -/
theorem authSubmit_replies {headerValue : List UInt8 → Bool} {f : AuthForm} {login : LoginResult}
    {bytes : Fin 16 → UInt8} {r : Response} (h : authSubmit headerValue f login bytes = .answer r)
    (s : Server) :
    ((s.authSubmit f login).insertCode s.submitting.length bytes).replies = s.replies ++ [r] := by
  cases login with
  | found user =>
    simp only [authSubmit, respond] at h
    split at h
    · cases h
      simp [Server.authSubmit, Server.insertCode, Server.reply]
    · cases h
  | rejected =>
    cases h
    simp [Server.authSubmit, Server.insertCode, Server.reply]
  | lookupFailed =>
    cases h
    simp [Server.authSubmit, Server.insertCode, Server.reply]

/-! What a login should end in. -/

def codeName : Text := "code".toList

def stateName : Text := "state".toList

/-- The client finds its own parameters, the code and the state in the URL. -/
structure CarriesLogin (f : AuthForm) (code : Text) (url : Url) : Prop where
  own : ∀ own, parseUrl f.redirectUri = some own → own.params.Sublist url.params
  code : paramOf url.params codeName = some code
  state : f.state ≠ [] → paramOf url.params stateName = some f.state

def UsableRedirect (f : AuthForm) (code location : Text) : Prop :=
  ∃ url, parseUrl location = some url ∧ CarriesLogin f code url

def Usable (f : AuthForm) (code : Text) : Outcome → Prop
  | .answer (.redirect location) => UsableRedirect f code location
  | .answer .missingParameters => True
  | .answer (.loginForm _) => True
  | .answer (.error ..) => False
  | .answer (.token ..) => False
  | .panic => False

def HeaderChar (c : Char) : Prop := c.toNat = 9 ∨ 32 ≤ c.toNat ∧ c.toNat ≠ 127

instance (c : Char) : Decidable (HeaderChar c) := inferInstanceAs (Decidable (_ ∨ _))

/-- A URL with neither a query nor a fragment. -/
def PlainTarget (redirectUri : Text) : Prop :=
  ∃ url, parseUrl redirectUri = some url ∧ url.query = none ∧ url.fragment = none

/-! The encoded parts. -/

def encodeByte (b : UInt8) : Text :=
  if isUnreserved b then [Char.ofNat b.toNat] else ['%'] ++ hexByte "0123456789ABCDEF".toList b

theorem urlencode_eq (s : Text) : urlencode s = (utf8 s).flatMap encodeByte := rfl

/-- The characters of an encoded text. -/
def urlSafe (c : Char) : Bool := c == '%' || (c.toNat < 128 && isUnreserved (UInt8.ofNat c.toNat))

variable {headerValue : List UInt8 → Bool} {f : AuthForm} {code s t : Text} {c d : Char} {b : UInt8}

theorem lt_of_unreserved (h : isUnreserved b = true) : 33 ≤ b.toNat ∧ b.toNat < 127 := by
  simp only [isUnreserved, Bool.or_eq_true, Bool.and_eq_true, decide_eq_true_eq, beq_iff_eq] at h
  omega

theorem toNat_ofNat_byte (h : b.toNat < 128) : (Char.ofNat b.toNat).toNat = b.toNat := by
  have hvalid : b.toNat.isValidChar := Or.inl (by omega)
  rw [Char.ofNat, dif_pos hvalid]
  exact BitVec.toNat_ofNatLT _ _

theorem urlSafe_of_unreserved (h : isUnreserved b = true) : urlSafe (Char.ofNat b.toNat) = true := by
  obtain ⟨-, hlt⟩ := lt_of_unreserved h
  rw [urlSafe, toNat_ofNat_byte (by omega), UInt8.ofNat_toNat, h, Bool.and_true, Bool.or_eq_true,
    decide_eq_true_eq]
  exact .inr (by omega)

theorem hexDigits_safe : ∀ n < 16, urlSafe ("0123456789ABCDEF".toList.getD n '0') = true := by decide

theorem hexDigits_value :
    ∀ n < 16, hexValue ("0123456789ABCDEF".toList.getD n '0') = some n := by decide

theorem mem_urlencode (h : c ∈ urlencode s) : urlSafe c = true := by
  rw [urlencode_eq] at h
  obtain ⟨b, -, hb⟩ := List.mem_flatMap.mp h
  have hlt := b.toNat_lt
  rw [encodeByte] at hb
  split at hb
  · next hun =>
    rw [List.mem_singleton.mp hb]
    exact urlSafe_of_unreserved hun
  · rw [hexByte, List.singleton_append, List.mem_cons, List.mem_cons, List.mem_singleton] at hb
    obtain rfl | rfl | rfl := hb
    · rfl
    · exact hexDigits_safe _ (by omega)
    · exact hexDigits_safe _ (by omega)

theorem urlSafe_ne (hc : urlSafe c = true) (hd : urlSafe d = false) : c ≠ d := by
  rintro rfl
  rw [hc] at hd
  cases hd

theorem urlSafe_visible (h : urlSafe c = true) : 33 ≤ c.toNat ∧ c.toNat < 127 := by
  rw [urlSafe, Bool.or_eq_true, beq_iff_eq, Bool.and_eq_true, decide_eq_true_eq] at h
  obtain rfl | ⟨hlt, hun⟩ := h
  · decide
  · have hbyte := lt_of_unreserved hun
    rwa [UInt8.toNat_ofNat', Nat.mod_eq_of_lt (by omega)] at hbyte

theorem not_mem_urlencode (hd : urlSafe d = false) : d ∉ urlencode s :=
  fun h => urlSafe_ne (mem_urlencode h) hd rfl

theorem percentDecode_encodeByte : percentDecode (encodeByte b ++ t) = b :: percentDecode t := by
  rw [encodeByte]
  split
  · next hun =>
    obtain ⟨-, hlt⟩ := lt_of_unreserved hun
    have hsafe := urlSafe_of_unreserved hun
    have hchar := toNat_ofNat_byte (b := b) (by omega)
    have hpercent : Char.ofNat b.toNat ≠ '%' := by
      intro he
      rw [he] at hchar
      rw [isUnreserved, ← hchar] at hun
      revert hun
      decide
    rw [List.singleton_append, percentDecode_plain (urlSafe_ne hsafe rfl) hpercent,
      utf8EncodeChar_ascii (by omega), hchar, UInt8.ofNat_toNat]
    rfl
  · have hlt := b.toNat_lt
    rw [hexByte, List.append_assoc, List.singleton_append, List.cons_append, List.cons_append,
      List.nil_append,
      percentDecode_escape (hexDigits_value _ (by omega)) (hexDigits_value _ (by omega)),
      Nat.div_add_mod, UInt8.ofNat_toNat]

/-- What was encoded is read back, whatever comes behind it. -/
theorem percentDecode_urlencode : percentDecode (urlencode s ++ t) = utf8 s ++ percentDecode t := by
  rw [urlencode_eq]
  induction utf8 s with
  | nil => rfl
  | cons b bytes ih =>
    rw [List.flatMap_cons, List.append_assoc, percentDecode_encodeByte, ih, List.cons_append]

theorem percentDecode_encoded : percentDecode (urlencode s) = utf8 s := by
  have h := percentDecode_urlencode (s := s) (t := [])
  rwa [List.append_nil, show percentDecode [] = [] from rfl, List.append_nil] at h

/-! The target as a header value. -/

theorem headerValue_utf8 (hlib : DocumentedHeaderValue headerValue) :
    headerValue (utf8 t) = true ↔ ∀ c ∈ t, HeaderChar c := by
  rw [hlib]
  constructor
  · intro h c hc
    by_cases hascii : c.toNat < 128
    · have hb := h (UInt8.ofNat c.toNat) (List.mem_flatMap.mpr ⟨c, hc, by
        rw [utf8EncodeChar_ascii hascii]
        exact List.mem_cons_self⟩)
      rwa [UInt8.toNat_ofNat', Nat.mod_eq_of_lt (by omega)] at hb
    · exact .inr (by omega)
  · intro h b hb
    obtain ⟨c, hc, hb⟩ := List.mem_flatMap.mp hb
    by_cases hascii : c.toNat < 128
    · rw [utf8EncodeChar_ascii hascii, List.mem_singleton] at hb
      rw [hb, UInt8.toNat_ofNat', Nat.mod_eq_of_lt (by omega)]
      exact h c hc
    · have hhigh := le_of_mem_utf8EncodeChar (by omega) hb
      exact .inr (by omega)

/-! The query of the target. -/

def stateSuffix (f : AuthForm) : Text :=
  if f.state.isEmpty then [] else "&state=".toList ++ urlencode f.state

def codePiece (code : Text) : Text := codeName ++ '=' :: urlencode code

def codeQuery (f : AuthForm) (code : Text) : Text := codePiece code ++ stateSuffix f

theorem redirectTarget_eq (f : AuthForm) (code : Text) :
    redirectTarget f code = f.redirectUri ++ '?' :: codeQuery f code := by
  have hlit : "?code=".toList = '?' :: (codeName ++ ['=']) := rfl
  rw [redirectTarget, codeQuery, codePiece, stateSuffix, hlit]
  simp only [List.append_assoc, List.cons_append, List.nil_append]

/-- What the state adds to the parameters. -/
def statePairs (f : AuthForm) : List (List UInt8 × List UInt8) :=
  if f.state.isEmpty then [] else [(utf8 stateName, utf8 f.state)]

theorem encodedPiece_amp {name : Text} (hname : '&' ∉ name) (s : Text) :
    '&' ∉ name ++ '=' :: urlencode s := by
  rw [List.mem_append, List.mem_cons]
  rintro (h | h | h)
  · exact hname h
  · cases h
  · exact not_mem_urlencode rfl h

theorem queryPair_encoded {name : Text} (hname : '=' ∉ name) (s : Text) :
    queryPair (name ++ '=' :: urlencode s) = (percentDecode name, utf8 s) := by
  rw [queryPair_eq hname, percentDecode_encoded]

theorem queryPairs_stateSuffix {piece : Text} (hpiece : '&' ∉ piece) (hne : piece ≠ []) :
    queryPairs (piece ++ stateSuffix f) = queryPair piece :: statePairs f := by
  have hlit : "&state=".toList = '&' :: (stateName ++ ['=']) := rfl
  rw [stateSuffix, statePairs]
  split
  · rw [List.append_nil, queryPairs_singleton hpiece hne]
  · have hstate : '&' ∉ stateName ++ '=' :: urlencode f.state := encodedPiece_amp (by decide) _
    have hne' : stateName ++ '=' :: urlencode f.state ≠ [] :=
      List.append_ne_nil_of_left_ne_nil (by decide) _
    rw [hlit, List.cons_append, List.append_assoc, List.singleton_append, queryPairs_append,
      queryPairs_singleton hpiece hne, queryPairs_singleton hstate hne', queryPair_encoded (by decide)]
    rfl

theorem queryPairs_codeQuery (f : AuthForm) (code : Text) :
    queryPairs (codeQuery f code) = (utf8 codeName, utf8 code) :: statePairs f := by
  rw [codeQuery, codePiece, queryPairs_stateSuffix (encodedPiece_amp (by decide) _)
    (List.append_ne_nil_of_left_ne_nil (by decide) _), queryPair_encoded (by decide)]
  rfl

theorem mem_codeQuery (h : c ∈ codeQuery f code) : c = '=' ∨ c = '&' ∨ urlSafe c = true := by
  have hcode : ∀ c ∈ codeName, urlSafe c = true := List.all_eq_true.mp (by decide)
  have hstate : ∀ c ∈ stateName, urlSafe c = true := List.all_eq_true.mp (by decide)
  have hlit : "&state=".toList = '&' :: (stateName ++ ['=']) := rfl
  rw [codeQuery, codePiece, stateSuffix, List.mem_append, List.mem_append, List.mem_cons] at h
  obtain (h | h | h) | h := h
  · exact .inr (.inr (hcode c h))
  · exact .inl h
  · exact .inr (.inr (mem_urlencode h))
  · split at h
    · cases h
    · rw [hlit, List.mem_append, List.mem_cons, List.mem_append, List.mem_singleton] at h
      obtain (h | h | h) | h := h
      · exact .inr (.inl h)
      · exact .inr (.inr (hstate c h))
      · exact .inl h
      · exact .inr (.inr (mem_urlencode h))

/-- The part put behind the redirect URI has neither a fragment nor anything that a header cannot
hold. -/
theorem codeQuery_plain (h : c ∈ codeQuery f code) : c ≠ '#' ∧ HeaderChar c := by
  obtain rfl | rfl | hsafe := mem_codeQuery h
  · exact ⟨by decide, .inr (by decide)⟩
  · exact ⟨by decide, .inr (by decide)⟩
  · obtain ⟨hlow, hhigh⟩ := urlSafe_visible hsafe
    exact ⟨urlSafe_ne hsafe rfl, .inr (by omega)⟩

theorem headerValue_target (hlib : DocumentedHeaderValue headerValue) :
    headerValue (utf8 (redirectTarget f code)) = true ↔ ∀ c ∈ f.redirectUri, HeaderChar c := by
  rw [headerValue_utf8 hlib, redirectTarget_eq]
  constructor
  · exact fun h c hc => h c (List.mem_append_left _ hc)
  · intro h c hc
    obtain hc | hc := List.mem_append.mp hc
    · exact h c hc
    · obtain rfl | hc := List.mem_cons.mp hc
      · exact .inr (by decide)
      · exact (codeQuery_plain hc).2

theorem encodeByte_isEncoded : isEncoded isQueryChar (encodeByte b) = true := by
  have hall : ∀ n < 256, isEncoded isQueryChar (encodeByte (UInt8.ofNat n)) = true := by decide +kernel
  have hb := hall b.toNat b.toNat_lt
  rwa [UInt8.ofNat_toNat] at hb

theorem urlencode_isEncoded (s : Text) : isEncoded isQueryChar (urlencode s) = true := by
  rw [urlencode_eq]
  induction utf8 s with
  | nil => rfl
  | cons b bytes ih => rw [List.flatMap_cons, isEncoded_append encodeByte_isEncoded, ih]

theorem encodedPiece_isEncoded {name : Text} (hname : name.all isQueryChar = true) (s : Text) :
    isEncoded isQueryChar (name ++ '=' :: urlencode s) = true := by
  rw [isEncoded_append (isEncoded_of_all (by decide) hname), isEncoded_plain (by decide), urlencode_isEncoded]
  rfl

theorem codeQuery_isEncoded (f : AuthForm) (code : Text) : isEncoded isQueryChar (codeQuery f code) = true := by
  have hlit : "&state=".toList = '&' :: (stateName ++ ['=']) := rfl
  rw [codeQuery, codePiece, isEncoded_append (encodedPiece_isEncoded (by decide) code), stateSuffix]
  split
  · rfl
  · rw [hlit, List.cons_append, List.append_assoc, List.singleton_append, isEncoded_plain (by decide),
      encodedPiece_isEncoded (by decide)]
    rfl

theorem lookup_statePairs_code (f : AuthForm) : (statePairs f).lookup (utf8 codeName) = none := by
  rw [statePairs]
  split
  · rfl
  · have hne : (utf8 codeName == utf8 stateName) = false := by decide
    rw [List.lookup_cons, hne]
    rfl

theorem paramOf_eq_some {params : List (List UInt8 × List UInt8)} {name value : Text} :
    paramOf params name = some value ↔ params.lookup (utf8 name) = some (utf8 value) := by
  rw [paramOf, Option.bind_eq_some_iff]
  constructor
  · rintro ⟨bytes, hlookup, hbytes⟩
    rw [hlookup, fromUtf8_eq_some.mp hbytes]
  · exact fun h => ⟨_, h, fromUtf8_utf8 value⟩

/-! Where it works. -/

theorem usable_of_plain (h : PlainTarget f.redirectUri) : UsableRedirect f code (redirectTarget f code) := by
  obtain ⟨place, hurl, hquery, hfragment⟩ := h
  obtain ⟨hplace, hmark, hhash⟩ := parseUrl_place.mp ⟨hurl, hquery, hfragment⟩
  have hhash' : '#' ∉ codeQuery f code := fun h => (codeQuery_plain h).1 rfl
  have hparams : queryPairs (codeQuery f code) = (utf8 codeName, utf8 code) :: statePairs f :=
    queryPairs_codeQuery f code
  refine ⟨{ place with query := some (codeQuery f code) }, ?_, ?_, ?_, fun hstate => ?_⟩
  · rw [redirectTarget_eq]
    exact (parseUrl_append hmark hhash hhash').mpr ⟨place, hplace, codeQuery_isEncoded f code, rfl⟩
  · intro own hown
    obtain rfl := Option.some.inj (hurl.symm.trans hown)
    rw [Url.params, hquery]
    exact List.nil_sublist _
  · rw [paramOf_eq_some, Url.params, Option.getD_some, hparams, List.lookup_cons_self]
  · have hne : (utf8 stateName == utf8 codeName) = false := by decide
    have hempty : f.state.isEmpty = false := by simp [hstate]
    rw [paramOf_eq_some, Url.params, Option.getD_some, hparams, List.lookup_cons, hne, statePairs, hempty]
    exact List.lookup_cons_self

/-- A URL of its own may stand in a header. -/
theorem plainTarget_header (h : PlainTarget f.redirectUri) : ∀ c ∈ f.redirectUri, HeaderChar c := by
  obtain ⟨place, hplace⟩ := h
  obtain ⟨hchars, -, -⟩ := parsePlace_some (parseUrl_place.mp hplace).1
  intro c hc
  obtain ⟨hlow, hhigh⟩ := isUrlChar_visible (List.all_eq_true.mp hchars c hc)
  exact .inr ⟨by omega, by omega⟩

/-! Where it does not. -/

/-- No single value is every code. -/
theorem exists_other_code (v : Option (List UInt8)) : ∃ bytes, v ≠ some (utf8 (newCode bytes)) := by
  by_cases h : v = some (utf8 (newCode fun _ => 0))
  · refine ⟨fun _ => 1, ?_⟩
    rw [h]
    decide
  · exact ⟨_, h⟩

theorem mark_not_mem_code (bytes : Fin 16 → UInt8) : 63 ∉ utf8 (newCode bytes) := by
  have hdigit : ∀ n < 16, urlSafe ("0123456789abcdef".toList.getD n '0') = true := by decide
  have hsafe : ∀ c ∈ newCode bytes, urlSafe c = true := by
    intro c hc
    obtain ⟨b, -, hb⟩ := List.mem_flatMap.mp hc
    have hlt := b.toNat_lt
    rw [hexByte, List.mem_cons, List.mem_singleton] at hb
    obtain rfl | rfl := hb
    · exact hdigit _ (by omega)
    · exact hdigit _ (by omega)
  have hascii : ∀ c ∈ newCode bytes, c.toNat < 128 := fun c hc => by
    have hvisible := urlSafe_visible (hsafe c hc)
    omega
  intro h
  obtain ⟨c, hc, hmark⟩ := mem_utf8_of_ascii hascii h
  have hc' : c = '?' := Char.toNat_inj.mp hmark.symm
  exact urlSafe_ne (hsafe c hc) rfl hc'

/-- Behind a fragment the code belongs to the fragment. -/
theorem code_lost_in_fragment (h : '#' ∈ f.redirectUri) : ∃ bytes,
    paramOf (queryParams (redirectTarget f (newCode bytes))) codeName ≠ some (newCode bytes) := by
  obtain ⟨bytes, hbytes⟩ := exists_other_code ((queryParams f.redirectUri).lookup (utf8 codeName))
  refine ⟨bytes, fun hcode => hbytes ?_⟩
  rwa [paramOf_eq_some, queryParams, redirectTarget_eq, queryPart_fragment h] at hcode

/-- Behind a query the code belongs to the query's last parameter. -/
theorem code_lost_in_query (hfragment : '#' ∉ f.redirectUri) (hmark : '?' ∈ f.redirectUri) :
    ∃ bytes, paramOf (queryParams (redirectTarget f (newCode bytes))) codeName ≠ some (newCode bytes) := by
  obtain ⟨place, query, huri, hplace⟩ := List.eq_append_cons_of_mem hmark
  have hno : '#' ∉ place ∧ '#' ∉ query := by
    rw [huri, List.mem_append, List.mem_cons] at hfragment
    exact ⟨fun h => hfragment (.inl h), fun h => hfragment (.inr (.inr h))⟩
  obtain ⟨own, last, hlast, hextend⟩ := queryPairs_extend query
  obtain ⟨bytes, hbytes⟩ := exists_other_code (own.lookup (utf8 codeName))
  refine ⟨bytes, fun hcode => ?_⟩
  -- the last piece of the query runs on up to the state
  have hamp : '&' ∉ last ++ '?' :: codePiece (newCode bytes) := by
    rw [List.mem_append, List.mem_cons]
    rintro (h | h | h)
    · exact hlast h
    · cases h
    · exact encodedPiece_amp (by decide) _ h
  have hne : last ++ '?' :: codePiece (newCode bytes) ≠ [] :=
    List.append_ne_nil_of_right_ne_nil _ (List.cons_ne_nil _ _)
  have hparams : queryParams (redirectTarget f (newCode bytes)) =
      own ++ queryPair (last ++ '?' :: codePiece (newCode bytes)) :: statePairs f := by
    have hrest : '#' ∉ query ++ '?' :: codeQuery f (newCode bytes) := by
      rw [List.mem_append, List.mem_cons]
      rintro (h | h | h)
      · exact hno.2 h
      · cases h
      · exact (codeQuery_plain h).1 rfl
    rw [queryParams, redirectTarget_eq, huri, List.append_assoc, List.cons_append,
      queryPart_append hplace hno.1 hrest, Option.getD_some, hextend, codeQuery, ← List.cons_append,
      ← List.append_assoc, queryPairs_stateSuffix hamp hne]
  rw [paramOf_eq_some, hparams, List.lookup_append] at hcode
  cases hown : own.lookup (utf8 codeName) with
  | some v =>
    rw [hown, Option.some_or] at hcode
    exact hbytes (hown.trans hcode)
  | none =>
    have hmark' : '?' ∈ last ++ '?' :: codePiece (newCode bytes) :=
      List.mem_append_right _ List.mem_cons_self
    have hin := mem_queryPair (by decide) (by decide) (by decide) (by decide) hmark'
    generalize queryPair (last ++ '?' :: codePiece (newCode bytes)) = pair at hin hcode
    rw [hown, Option.none_or, List.lookup_cons, lookup_statePairs_code] at hcode
    split at hcode
    · next hname =>
      rw [← eq_of_beq hname, Option.some.inj hcode] at hin
      have hbyte : (63 : UInt8) ∈ String.utf8EncodeChar '?' := by decide
      obtain hin | hin := hin
      · exact absurd (hin hbyte) (by decide)
      · exact mark_not_mem_code bytes (hin hbyte)
    · cases hcode

/-- A target that carries every code is the redirect URI with its query. -/
theorem plain_of_usable (h : ∀ bytes, UsableRedirect f (newCode bytes) (redirectTarget f (newCode bytes))) :
    PlainTarget f.redirectUri := by
  have hcode : ∀ bytes,
      paramOf (queryParams (redirectTarget f (newCode bytes))) codeName = some (newCode bytes) := by
    intro bytes
    obtain ⟨url, hurl, hcarries⟩ := h bytes
    rw [← parseUrl_params hurl]
    exact hcarries.code
  have hhash : '#' ∉ f.redirectUri := fun hin => by
    obtain ⟨bytes, hbytes⟩ := code_lost_in_fragment hin
    exact hbytes (hcode bytes)
  have hmark : '?' ∉ f.redirectUri := fun hin => by
    obtain ⟨bytes, hbytes⟩ := code_lost_in_query hhash hin
    exact hbytes (hcode bytes)
  obtain ⟨url, hurl, -⟩ := h fun _ => 0
  rw [redirectTarget_eq] at hurl
  have hhash' : '#' ∉ codeQuery f (newCode fun _ => 0) := fun h => (codeQuery_plain h).1 rfl
  obtain ⟨place, hplace, -⟩ := (parseUrl_append hmark hhash hhash').mp hurl
  exact ⟨place, parseUrl_place.mpr ⟨hplace, hmark, hhash⟩⟩

/-- A login ends in a usable redirect, whatever code is drawn, exactly if the redirect URI is a URL
with neither a query nor a fragment. -/
theorem login_redirect_usable_iff (headerValue : List UInt8 → Bool)
    (hlib : DocumentedHeaderValue headerValue) (f : AuthForm) :
    (∀ user bytes, Usable f (newCode bytes) (authSubmit headerValue f (.found user) bytes)) ↔
      PlainTarget f.redirectUri := by
  constructor
  · intro h
    refine plain_of_usable fun bytes => ?_
    have hbytes := h ⟨[], [], []⟩ bytes
    rw [authSubmit, respond] at hbytes
    split at hbytes
    · exact hbytes
    · exact hbytes.elim
  · intro hplain user bytes
    have hvalue : headerValue (utf8 (redirectTarget f (newCode bytes))) = true :=
      (headerValue_target hlib).mpr (plainTarget_header hplain)
    rw [authSubmit, respond, if_pos hvalue]
    exact usable_of_plain hplain

/-! Redirect URIs of a client on the same machine. -/

def headerValueBytes (v : List UInt8) : Bool :=
  v.all fun b => b.toNat == 9 || (decide (32 ≤ b.toNat) && b.toNat != 127)

theorem headerValueBytes_documented : DocumentedHeaderValue headerValueBytes := by
  intro v
  simp [headerValueBytes]

def localUser : TokenSubject := ⟨"frank@demo".toList, "frank".toList, []⟩

def localForm (redirectUri : Text) : AuthForm :=
  ⟨"frank@demo".toList, "secret".toList, "oos".toList, redirectUri, "challenge".toList, "a b&c".toList⟩

def localUri : Text := "http://localhost:1420".toList

theorem localUri_plain : PlainTarget localUri :=
  ⟨⟨"http".toList, some ⟨none, "localhost".toList, some "1420".toList⟩, [], none, none⟩, by decide +kernel,
    rfl, rfl⟩

theorem local_redirect_usable :
    Usable (localForm localUri) (newCode fun _ => 7)
      (authSubmit headerValueBytes (localForm localUri) (.found localUser) fun _ => 7) :=
  (login_redirect_usable_iff headerValueBytes headerValueBytes_documented (localForm localUri)).mpr
    localUri_plain localUser fun _ => 7

def brokenUri : Text := localUri ++ ['\n']

def queryUri : Text := localUri ++ "?a=1".toList

def fragmentUri : Text := localUri ++ ['#', 'a']

def badPortUri : Text := "http://localhost:port".toList

/-- A target without the code is of no use. -/
theorem not_usable_of_lookup {f : AuthForm} {user : TokenSubject} {bytes : Fin 16 → UInt8}
    {headerValue : List UInt8 → Bool}
    (hvalue : headerValue (utf8 (redirectTarget f (newCode bytes))) = true)
    (hnone : (queryParams (redirectTarget f (newCode bytes))).lookup (utf8 codeName) = none) :
    ¬ Usable f (newCode bytes) (authSubmit headerValue f (.found user) bytes) := by
  intro husable
  rw [authSubmit, respond, if_pos hvalue] at husable
  obtain ⟨url, hurl, hcarries⟩ := husable
  have hcode := hcarries.code
  rw [parseUrl_params hurl, paramOf_eq_some, hnone] at hcode
  cases hcode

/-- Nor is one that is no URL. -/
theorem not_usable_of_no_url {f : AuthForm} {user : TokenSubject} {bytes : Fin 16 → UInt8}
    {headerValue : List UInt8 → Bool}
    (hvalue : headerValue (utf8 (redirectTarget f (newCode bytes))) = true)
    (hnone : parseUrl (redirectTarget f (newCode bytes)) = none) :
    ¬ Usable f (newCode bytes) (authSubmit headerValue f (.found user) bytes) := by
  intro husable
  rw [authSubmit, respond, if_pos hvalue] at husable
  obtain ⟨url, hurl, -⟩ := husable
  rw [hnone] at hurl
  cases hurl

/-- A line break panics, a query or a fragment of the client's own takes the code in, and with no
redirect URI or with a port that is none the target is no URL. -/
theorem local_redirect_unusable :
    authSubmit headerValueBytes (localForm brokenUri) (.found localUser) (fun _ => 7) = .panic ∧
    ∀ uri ∈ [queryUri, fragmentUri, [], badPortUri], ¬ Usable (localForm uri) (newCode fun _ => 7)
      (authSubmit headerValueBytes (localForm uri) (.found localUser) fun _ => 7) := by
  refine ⟨by decide, ?_⟩
  simp only [List.forall_mem_cons, List.not_mem_nil, false_imp_iff, implies_true, and_true]
  refine ⟨?_, ?_, ?_, ?_⟩
  · exact not_usable_of_lookup (by decide) (by decide)
  · exact not_usable_of_lookup (by decide) (by decide)
  · exact not_usable_of_no_url (by decide) (by decide +kernel)
  · exact not_usable_of_no_url (by decide) (by decide +kernel)

end Onisin.Iam
