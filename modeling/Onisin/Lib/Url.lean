import Mathlib.Data.List.TakeWhile
import Onisin.Lib.JsonParse
import Onisin.Lib.Utf8

/-!
URLs by the grammar of RFC 3986, which refuses most texts, and the parameters of a query, which are
read as `application/x-www-form-urlencoded`.
-/

set_option autoImplicit false

namespace Onisin.Lib

/-! Percent-decoding. -/

/-- The byte that two hexadecimal digits in front of a text stand for. -/
def readHexByte : Text → Option UInt8
  | a :: b :: _ => (hexValue a).bind fun hi => (hexValue b).map fun lo => UInt8.ofNat (16 * hi + lo)
  | _ => none

/-- The bytes that a character stands for in front of `t`, and how much of `t` belongs to them. -/
def decodeAt (c : Char) (t : Text) : List UInt8 × Nat :=
  if c = '+' then ([32], 0)
  else if c = '%' then (readHexByte t).elim ([37], 0) fun b => ([b], 2)
  else (String.utf8EncodeChar c, 0)

/-- `skip` is what is left of an escape just met. -/
def percentDecodeFrom : Nat → Text → List UInt8
  | _, [] => []
  | skip + 1, _ :: t => percentDecodeFrom skip t
  | 0, c :: t => (decodeAt c t).1 ++ percentDecodeFrom (decodeAt c t).2 t

def percentDecode (t : Text) : List UInt8 := percentDecodeFrom 0 t

/-! The parameters of a query. -/

/-- The text before the first `c`, and what comes behind it. -/
def cutAt (c : Char) (t : Text) : Text × Option Text := (t.takeWhile (· ≠ c), (t.dropWhile (· ≠ c)).tail?)

/-- What stands between the first `?` and the first `#`, in a URL or in any other text. -/
def queryPart (t : Text) : Option Text := (cutAt '?' (cutAt '#' t).1).2

def queryPair (piece : Text) : List UInt8 × List UInt8 :=
  (percentDecode (piece.takeWhile (· ≠ '=')), percentDecode ((piece.dropWhile (· ≠ '=')).drop 1))

/-- The parameters of a query; empty pieces are none. -/
def queryPairs (query : Text) : List (List UInt8 × List UInt8) :=
  ((query.splitOn '&').filter (· ≠ [])).map queryPair

def queryParams (t : Text) : List (List UInt8 × List UInt8) := queryPairs ((queryPart t).getD [])

/-- The value of the first parameter of a name. -/
def paramOf (params : List (List UInt8 × List UInt8)) (name : Text) : Option Text :=
  (params.lookup (utf8 name)).bind fromUtf8

/-! A URL. -/

structure Authority where
  userinfo : Option Text
  host : Text
  port : Option Text
  deriving DecidableEq, Repr

structure Url where
  scheme : Text
  authority : Option Authority
  path : Text
  query : Option Text
  fragment : Option Text
  deriving DecidableEq, Repr

def isUrlChar (c : Char) : Bool := c.isAlphanum || "-._~:/?#[]@!$&\x27()*+,;=%".toList.contains c

/-- A character of a name, which needs no escape anywhere. -/
def isNameChar (c : Char) : Bool := c.isAlphanum || "-._~!$&\x27()*+,;=".toList.contains c

def isUserinfoChar (c : Char) : Bool := isNameChar c || c = ':'

def isPathChar (c : Char) : Bool := isNameChar c || ":@/".toList.contains c

def isQueryChar (c : Char) : Bool := isPathChar c || c = '?'

def isHexDigit (c : Char) : Bool := (hexValue c).isSome

/-- Characters of a kind, and escapes. -/
def isEncoded (p : Char → Bool) : Text → Bool
  | [] => true
  | c :: t =>
    if c = '%' then
      match t with
      | a :: b :: t => isHexDigit a && isHexDigit b && isEncoded p t
      | _ => false
    else p c && isEncoded p t

def isScheme : Text → Bool
  | [] => false
  | c :: t => c.isAlpha && t.all fun c => c.isAlphanum || "+-.".toList.contains c

/-- A number up to 255 without leading zeros. -/
def isOctet (t : Text) : Bool :=
  t ≠ [] && t.all Char.isDigit && (t.length = 1 || t.head? ≠ some '0') && Nat.ofDigitChars 10 t 0 ≤ 255

def isIpv4 (t : Text) : Bool := (t.splitOn '.').length = 4 && (t.splitOn '.').all isOctet

/-- Sixteen bits of an address. -/
def isPiece (t : Text) : Bool := 1 ≤ t.length && t.length ≤ 4 && t.all isHexDigit

/-- How many pieces the parts between the colons are; the last one may be an address of four octets. -/
def countPieces : List Text → Option Nat
  | [] => some 0
  | [t] => if isPiece t then some 1 else if isIpv4 t then some 2 else none
  | t :: rest => if isPiece t then (countPieces rest).map (· + 1) else none

/-- The parts between the colons, where there are any. -/
def colonParts (t : Text) : List Text := if t = [] then [] else t.splitOn ':'

/-- Eight pieces, or fewer where two colons stand for the others. -/
def isIpv6 (t : Text) : Bool :=
  (List.range t.length).any (fun n => [':', ':'] <+: t.drop n && (colonParts (t.take n)).all isPiece &&
    (countPieces (colonParts (t.drop (n + 2)))).any fun k => (colonParts (t.take n)).length + k ≤ 7) ||
  countPieces (colonParts t) = some 8

def isFutureAddress (t : Text) : Bool :=
  match t with
  | [] => false
  | c :: t =>
    (c = 'v' || c = 'V') && (cutAt '.' t).1 ≠ [] && (cutAt '.' t).1.all isHexDigit &&
      (cutAt '.' t).2.any fun u => u ≠ [] && u.all isUserinfoChar

/-- A host with the port behind it. -/
def parseHost (t : Text) : Option (Text × Option Text) :=
  if t.head? = some '[' then
    (cutAt ']' (t.drop 1)).2.bind fun behind =>
      let address := (cutAt ']' (t.drop 1)).1
      if (isIpv6 address || isFutureAddress address) && (behind = [] || behind.head? = some ':') then
        some ('[' :: (address ++ [']']), behind.tail?)
      else none
  else if isEncoded isNameChar (cutAt ':' t).1 then some (cutAt ':' t) else none

def parseAuthority (t : Text) : Option Authority :=
  let userinfo := (cutAt '@' t).2.map fun _ => (cutAt '@' t).1
  (parseHost ((cutAt '@' t).2.getD t)).bind fun h =>
    if userinfo.all (isEncoded isUserinfoChar) && h.2.all (·.all Char.isDigit) then
      some ⟨userinfo, h.1, h.2⟩
    else none

/-- A URL with neither a query nor a fragment. -/
def parsePlace (t : Text) : Option Url :=
  (cutAt ':' t).2.bind fun rest =>
    -- the rules below leave no other character
    if t.all isUrlChar && isScheme (cutAt ':' t).1 then
      if ['/', '/'] <+: rest then
        let path := (rest.drop 2).dropWhile (· ≠ '/')
        (parseAuthority ((rest.drop 2).takeWhile (· ≠ '/'))).bind fun authority =>
          if isEncoded isPathChar path then some ⟨(cutAt ':' t).1, some authority, path, none, none⟩ else none
      else if isEncoded isPathChar rest then some ⟨(cutAt ':' t).1, none, rest, none, none⟩ else none
    else none

def parseUrl (t : Text) : Option Url :=
  let fragment := (cutAt '#' t).2
  let query := queryPart t
  (parsePlace (cutAt '?' (cutAt '#' t).1).1).bind fun place =>
    if query.all (isEncoded isQueryChar) && fragment.all (isEncoded isQueryChar) then
      some { place with query, fragment }
    else none

def Url.params (url : Url) : List (List UInt8 × List UInt8) := queryPairs (url.query.getD [])

variable {c a b : Char} {t query piece name value : Text} {skip hi lo : Nat} {url : Url}

theorem percentDecode_plain (hplus : c ≠ '+') (hpercent : c ≠ '%') :
    percentDecode (c :: t) = String.utf8EncodeChar c ++ percentDecode t := by
  rw [percentDecode, percentDecodeFrom, decodeAt, if_neg hplus, if_neg hpercent, percentDecode]

theorem percentDecode_escape (ha : hexValue a = some hi) (hb : hexValue b = some lo) :
    percentDecode ('%' :: a :: b :: t) = UInt8.ofNat (16 * hi + lo) :: percentDecode t := by
  have hat : decodeAt '%' (a :: b :: t) = ([UInt8.ofNat (16 * hi + lo)], 2) := by
    rw [decodeAt, if_neg (by decide), if_pos rfl, readHexByte, ha, hb]
    rfl
  rw [percentDecode, percentDecodeFrom, hat, percentDecodeFrom, percentDecodeFrom, percentDecode]
  rfl

/-- An escape takes hexadecimal digits only. -/
theorem mem_drop_decodeAt {d : Char} (hhex : hexValue c = none) (h : c ∈ t) :
    c ∈ t.drop (decodeAt d t).2 := by
  unfold decodeAt
  split
  · exact h
  split
  · cases hbyte : readHexByte t with
    | none => exact h
    | some v =>
      unfold readHexByte at hbyte
      split at hbyte
      · next a b t =>
        obtain ⟨hi, ha, hbyte⟩ := Option.bind_eq_some_iff.mp hbyte
        obtain ⟨lo, hb, -⟩ := Option.map_eq_some_iff.mp hbyte
        obtain rfl | hrest := List.mem_cons.mp h
        · rw [hhex] at ha
          cases ha
        obtain rfl | hrest := List.mem_cons.mp hrest
        · rw [hhex] at hb
          cases hb
        exact hrest
      · cases hbyte
  · exact h

/-- A character that belongs to no escape is still there after decoding. -/
theorem mem_percentDecodeFrom (hplus : c ≠ '+') (hpercent : c ≠ '%') (hhex : hexValue c = none)
    (h : c ∈ t.drop skip) : String.utf8EncodeChar c ⊆ percentDecodeFrom skip t := by
  induction t generalizing skip with
  | nil => cases skip <;> cases h
  | cons d t ih =>
    cases skip with
    | succ skip => exact ih h
    | zero =>
      rw [percentDecodeFrom]
      obtain rfl | ht := List.mem_cons.mp h
      · rw [decodeAt, if_neg hplus, if_neg hpercent]
        exact List.subset_append_left _ _
      · exact List.Subset.trans (ih (mem_drop_decodeAt hhex ht)) (List.subset_append_right _ _)

theorem mem_percentDecode (hplus : c ≠ '+') (hpercent : c ≠ '%') (hhex : hexValue c = none)
    (h : c ∈ t) : String.utf8EncodeChar c ⊆ percentDecode t :=
  mem_percentDecodeFrom hplus hpercent hhex h

/-! Where a character stands first. -/

theorem ne_of_not_mem (h : c ∉ t) : ∀ d ∈ t, decide (d ≠ c) = true :=
  fun _ hd => decide_eq_true fun he => h (he ▸ hd)

theorem takeWhile_ne_eq_self (h : c ∉ t) : t.takeWhile (· ≠ c) = t :=
  List.takeWhile_eq_self_iff.mpr (ne_of_not_mem h)

theorem takeWhile_ne_append (h : c ∉ t) (rest : Text) :
    (t ++ c :: rest).takeWhile (· ≠ c) = t := by
  rw [List.takeWhile_append_of_pos (ne_of_not_mem h), List.takeWhile_cons_of_neg (by simp),
    List.append_nil]

theorem dropWhile_ne_eq_nil (h : c ∉ t) : t.dropWhile (· ≠ c) = [] :=
  List.dropWhile_eq_nil_iff.mpr (ne_of_not_mem h)

theorem dropWhile_ne_append (h : c ∉ t) (rest : Text) :
    (t ++ c :: rest).dropWhile (· ≠ c) = c :: rest := by
  rw [List.dropWhile_append_of_pos (ne_of_not_mem h), List.dropWhile_cons_of_neg (by simp)]

theorem cutAt_none (h : c ∉ t) : cutAt c t = (t, none) := by
  rw [cutAt, takeWhile_ne_eq_self h, dropWhile_ne_eq_nil h]
  rfl

theorem cutAt_append (h : c ∉ t) (rest : Text) : cutAt c (t ++ c :: rest) = (t, some rest) := by
  rw [cutAt, takeWhile_ne_append h, dropWhile_ne_append h]
  rfl

theorem cutAt_snd_none : (cutAt c t).2 = none ↔ c ∉ t := by
  constructor
  · intro h hc
    obtain ⟨pre, post, rfl, hpre⟩ := List.eq_append_cons_of_mem hc
    rw [cutAt_append hpre] at h
    cases h
  · intro h
    rw [cutAt_none h]

/-! The query. -/

theorem queryPart_none (h : '?' ∉ t) : queryPart t = none := by
  have hin : '?' ∉ (cutAt '#' t).1 := fun hc => h (List.takeWhile_subset _ hc)
  rw [queryPart, cutAt_none hin]

/-- Behind the first `?` comes the query, as long as there is no fragment. -/
theorem queryPart_append (hmark : '?' ∉ t) (hurl : '#' ∉ t) (hquery : '#' ∉ query) :
    queryPart (t ++ '?' :: query) = some query := by
  have hwhole : '#' ∉ t ++ '?' :: query := by
    simp [hurl, hquery]
  rw [queryPart, cutAt_none hwhole, cutAt_append hmark]

/-- What stands in the fragment does not matter. -/
theorem queryPart_fragment (h : '#' ∈ t) (more : Text) : queryPart (t ++ more) = queryPart t := by
  obtain ⟨pre, post, rfl, hpre⟩ := List.eq_append_cons_of_mem h
  rw [List.append_assoc, List.cons_append, queryPart, queryPart, cutAt_append hpre, cutAt_append hpre]

/-! What a URL is made of. -/

theorem isEncoded_plain {p : Char → Bool} (hc : c ≠ '%') (t : Text) :
    isEncoded p (c :: t) = (p c && isEncoded p t) := by
  rw [isEncoded.eq_def]
  exact if_neg hc

theorem isEncoded_append {p : Char → Bool} {s : Text} (h : isEncoded p s = true) (t : Text) :
    isEncoded p (s ++ t) = isEncoded p t := by
  fun_induction isEncoded p s with
  | case1 => rfl
  | case2 a b s ih =>
    rw [Bool.and_eq_true, Bool.and_eq_true] at h
    rw [List.cons_append, List.cons_append, List.cons_append, isEncoded, if_pos rfl, h.1.1, h.1.2, ih h.2]
    rfl
  | case3 => cases h
  | case4 c s hc ih =>
    rw [Bool.and_eq_true] at h
    rw [List.cons_append, isEncoded_plain hc, h.1, ih h.2, Bool.true_and]

theorem isEncoded_of_all {p : Char → Bool} (hpercent : p '%' = false) (h : t.all p = true) :
    isEncoded p t = true := by
  induction t with
  | nil => rfl
  | cons c t ih =>
    rw [List.all_cons, Bool.and_eq_true] at h
    have hc : c ≠ '%' := by
      rintro rfl
      rw [hpercent] at h
      cases h.1
    rw [isEncoded_plain hc, h.1, ih h.2, Bool.and_self]

theorem isUrlChar_visible (h : isUrlChar c = true) : 33 ≤ c.toNat ∧ c.toNat < 127 := by
  rw [isUrlChar, Bool.or_eq_true, List.contains_iff_mem] at h
  obtain h | h := h
  · have hranges : ((decide ('A'.val ≤ c.val ∧ c.val ≤ 'Z'.val) ||
        (decide ('a'.val ≤ c.val) && decide (c.val ≤ 'z'.val))) ||
        (decide ('0'.val ≤ c.val) && decide (c.val ≤ '9'.val))) = true := h
    have hnat : c.val.toNat = c.toNat := rfl
    simp only [Bool.or_eq_true, Bool.and_eq_true, decide_eq_true_eq, UInt32.le_iff_toNat_le] at hranges
    simp at hranges
    omega
  · have hall : ("-._~:/?#[]@!$&\x27()*+,;=%".toList.all fun c =>
        decide (33 ≤ c.toNat ∧ c.toNat < 127)) = true := by
      decide
    exact of_decide_eq_true (List.all_eq_true.mp hall c h)

theorem parsePlace_some (h : parsePlace t = some url) :
    t.all isUrlChar = true ∧ url.query = none ∧ url.fragment = none := by
  obtain ⟨rest, -, h⟩ := Option.bind_eq_some_iff.mp h
  split at h
  · next hcheck =>
    refine ⟨(Bool.and_eq_true_iff.mp hcheck).1, ?_⟩
    split at h
    · obtain ⟨authority, -, h⟩ := Option.bind_eq_some_iff.mp h
      split at h
      · cases h
        exact ⟨rfl, rfl⟩
      · cases h
    · split at h
      · cases h
        exact ⟨rfl, rfl⟩
      · cases h
  · cases h

/-- The parts of a URL behind its place are those of its text. -/
theorem parseUrl_some : parseUrl t = some url ↔
    ∃ place, parsePlace (cutAt '?' (cutAt '#' t).1).1 = some place ∧
      (queryPart t).all (isEncoded isQueryChar) = true ∧ (cutAt '#' t).2.all (isEncoded isQueryChar) = true ∧
      url = { place with query := queryPart t, fragment := (cutAt '#' t).2 } := by
  rw [parseUrl, Option.bind_eq_some_iff]
  refine exists_congr fun place => and_congr_right fun _ => ?_
  split
  · next h =>
    rw [Bool.and_eq_true] at h
    simp [h.1, h.2, eq_comm]
  · next h =>
    rw [Bool.and_eq_true, not_and] at h
    refine iff_of_false nofun ?_
    rintro ⟨hquery, hfragment, -⟩
    exact h hquery hfragment

theorem parseUrl_params (h : parseUrl t = some url) : url.params = queryParams t := by
  obtain ⟨place, -, -, -, rfl⟩ := parseUrl_some.mp h
  rfl

theorem Url.bare (hquery : url.query = none) (hfragment : url.fragment = none) :
    ({ url with query := none, fragment := none } : Url) = url := by
  obtain ⟨scheme, authority, path, query, fragment⟩ := url
  cases hquery
  cases hfragment
  rfl

/-- A URL with neither a query nor a fragment is all place. -/
theorem parseUrl_place : parseUrl t = some url ∧ url.query = none ∧ url.fragment = none ↔
    parsePlace t = some url ∧ '?' ∉ t ∧ '#' ∉ t := by
  constructor
  · rintro ⟨h, hquery, hfragment⟩
    obtain ⟨place, hplace, -, -, rfl⟩ := parseUrl_some.mp h
    have hhash : '#' ∉ t := cutAt_snd_none.mp hfragment
    rw [cutAt_none hhash] at hplace
    have hmark : '?' ∉ t := by
      have hnone : (cutAt '?' (cutAt '#' t).1).2 = none := hquery
      rwa [cutAt_none hhash, cutAt_snd_none] at hnone
    rw [cutAt_none hmark] at hplace
    obtain ⟨-, hquery', hfragment'⟩ := parsePlace_some hplace
    refine ⟨hplace.trans ?_, hmark, hhash⟩
    have hnone : queryPart t = none := hquery
    have hnone' : (cutAt '#' t).2 = none := hfragment
    rw [hnone, hnone', Url.bare hquery' hfragment']
  · rintro ⟨h, hmark, hhash⟩
    obtain ⟨-, hquery, hfragment⟩ := parsePlace_some h
    refine ⟨parseUrl_some.mpr ⟨url, ?_, ?_, ?_, ?_⟩, hquery, hfragment⟩
    · rw [cutAt_none hhash, cutAt_none hmark, h]
    · rw [queryPart_none hmark]
      rfl
    · rw [cutAt_none hhash]
      rfl
    · have hnone : (cutAt '#' t).2 = none := by rw [cutAt_none hhash]
      rw [queryPart_none hmark, hnone, Url.bare hquery hfragment]

/-- A query put behind a place. -/
theorem parseUrl_append (hmark : '?' ∉ t) (hhash : '#' ∉ t) (hquery : '#' ∉ query) :
    parseUrl (t ++ '?' :: query) = some url ↔ ∃ place, parsePlace t = some place ∧
      isEncoded isQueryChar query = true ∧ url = { place with query := some query } := by
  have hwhole : '#' ∉ t ++ '?' :: query := by simp [hhash, hquery]
  rw [parseUrl_some, queryPart_append hmark hhash hquery, cutAt_none hwhole, cutAt_append hmark]
  refine exists_congr fun place => and_congr_right fun hplace => ?_
  obtain ⟨-, -, hfragment⟩ := parsePlace_some hplace
  simp [hfragment]

/-! The parameters. -/

theorem queryPair_eq (hname : '=' ∉ name) :
    queryPair (name ++ '=' :: value) = (percentDecode name, percentDecode value) := by
  rw [queryPair, takeWhile_ne_append hname, dropWhile_ne_append hname, List.drop_one, List.tail_cons]

theorem queryPairs_singleton (hpiece : '&' ∉ piece) (hne : piece ≠ []) :
    queryPairs piece = [queryPair piece] := by
  rw [queryPairs, List.splitOn_eq_singleton hpiece]
  simp [hne]

theorem queryPairs_append (query query' : Text) :
    queryPairs (query ++ '&' :: query') = queryPairs query ++ queryPairs query' := by
  rw [queryPairs, List.splitOn_append_cons_self, List.filter_append, List.map_append]
  rfl

/-- What is appended to a query changes its last piece at most. -/
theorem queryPairs_extend (query : Text) : ∃ own last, '&' ∉ last ∧
    ∀ more, queryPairs (query ++ more) = own ++ queryPairs (last ++ more) := by
  induction query using List.reverseRecOn with
  | nil => exact ⟨[], [], List.not_mem_nil, fun _ => rfl⟩
  | append_singleton query c ih =>
    obtain ⟨own, last, hlast, h⟩ := ih
    by_cases hc : c = '&'
    · refine ⟨own ++ queryPairs last, [], List.not_mem_nil, fun more => ?_⟩
      rw [List.append_assoc, List.singleton_append, h, hc, queryPairs_append, List.append_assoc,
        List.nil_append]
    · refine ⟨own, last ++ [c], ?_, fun more => ?_⟩
      · simp [hlast, Ne.symm hc]
      · rw [List.append_assoc, h, List.append_assoc]

/-- A character that belongs to no escape ends up in the name or in the value. -/
theorem mem_queryPair (hplus : c ≠ '+') (hpercent : c ≠ '%') (hhex : hexValue c = none)
    (hequals : c ≠ '=') (h : c ∈ piece) :
    String.utf8EncodeChar c ⊆ (queryPair piece).1 ∨ String.utf8EncodeChar c ⊆ (queryPair piece).2 := by
  by_cases hin : '=' ∈ piece
  · obtain ⟨name, value, rfl, hname⟩ := List.eq_append_cons_of_mem hin
    rw [queryPair_eq hname]
    rw [List.mem_append, List.mem_cons] at h
    obtain h | h | h := h
    · exact .inl (mem_percentDecode hplus hpercent hhex h)
    · exact absurd h hequals
    · exact .inr (mem_percentDecode hplus hpercent hhex h)
  · rw [queryPair, takeWhile_ne_eq_self hin]
    exact .inl (mem_percentDecode hplus hpercent hhex h)

example : parseUrl "http://me@[::1]:1420/a%20b?x=1#top".toList =
    some ⟨"http".toList, some ⟨some "me".toList, "[::1]".toList, some "1420".toList⟩, "/a%20b".toList,
      some "x=1".toList, some "top".toList⟩ := by
  decide +kernel

example : parseUrl "?code=1".toList = none ∧ parseUrl "http://localhost:port/".toList = none ∧
    parseUrl "http://a b/".toList = none := by
  decide +kernel

end Onisin.Lib
