import Mathlib.Data.List.DropRight
import Onisin.Iam.AuthCode
import Onisin.Lib.Base64
import Onisin.Lib.JsonRoundTrip
import Onisin.Lib.Utf8

/-!
The session token at both ends. The identity provider writes the claims into the middle one of
three segments; the desktop application reads them from there and derives the role.
-/

set_option autoImplicit false

namespace Onisin.Iam
open Lib

/-! The issuer. -/

structure SigningKey where
  kid : Text
  sign : List UInt8 → List UInt8

def headerJson (key : SigningKey) : Json :=
  .object [("alg".toList, .string "RS256".toList), ("kid".toList, .string key.kid),
    ("typ".toList, .string "JWT".toList)]

def claimsJson (c : Claims) : Json :=
  .object [("sub".toList, .string c.sub), ("email".toList, .string c.email),
    ("preferred_username".toList, .string c.preferredUsername),
    ("groups".toList, .array (c.groups.map .string)), ("iss".toList, .string c.iss),
    ("aud".toList, .string c.aud), ("iat".toList, .number (.int c.iat)),
    ("exp".toList, .number (.int c.exp))]

def segment (v : Json) : Text := base64Encode (utf8 v.print)

def signingInput (key : SigningKey) (c : Claims) : Text :=
  segment (headerJson key) ++ '.' :: segment (claimsJson c)

def compactToken (key : SigningKey) (c : Claims) : Text :=
  signingInput key c ++ '.' :: base64Encode (key.sign (utf8 (signingInput key c)))

/-! The reader. -/

structure OosClaims where
  email : Text
  username : Text
  groups : List Text
  role : Text
  exp : Int
  deriving DecidableEq, Repr

def roleKeyword (part : Text) : Text × Nat :=
  if part = "admin".toList then ("admin".toList, 3)
  else if part = "manager".toList then ("manager".toList, 2)
  else if part = "user".toList then ("user".toList, 1)
  else ([], 0)

def higherRole (best : Text × Nat) (part : Text) : Text × Nat :=
  if (roleKeyword part).2 > best.2 then roleKeyword part else best

def resolveRole (groups : List Text) : Text :=
  ((groups.flatMap fun group => group.splitOn '-').foldl higherRole ([], 0)).1

def usernameOf (email preferred : Text) : Text :=
  if preferred = [] ∧ email ≠ [] then
    let before := email.takeWhile (· ≠ '@')
    if '@' ∈ email ∧ before ≠ [] then before else email
  else preferred

/-- Only ASCII letters have the letters of these names as their lower-case forms. -/
def syntheticGroups (username : Text) : List Text :=
  let name := username.map Char.toLower
  if name = "admin".toList then ["oos-admin".toList]
  else if name = "manager".toList then ["oos-manager".toList]
  else if name = "user".toList then ["oos-user".toList]
  else []

def asI64 : Json → Option Int
  | .number (.int n) => if -2 ^ 63 ≤ n ∧ n < 2 ^ 63 then some n else none
  | _ => none

def extractClaims (payload : Json) : OosClaims :=
  let email := (payload.getStr "email".toList).getD []
  let username := usernameOf email ((payload.getStr "preferred_username".toList).getD [])
  let named := ((payload.getArray "groups".toList).getD []).filterMap fun g =>
    g.asStr.filter (· ≠ [])
  let groups := if named = [] then syntheticGroups username else named
  { email, username, groups, role := resolveRole groups
    exp := ((payload.get "exp".toList).bind asI64).getD 0 }

/-- What a number that is no integer of 64 bits is read as is left to `float`. -/
def decodeClaims (float : Text → Option Text) (token : Text) : Option OosClaims :=
  if token = [] then none
  else
    match token.splitOn '.' with
    | [_, payload, _] => do
      let bytes ← base64Decode (payload.rdropWhile (· = '='))
      let text ← fromUtf8 bytes
      let payload ← parseJson float text
      return extractClaims payload
    | _ => none

/-! The role. -/

/-- A word between the hyphens of a group. -/
def Names (groups : List Text) (word : String) : Prop := ∃ g ∈ groups, word.toList ∈ g.splitOn '-'

instance (groups : List Text) (word : String) : Decidable (Names groups word) :=
  inferInstanceAs (Decidable (∃ g ∈ groups, _))

/-- The highest role that some group names. -/
def roleOf (groups : List Text) : Text :=
  if Names groups "admin" then "admin".toList
  else if Names groups "manager" then "manager".toList
  else if Names groups "user" then "user".toList
  else []

/-- The best of the words met, as the fold has it. -/
def bestRole (parts : List Text) : Text × Nat :=
  if parts.contains "admin".toList then ("admin".toList, 3)
  else if parts.contains "manager".toList then ("manager".toList, 2)
  else if parts.contains "user".toList then ("user".toList, 1)
  else ([], 0)

theorem higherRole_best (parts : List Text) (part : Text) :
    higherRole (bestRole parts) part = bestRole (parts ++ [part]) := by
  have hne : "admin".toList ≠ "manager".toList ∧ "admin".toList ≠ "user".toList ∧
      "manager".toList ≠ "user".toList := by decide
  unfold higherRole bestRole roleKeyword
  simp only [List.contains_iff_mem]
  generalize "admin".toList = admin at hne ⊢
  generalize "manager".toList = manager at hne ⊢
  generalize "user".toList = user at hne ⊢
  obtain ⟨hne1, hne2, hne3⟩ := hne
  by_cases h1 : admin ∈ parts <;> by_cases h2 : manager ∈ parts <;> by_cases h3 : user ∈ parts <;>
    by_cases h4 : part = admin <;> by_cases h5 : part = manager <;> by_cases h6 : part = user <;>
    simp_all [eq_comm]

theorem foldl_higherRole (parts : List Text) : parts.foldl higherRole ([], 0) = bestRole parts := by
  induction parts using List.reverseRecOn with
  | nil => rfl
  | append_singleton parts part ih =>
    rw [List.foldl_append, List.foldl_cons, List.foldl_nil, ih, higherRole_best]

theorem resolveRole_eq (groups : List Text) : resolveRole groups = roleOf groups := by
  have hmem (word : String) :
      (word.toList ∈ groups.flatMap fun group => group.splitOn '-') ↔ Names groups word :=
    List.mem_flatMap
  rw [resolveRole, foldl_higherRole, bestRole, roleOf]
  simp only [List.contains_iff_mem, hmem]
  split_ifs <;> rfl

/-! What is read is what was written. -/

theorem segment_no_dot (v : Json) : '.' ∉ segment v := not_mem_base64Encode (by decide)

theorem segment_trimmed (v : Json) : (segment v).rdropWhile (· = '=') = segment v := by
  refine List.rdropWhile_eq_self_iff.mpr fun hne hlast => ?_
  have hmem := List.getLast_mem hne
  rw [of_decide_eq_true hlast] at hmem
  exact not_mem_base64Encode (by decide) hmem

theorem itemsPrintable_strings {float : Text → Option Text} {depth : Nat} (texts : List Text) :
    ItemsPrintable float depth (texts.map .string) := by
  induction texts with
  | nil => trivial
  | cons t texts ih => exact ⟨trivial, ih⟩

theorem claimsJson_printable {float : Text → Option Text} {c : Claims} (hiat : c.iat < 2 ^ 63)
    (hexp : c.exp < 2 ^ 63) : (claimsJson c).Printable float 127 := by
  have hnumber (n : Nat) (hn : n < 2 ^ 63) : (Number.int n).ReadsBack float := by
    rw [Number.ReadsBack]
    omega
  simp [claimsJson, Json.Printable, FieldsPrintable, itemsPrintable_strings, hnumber _ hiat, hnumber _ hexp]

theorem decodeClaims_compact {float : Text → Option Text} (key : SigningKey) {c : Claims}
    (hiat : c.iat < 2 ^ 63) (hexp : c.exp < 2 ^ 63) :
    decodeClaims float (compactToken key c) = some (extractClaims (claimsJson c)) := by
  have hsplit : (compactToken key c).splitOn '.' = [segment (headerJson key), segment (claimsJson c),
      base64Encode (key.sign (utf8 (signingInput key c)))] := by
    rw [compactToken, signingInput, List.append_assoc, List.cons_append,
      List.splitOn_append_cons_self_of_not_mem (segment_no_dot _),
      List.splitOn_append_cons_self_of_not_mem (segment_no_dot _),
      List.splitOn_eq_singleton (not_mem_base64Encode (by decide))]
  have hne : compactToken key c ≠ [] := by simp [compactToken]
  rw [decodeClaims, if_neg hne, hsplit]
  simp only [segment_trimmed]
  rw [segment, base64Decode_encode, Option.bind_eq_bind, Option.bind_some, fromUtf8_utf8,
    Option.bind_eq_bind, Option.bind_some, parseJson_print (claimsJson_printable hiat hexp)]
  rfl

/-- The groups the reader has: those with a name, or else one made up from the user's name. -/
def shownGroups (sub : TokenSubject) : List Text :=
  let named := sub.groups.filter (· ≠ [])
  if named = [] then syntheticGroups (usernameOf sub.email sub.username) else named

theorem filterMap_strings (groups : List Text) :
    (groups.map Json.string).filterMap (fun g => g.asStr.filter (· ≠ [])) = groups.filter (· ≠ []) := by
  induction groups with
  | nil => rfl
  | cons g groups ih =>
    rw [List.map_cons, List.filterMap_cons, List.filter_cons, ih]
    by_cases hg : g = [] <;> simp [Json.asStr, Option.filter, hg]

theorem asI64_nat {n : Nat} (h : n < 2 ^ 63) : asI64 (.number (.int n)) = some (n : Int) := by
  rw [asI64, if_pos (by omega)]

/-- Whoever is signed in, the application reads from the token the identity it was made for, and
the highest role its groups name; the signature and the key do not matter to it. -/
theorem decodeClaims_issued (float : Text → Option Text) (key : SigningKey) (st : Settings)
    (audience : Text) (sub : TokenSubject) (now : Nat) (h : now + st.tokenTtlSec < 2 ^ 63) :
    decodeClaims float (compactToken key (signToken st audience sub now)) =
      some
        { email := sub.email
          username := usernameOf sub.email sub.username
          groups := shownGroups sub
          role := roleOf (shownGroups sub)
          exp := now + st.tokenTtlSec } := by
  have hexp : (signToken st audience sub now).exp < 2 ^ 63 := h
  have hiat : (signToken st audience sub now).iat < 2 ^ 63 := Nat.lt_of_le_of_lt (Nat.le_add_right _ _) h
  rw [decodeClaims_compact key hiat hexp]
  have hget (name : String) : (claimsJson (signToken st audience sub now)).get name.toList =
      List.lookup name.toList [("sub".toList, .string sub.email), ("email".toList, .string sub.email),
        ("preferred_username".toList, .string sub.username),
        ("groups".toList, .array (sub.groups.map .string)), ("iss".toList, .string st.issuer),
        ("aud".toList, .string audience), ("iat".toList, .number (.int now)),
        ("exp".toList, .number (.int ((now + st.tokenTtlSec : Nat) : Int)))] := rfl
  have hemail : (claimsJson (signToken st audience sub now)).getStr "email".toList = some sub.email := by
    rw [Json.getStr, hget]
    rfl
  have hname : (claimsJson (signToken st audience sub now)).getStr "preferred_username".toList =
      some sub.username := by
    rw [Json.getStr, hget]
    rfl
  have hgroups : (claimsJson (signToken st audience sub now)).getArray "groups".toList =
      some (sub.groups.map .string) := by
    rw [Json.getArray, hget]
    rfl
  have hend : ((claimsJson (signToken st audience sub now)).get "exp".toList).bind asI64 =
      some ((now : Int) + st.tokenTtlSec) := by
    have hfield : (claimsJson (signToken st audience sub now)).get "exp".toList =
        some (.number (.int ((now + st.tokenTtlSec : Nat) : Int))) := by
      rw [hget]
      rfl
    rw [hfield, Option.bind_some, asI64_nat h, Int.natCast_add]
  rw [extractClaims, hemail, hname, hgroups, hend]
  simp only [Option.getD_some, filterMap_strings, resolveRole_eq, shownGroups]

end Onisin.Iam
