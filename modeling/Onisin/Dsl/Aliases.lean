import Onisin.Dsl.DomainLexer
import Onisin.Lib.Js
import Onisin.Lib.KeepFirst

/-!
The alias list of a domain, generated twice: for the embedded chunk in Rust, and for the
resolver in TypeScript. The two share their rules but not their white space, their case
mapping or their way of dropping duplicates.
-/

set_option autoImplicit false

namespace Onisin.Dsl.Aliases
open Lib
open Domain (DomainDef IdentText isIdentChar isIdentStart isAlphaAscii isDigitAscii)

/-- A lower-case mapping, of which only the ASCII part is written out. -/
structure Lowercase where
  map : Text → Text
  ascii : ∀ t, (∀ c ∈ t, c.toNat < 128) → map t = t.map Char.toLower
  nonempty : ∀ t, t ≠ [] → map t ≠ []

namespace Rust
variable (lower : Lowercase)

def germanPlural (singular : Text) : Text :=
  if h : singular = [] then singular
  else
    let low := lower.map singular
    if "en".toList.isSuffixOf low || "er".toList.isSuffixOf low || "s".toList.isSuffixOf low then
      singular
    else if "e".toList.isSuffixOf low then singular ++ "n".toList
    else
      let last := low.getLast (lower.nonempty singular h)
      if "aiou".toList.contains last then singular ++ "s".toList else singular ++ "en".toList

def phrases (word : Text) : List Text :=
  [word, word ++ " Liste".toList, "alle ".toList ++ word, word ++ " anzeigen".toList,
    word ++ " bearbeiten".toList]

def expandAlias (entry : Text) : List Text :=
  let a := Text.trim entry
  if a = [] then [] else phrases a

/-- The loop of `dedup_keep_first`, with its set and its output. -/
def dedupLoop : List Text → List Text → List Text → List Text
  | _, out, [] => out
  | seen, out, it :: items =>
    if seen.contains it then dedupLoop seen out items else dedupLoop (it :: seen) (out ++ [it]) items

def dedupKeepFirst (items : List Text) : List Text := dedupLoop [] [] items

def domainAliases (d : DomainDef) : List Text :=
  let singular := d.name
  let plural := germanPlural lower singular
  let out := [singular, singular ++ " Liste".toList, "alle ".toList ++ singular,
    singular ++ " anzeigen".toList, singular ++ " bearbeiten".toList, singular ++ " Detail".toList]
  let out := out ++ (if plural ≠ [] ∧ plural ≠ singular then phrases plural else [])
  dedupKeepFirst (out ++ d.aliases.flatMap expandAlias)

end Rust

namespace TypeScript
variable (lower : Lowercase)

def germanPlural (singular : Text) : Text :=
  if singular = [] then singular
  else
    let low := lower.map singular
    if "en".toList.isSuffixOf low then singular
    else if "er".toList.isSuffixOf low then singular
    else if "s".toList.isSuffixOf low then singular
    else if "e".toList.isSuffixOf low then singular ++ "n".toList
    else
      match low.getLast? with
      | some last =>
        if "aiou".toList.contains last then singular ++ "s".toList else singular ++ "en".toList
      | none => singular ++ "en".toList

def phrases (word : Text) : List Text :=
  [word, word ++ " Liste".toList, "alle ".toList ++ word, word ++ " anzeigen".toList,
    word ++ " bearbeiten".toList]

def expandAlias (entry : Text) : List Text :=
  let a := Text.jsTrim entry
  if a = [] then [] else phrases a

/-- A `Set` keeps its elements in the order in which they came. -/
def setAdd (set : List Text) (x : Text) : List Text := if set.contains x then set else set ++ [x]

def domainAliases (d : DomainDef) : List Text :=
  let singular := d.name
  let plural := germanPlural lower singular
  let out := [singular, singular ++ " Liste".toList, "alle ".toList ++ singular,
    singular ++ " anzeigen".toList, singular ++ " bearbeiten".toList, singular ++ " Detail".toList]
  let out := out ++ (if plural ≠ [] ∧ plural ≠ singular then phrases plural else [])
  (out ++ d.aliases.flatMap expandAlias).foldl setAdd []

end TypeScript

/-! The two ways of dropping duplicates. -/

theorem dedupLoop_eq (seen out items : List Text) :
    Rust.dedupLoop seen out items = out ++ keepFirst id seen items := by
  induction items generalizing seen out with
  | nil => exact (List.append_nil out).symm
  | cons it items ih =>
    rw [Rust.dedupLoop]
    by_cases h : it ∈ seen
    · rw [if_pos (List.contains_iff_mem.mpr h), ih, keepFirst_seen h]
    · rw [if_neg fun hc => h (List.contains_iff_mem.mp hc), ih, keepFirst_new h, List.append_assoc,
        List.singleton_append]
      rfl

theorem dedupKeepFirst_eq (items : List Text) : Rust.dedupKeepFirst items = keepFirst id [] items :=
  dedupLoop_eq [] [] items

theorem foldl_setAdd_eq (set items : List Text) :
    items.foldl TypeScript.setAdd set = set ++ keepFirst id set items := by
  induction items generalizing set with
  | nil => exact (List.append_nil set).symm
  | cons x items ih =>
    rw [List.foldl_cons, ih, TypeScript.setAdd]
    by_cases h : x ∈ set
    · rw [if_pos (List.contains_iff_mem.mpr h), keepFirst_seen h]
    · have hseen : keepFirst id (set ++ [x]) items = keepFirst id (x :: set) items :=
        keepFirst_congr fun k => by rw [List.mem_append, List.mem_singleton, List.mem_cons, or_comm]
      rw [if_neg fun hc => h (List.contains_iff_mem.mp hc), keepFirst_new h, hseen,
        List.append_assoc, List.singleton_append]
      rfl

/-! White space at the ends. -/

/-- Outer space in the sense of either language. -/
def isOuter (c : Char) : Bool := isWhitespace c || isJsSpace c

/-- Whatever either language would trim off the text is ASCII. -/
def OuterAscii (t : Text) : Prop :=
  (∀ c ∈ t.takeWhile isOuter, c.toNat < 128) ∧ ∀ c ∈ t.reverse.takeWhile isOuter, c.toNat < 128

theorem space_agrees {c : Char} (h : c.toNat < 128) : isWhitespace c = isJsSpace c := by
  have hiff : isWhitespace c = true ↔ isJsSpace c = true := by
    simp only [isWhitespace, isJsSpace, Bool.or_eq_true, Bool.and_eq_true, decide_eq_true_eq,
      beq_iff_eq]
    omega
  exact Bool.eq_iff_iff.mpr hiff

theorem dropWhile_agrees {t : Text} (h : ∀ c ∈ t.takeWhile isOuter, c.toNat < 128) :
    t.dropWhile isWhitespace = t.dropWhile isJsSpace := by
  induction t with
  | nil => rfl
  | cons c t ih =>
    by_cases hc : isOuter c = true
    · rw [List.takeWhile_cons_of_pos hc] at h
      have hsame := space_agrees (h c List.mem_cons_self)
      have hspace : isWhitespace c = true := by
        rwa [isOuter, ← hsame, Bool.or_self] at hc
      rw [List.dropWhile_cons_of_pos hspace, List.dropWhile_cons_of_pos (hsame ▸ hspace)]
      exact ih fun d hd => h d (List.mem_cons_of_mem c hd)
    · obtain ⟨hrust, hjs⟩ := Bool.or_eq_false_iff.mp (Bool.not_eq_true _ ▸ hc)
      rw [List.dropWhile_cons_of_neg (by simp [hrust]), List.dropWhile_cons_of_neg (by simp [hjs])]

theorem mem_takeWhile_append {p : Char → Bool} {s t : Text} {c : Char} (h : c ∈ s.takeWhile p) :
    c ∈ (s ++ t).takeWhile p := by
  rw [List.takeWhile_append]
  split
  · next hall =>
    have hs : s.takeWhile p <+: s := List.takeWhile_prefix p
    exact List.mem_append_left _ (hs.subset h)
  · exact h

theorem trim_agrees {t : Text} (h : OuterAscii t) : Text.trim t = Text.jsTrim t := by
  rw [Text.trim, Text.jsTrim, dropWhile_agrees h.1]
  refine congrArg List.reverse (dropWhile_agrees fun c hc => h.2 c ?_)
  have hsplit : t.reverse = (t.dropWhile isJsSpace).reverse ++ (t.takeWhile isJsSpace).reverse := by
    rw [← List.reverse_append, List.takeWhile_append_dropWhile]
  rw [hsplit]
  exact mem_takeWhile_append hc

/-! The two generators. -/

theorem ascii_of_ident {name : Text} (h : IdentText name) : ∀ c ∈ name, c.toNat < 128 := by
  intro c hc
  have hchar := List.all_eq_true.mp h.1 c hc
  simp only [isIdentChar, isAlphaAscii, isDigitAscii, Bool.or_eq_true, Bool.and_eq_true,
    decide_eq_true_eq] at hchar
  rcases hchar with (rfl | ⟨-, hle⟩ | ⟨-, hle⟩) | hdigit
  · decide
  · exact Nat.lt_of_le_of_lt hle (by decide)
  · exact Nat.lt_of_le_of_lt hle (by decide)
  · have hrange := (Char.isDigit_iff_toNat.mp hdigit).2
    exact Nat.lt_of_le_of_lt hrange (by decide)

theorem germanPlural_agrees (rust js : Lowercase) {name : Text}
    (h : ∀ c ∈ name, c.toNat < 128) :
    Rust.germanPlural rust name = TypeScript.germanPlural js name := by
  have hlow : rust.map name = js.map name := (rust.ascii name h).trans (js.ascii name h).symm
  unfold Rust.germanPlural TypeScript.germanPlural
  split
  · rfl
  · next hne =>
    generalize rust.nonempty name hne = hlast
    rw [← hlow]
    generalize rust.map name = low at hlast
    simp only [List.getLast?_eq_some_getLast hlast]
    cases "en".toList.isSuffixOf low <;> cases "er".toList.isSuffixOf low <;>
      cases "s".toList.isSuffixOf low <;> rfl

theorem expandAlias_agrees {entry : Text} (h : OuterAscii entry) :
    Rust.expandAlias entry = TypeScript.expandAlias entry := by
  rw [Rust.expandAlias, TypeScript.expandAlias, trim_agrees h]
  rfl

/-- The list before duplicates are dropped, from the plural and the expanded aliases. -/
def candidates (singular plural : Text) (expanded : List (List Text)) : List Text :=
  [singular, singular ++ " Liste".toList, "alle ".toList ++ singular,
    singular ++ " anzeigen".toList, singular ++ " bearbeiten".toList,
    singular ++ " Detail".toList] ++
  (if plural ≠ [] ∧ plural ≠ singular then Rust.phrases plural else []) ++ expanded.flatten

theorem rust_aliases_eq (lower : Lowercase) (d : DomainDef) :
    Rust.domainAliases lower d = keepFirst id []
      (candidates d.name (Rust.germanPlural lower d.name) (d.aliases.map Rust.expandAlias)) := by
  rw [Rust.domainAliases, dedupKeepFirst_eq, candidates, List.flatMap_def]

theorem typeScript_aliases_eq (lower : Lowercase) (d : DomainDef) :
    TypeScript.domainAliases lower d = keepFirst id []
      (candidates d.name (TypeScript.germanPlural lower d.name)
        (d.aliases.map TypeScript.expandAlias)) := by
  rw [TypeScript.domainAliases, foldl_setAdd_eq, List.nil_append, candidates, List.flatMap_def]
  rfl

/-- Both generators give the same aliases, each once and the name of the domain first. -/
theorem aliases_agree (rust js : Lowercase) (d : DomainDef) (hname : IdentText d.name)
    (haliases : ∀ entry ∈ d.aliases, OuterAscii entry) :
    Rust.domainAliases rust d = TypeScript.domainAliases js d ∧
      (Rust.domainAliases rust d).Nodup ∧ (Rust.domainAliases rust d).head? = some d.name := by
  have hplural := germanPlural_agrees rust js (ascii_of_ident hname)
  have hexpanded : d.aliases.map Rust.expandAlias = d.aliases.map TypeScript.expandAlias :=
    List.map_congr_left fun entry hentry => expandAlias_agrees (haliases entry hentry)
  refine ⟨?_, ?_, ?_⟩
  · rw [rust_aliases_eq, typeScript_aliases_eq, hplural, hexpanded]
  · rw [rust_aliases_eq, ← List.map_id (keepFirst _ _ _)]
    exact keepFirst_nodup
  · rw [rust_aliases_eq]
    rfl

/-- The case mapping of ASCII alone. -/
def asciiLowercase : Lowercase where
  map t := t.map Char.toLower
  ascii _ _ := rfl
  nonempty _ h := fun hmap => h (List.map_eq_nil_iff.mp hmap)

def personDomain : DomainDef where
  name := "person".toList
  source := "person".toList
  dsn := "db".toList
  aliases := [" personen".toList, "Mitarbeiter\t".toList, "  ".toList]

theorem outerAscii_of_all {t : Text} (hfront : (t.takeWhile isOuter).all (·.toNat < 128) = true)
    (hback : (t.reverse.takeWhile isOuter).all (·.toNat < 128) = true) : OuterAscii t :=
  ⟨fun c hc => of_decide_eq_true (List.all_eq_true.mp hfront c hc),
    fun c hc => of_decide_eq_true (List.all_eq_true.mp hback c hc)⟩

theorem personDomain_outer : ∀ entry ∈ personDomain.aliases, OuterAscii entry :=
  List.forall_mem_cons.mpr ⟨outerAscii_of_all (by decide) (by decide),
    List.forall_mem_cons.mpr ⟨outerAscii_of_all (by decide) (by decide),
      List.forall_mem_singleton.mpr (outerAscii_of_all (by decide) (by decide))⟩⟩

/-- An alias that repeats the plural, a synonym and a blank one. -/
theorem aliases_agree_person :
    Rust.domainAliases asciiLowercase personDomain =
        TypeScript.domainAliases asciiLowercase personDomain ∧
      (Rust.domainAliases asciiLowercase personDomain).Nodup ∧
      (Rust.domainAliases asciiLowercase personDomain).head? = some personDomain.name :=
  aliases_agree asciiLowercase asciiLowercase personDomain ⟨by decide, 'p', rfl, by decide⟩
    personDomain_outer

end Onisin.Dsl.Aliases
