import Onisin.Lib.Occurrences

/-!
Whole words in the user's text, and the domain and view they decide for. Strings are
sequences of code units, as `indexOf`, `length` and an index see them.
-/

set_option autoImplicit false

namespace Onisin.Ui.WordMatch
open Lib

abbrev JsString := List UInt16

/-- A string literal without characters outside the basic plane. -/
def units (s : String) : JsString := s.toList.map fun c => UInt16.ofNat c.toNat

/-- The class `[a-z0-9_äöüß]` under the flag `i`. The flag compares upper-case forms unit by
unit: it adds A to Z and the umlauts, but nothing for `ß`, whose upper case is two units,
and no unit above 127 for a letter below. -/
def isWordUnit (u : UInt16) : Bool :=
  (97 ≤ u && u ≤ 122) || (65 ≤ u && u ≤ 90) || (48 ≤ u && u ≤ 57) || u == 95 ||
    u == 0xE4 || u == 0xF6 || u == 0xFC || u == 0xC4 || u == 0xD6 || u == 0xDC || u == 0xDF

def isWordChar (ch : JsString) : Bool := if ch = [] then false else ch.any isWordUnit

/-- An element of the string by its index, as a string. -/
def unitAt (s : JsString) (i : Nat) : JsString := (s[i]?).toList

/-- The unit before and the unit after an occurrence at `idx`, empty at an end of the string. -/
def before (haystack : JsString) (idx : Nat) : JsString :=
  if idx = 0 then [] else unitAt haystack (idx - 1)

def after (haystack needle : JsString) (idx : Nat) : JsString :=
  if idx + needle.length = haystack.length then [] else unitAt haystack (idx + needle.length)

/-- The loop, from one value of its variable `from` on. -/
def containsFrom (haystack needle : JsString) (start : Nat) : Bool :=
  if _hguard : (start : Int) ≤ (haystack.length : Int) - needle.length then
    match hidx : indexOf haystack needle start with
    | none => false
    | some idx =>
      if !isWordChar (before haystack idx) && !isWordChar (after haystack needle idx) then true
      else containsFrom haystack needle (idx + 1)
  else false
termination_by haystack.length + 1 - start
decreasing_by
  have hle := (indexOf_some hidx).1
  omega

def containsWord (haystack needle : JsString) : Bool :=
  if needle = [] then false else containsFrom haystack needle 0

/-! What the loop finds. -/

variable {haystack needle : JsString} {start : Nat}

/-- An occurrence at `i` that touches no word character on either side. -/
structure WholeWordAt (haystack needle : JsString) (i : Nat) : Prop where
  occurs : needle <+: haystack.drop i
  clearBefore : isWordChar (before haystack i) = false
  clearAfter : isWordChar (after haystack needle i) = false

theorem wholeWordAt_of_check {idx : Nat} (hat : needle <+: haystack.drop idx)
    (hcheck : (!isWordChar (before haystack idx) && !isWordChar (after haystack needle idx)) = true) :
    WholeWordAt haystack needle idx := by
  rw [Bool.and_eq_true, Bool.not_eq_true', Bool.not_eq_true'] at hcheck
  exact ⟨hat, hcheck.1, hcheck.2⟩

theorem WholeWordAt.check {idx : Nat} (h : WholeWordAt haystack needle idx) :
    (!isWordChar (before haystack idx) && !isWordChar (after haystack needle idx)) = true := by
  rw [h.clearBefore, h.clearAfter]
  rfl

/-- No whole word begins before `from` that the loop has not reported: each turn answers for
the places from its own `from` on. -/
theorem containsFrom_iff (hne : needle ≠ []) :
    containsFrom haystack needle start = true ↔ ∃ i, start ≤ i ∧ WholeWordAt haystack needle i := by
  induction hleft : haystack.length + 1 - start using Nat.strongRecOn generalizing start with
  | ind left ih =>
    rw [containsFrom]
    split
    · next hguard =>
      split
      · next hidx =>
        constructor
        · intro h
          cases h
        · rintro ⟨i, hi, hword⟩
          exact absurd hword.occurs (indexOf_none hidx hi)
      · next idx hidx =>
        obtain ⟨hle, hat, hskipped⟩ := indexOf_some hidx
        split
        · next hcheck => exact iff_of_true rfl ⟨idx, hle, wholeWordAt_of_check hat hcheck⟩
        · next hcheck =>
          rw [ih (haystack.length + 1 - (idx + 1)) (by omega) rfl]
          constructor
          · rintro ⟨i, hi, hword⟩
            exact ⟨i, by omega, hword⟩
          · rintro ⟨i, hi, hword⟩
            -- `i` is neither skipped by the search nor the place just rejected
            have hnot : ¬ i < idx := fun hlt => hskipped i hi hlt hword.occurs
            have hother : i ≠ idx := by
              rintro rfl
              exact hcheck hword.check
            exact ⟨i, by omega, hword⟩
    · next hguard =>
      constructor
      · intro h
        cases h
      · rintro ⟨i, hi, hword⟩
        have hend := end_le_of_occurs hne hword.occurs
        omega

/-! The same by the text on both sides. -/

theorem isWordChar_toList (u : Option UInt16) :
    isWordChar u.toList = false ↔ ∀ c, u = some c → isWordChar [c] = false := by
  cases u with
  | none => exact iff_of_true rfl fun c hc => by cases hc
  | some c =>
    constructor
    · rintro h d hd
      cases hd
      exact h
    · exact fun h => h c rfl

theorem before_split (pre rest : JsString) : before (pre ++ rest) pre.length = pre.getLast?.toList := by
  cases hpre : pre.reverse with
  | nil =>
    rw [List.reverse_eq_nil_iff.mp hpre]
    rfl
  | cons c initial =>
    have hsplit : pre = initial.reverse ++ [c] := by
      rw [← List.reverse_reverse pre, hpre, List.reverse_cons]
    rw [hsplit, before, if_neg (by simp), unitAt, List.getLast?_concat]
    simp

theorem after_split (pre needle post : JsString) :
    after (pre ++ needle ++ post) needle pre.length = post.head?.toList := by
  rw [after]
  cases post with
  | nil => rw [if_pos (by simp)]; rfl
  | cons c post =>
    rw [if_neg (by simp), unitAt, List.getElem?_append_right (by simp)]
    simp

/-- The needle stands somewhere in the haystack as a word of its own. -/
def HasWord (haystack needle : JsString) : Prop :=
  needle ≠ [] ∧ ∃ i, WholeWordAt haystack needle i

theorem containsWord_iff_hasWord : containsWord haystack needle = true ↔ HasWord haystack needle := by
  rw [containsWord, HasWord]
  split
  · next hnil => exact iff_of_false (by decide) fun h => h.1 hnil
  · next hne =>
    rw [containsFrom_iff hne]
    constructor
    · rintro ⟨i, -, hword⟩
      exact ⟨hne, i, hword⟩
    · rintro ⟨-, i, hword⟩
      exact ⟨i, Nat.zero_le _, hword⟩

/-- `containsWord` decides whole-word occurrence. -/
theorem containsWord_iff (haystack needle : JsString) :
    containsWord haystack needle = true ↔
      needle ≠ [] ∧ ∃ pre post, haystack = pre ++ needle ++ post ∧
        (∀ c, pre.getLast? = some c → isWordChar [c] = false) ∧
        (∀ c, post.head? = some c → isWordChar [c] = false) := by
  rw [containsWord_iff_hasWord, HasWord]
  refine and_congr_right fun hne => ?_
  constructor
  · rintro ⟨i, hword⟩
    obtain ⟨pre, post, hsplit, rfl⟩ := split_of_occurs hne hword.occurs
    refine ⟨pre, post, hsplit, ?_, ?_⟩
    · have hbefore := hword.clearBefore
      rw [hsplit, List.append_assoc, before_split] at hbefore
      exact (isWordChar_toList _).mp hbefore
    · have hafter := hword.clearAfter
      rw [hsplit, after_split] at hafter
      exact (isWordChar_toList _).mp hafter
  · rintro ⟨pre, post, rfl, hpre, hpost⟩
    refine ⟨pre.length, occurs_of_split pre needle post, ?_, ?_⟩
    · rw [List.append_assoc, before_split]
      exact (isWordChar_toList _).mpr hpre
    · rw [after_split]
      exact (isWordChar_toList _).mpr hpost

/-! The decisions that rest on it. -/

structure DomainIndexEntry where
  name : JsString
  aliases : List JsString

structure ViewIndexEntry where
  name : JsString
  domain : JsString
  isDefault : Bool

structure ResolveResult where
  domain : Option DomainIndexEntry := none
  views : List ViewIndexEntry
  suggestion : Option ViewIndexEntry := none

section Resolver

/-! The lower case and the collation of the engine, and the two lists once they are loaded. -/
variable (toLowerCase : JsString → JsString) (localeCompare : JsString → JsString → Int)
  (domains : List DomainIndexEntry) (views : List ViewIndexEntry)

def includes (s part : JsString) : Bool := (indexOf s part 0).isSome

def listMarkers : List JsString := ["_list", "_index", "_table", "_overview"].map units
def detailMarkers : List JsString := ["_detail", "_edit", "_form", "_new"].map units

def pickListyView : Option ViewIndexEntry :=
  (views.find? fun v =>
    listMarkers.any fun m => toLowerCase v.name = m.drop 1 || includes (toLowerCase v.name) m).or
  (views.find? fun v => !detailMarkers.any fun m => includes (toLowerCase v.name) m)

/-- Default views come first, then the names decide. -/
def viewOrder (a b : ViewIndexEntry) : Int :=
  if a.isDefault = b.isDefault then localeCompare a.name b.name
  else (if b.isDefault then 1 else 0) - (if a.isDefault then 1 else 0)

def viewsOf (domain : DomainIndexEntry) : List ViewIndexEntry :=
  (views.filter fun v => v.domain = domain.name).mergeSort fun a b => viewOrder localeCompare a b ≤ 0

def shapeResult (domain : DomainIndexEntry) (lower : JsString) : ResolveResult :=
  let views := viewsOf localeCompare views domain
  let named := views.find? fun v => containsWord lower (toLowerCase v.name)
  { domain := some domain
    views := views
    suggestion := ((named.or (views.find? ViewIndexEntry.isDefault)).or
      (pickListyView toLowerCase views)).or views.head? }

def resolveText (text : JsString) : ResolveResult :=
  let lower := toLowerCase text
  let domain := domains.find? fun d => d.aliases.any fun a => containsWord lower (toLowerCase a)
  match domain with
  | none => { views := [] }
  | some domain => shapeResult toLowerCase localeCompare views domain lower

variable {toLowerCase localeCompare domains views} {text : JsString}

/-- Some phrasing of the domain is a word of the text. -/
def Mentions (toLowerCase : JsString → JsString) (text : JsString) (d : DomainIndexEntry) : Prop :=
  ∃ a ∈ d.aliases, HasWord (toLowerCase text) (toLowerCase a)

theorem mentions_iff (d : DomainIndexEntry) :
    (d.aliases.any fun a => containsWord (toLowerCase text) (toLowerCase a)) = true ↔
      Mentions toLowerCase text d := by
  simp only [List.any_eq_true, containsWord_iff_hasWord, Mentions]

/-- The first domain the text mentions is picked, and none only if there is none. -/
theorem resolveText_domain (d : DomainIndexEntry) :
    (resolveText toLowerCase localeCompare domains views text).domain = some d ↔
      ∃ pre post, domains = pre ++ d :: post ∧ Mentions toLowerCase text d ∧
        ∀ e ∈ pre, ¬ Mentions toLowerCase text e := by
  have hpicked : (resolveText toLowerCase localeCompare domains views text).domain =
      domains.find? fun d => d.aliases.any fun a =>
        containsWord (toLowerCase text) (toLowerCase a) := by
    rw [resolveText]
    split
    · next h => exact h.symm
    · next h => exact h.symm
  rw [hpicked, List.find?_eq_some_iff_append]
  constructor
  · rintro ⟨hd, pre, post, hsplit, hpre⟩
    refine ⟨pre, post, hsplit, (mentions_iff d).mp hd, ?_⟩
    intro e he hm
    have hno := hpre e he
    rw [(mentions_iff e).mpr hm] at hno
    cases hno
  · rintro ⟨pre, post, hsplit, hd, hpre⟩
    refine ⟨(mentions_iff d).mpr hd, pre, post, hsplit, ?_⟩
    intro e he
    rw [Bool.not_eq_true']
    exact Bool.eq_false_iff.mpr fun hm => hpre e he ((mentions_iff e).mp hm)

/-- A view whose name is a word of the text goes before every other choice. -/
theorem shapeResult_named {domain : DomainIndexEntry} {lower : JsString} {v : ViewIndexEntry}
    (hv : v ∈ viewsOf localeCompare views domain) (hnamed : HasWord lower (toLowerCase v.name)) :
    ∃ w ∈ viewsOf localeCompare views domain, HasWord lower (toLowerCase w.name) ∧
      (shapeResult toLowerCase localeCompare views domain lower).suggestion = some w := by
  cases hfind : (viewsOf localeCompare views domain).find? fun v =>
      containsWord lower (toLowerCase v.name) with
  | none => exact absurd (containsWord_iff_hasWord.mpr hnamed) (List.find?_eq_none.mp hfind v hv)
  | some w =>
    have hw : containsWord lower (toLowerCase w.name) = true :=
      @List.find?_some ViewIndexEntry (fun v => containsWord lower (toLowerCase v.name)) _ _ hfind
    refine ⟨w, List.mem_of_find?_eq_some hfind, containsWord_iff_hasWord.mp hw, ?_⟩
    simp only [shapeResult, hfind, Option.some_or]

end Resolver

end Onisin.Ui.WordMatch
