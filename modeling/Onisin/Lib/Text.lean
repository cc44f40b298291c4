import Mathlib.Data.List.Infix
import Mathlib.Data.List.Sort

/-!
Texts as sequences of characters, with the string operations that renderers and parsers are
written in. A length in bytes is a length of the UTF-8 form; since no character's form starts
another's, prefixes of texts and prefixes of their bytes are the same thing.
-/

set_option autoImplicit false

namespace Onisin.Lib

abbrev Text := List Char

/-- The code points with the Unicode property `White_Space`. -/
def isWhitespace (c : Char) : Bool :=
  let n := c.toNat
  (9 ≤ n && n ≤ 13) || n == 0x20 || n == 0x85 || n == 0xA0 || n == 0x1680 ||
    (0x2000 ≤ n && n ≤ 0x200A) || n == 0x2028 || n == 0x2029 || n == 0x202F || n == 0x205F ||
    n == 0x3000

def Text.trim (t : Text) : Text :=
  ((t.dropWhile isWhitespace).reverse.dropWhile isWhitespace).reverse

/-- What stands before the first occurrence of `pat`, if there is one. -/
def Text.beforeFirst (pat : Text) : Text → Option Text
  | [] => if pat = [] then some [] else none
  | c :: t => if pat <+: c :: t then some [] else (Text.beforeFirst pat t).map (c :: ·)

/-- `cur` is the piece being read and `skip` what is left of a separator just met. -/
def Text.splitFrom (pat : Text) : Nat → Text → Text → List Text
  | _, cur, [] => [cur]
  | skip + 1, cur, _ :: t => Text.splitFrom pat skip cur t
  | 0, cur, c :: t =>
    if pat <+: c :: t then cur :: Text.splitFrom pat (pat.length - 1) [] t
    else Text.splitFrom pat 0 (cur ++ [c]) t

/-- The pieces between the leftmost non-overlapping occurrences of a non-empty `pat`. -/
def Text.split (pat t : Text) : List Text := Text.splitFrom pat 0 [] t

def Text.join (sep : Text) : List Text → Text
  | [] => []
  | [t] => t
  | t :: ts => t ++ sep ++ Text.join sep ts

theorem Text.join_cons (sep t : Text) (ts : List Text) :
    Text.join sep (t :: ts) = t ++ if ts = [] then [] else sep ++ Text.join sep ts := by
  cases ts with
  | nil => simp [Text.join]
  | cons t' ts => simp [Text.join]

def Text.stripSuffix (suf t : Text) : Option Text :=
  if suf <:+ t then some (t.take (t.length - suf.length)) else none

def Text.stripPrefix (pre t : Text) : Option Text :=
  if pre <+: t then some (t.drop pre.length) else none

/-- The order of texts by code point, which is the order of their bytes. -/
def Text.precedes : Text → Text → Bool
  | [], _ => true
  | _ :: _, [] => false
  | c :: s, d :: t => c.toNat < d.toNat || (c.toNat == d.toNat && Text.precedes s t)

def sortByKey {α : Type} (entries : List (Text × α)) : List (Text × α) :=
  entries.insertionSort fun a b => Text.precedes a.1 b.1 = true

theorem span_append {α : Type} {p : α → Bool} {l rest : List α} (hl : ∀ a ∈ l, p a = true)
    (hrest : ∀ a ∈ rest.head?, p a = false) : (l ++ rest).span p = (l, rest) := by
  rw [List.span_eq_takeWhile_dropWhile, List.takeWhile_append_of_pos hl, List.dropWhile_append_of_pos hl]
  cases rest with
  | nil => simp
  | cons a rest =>
    have ha : ¬ p a = true := Bool.eq_false_iff.mp (hrest a rfl)
    rw [List.takeWhile_cons_of_neg ha, List.dropWhile_cons_of_neg ha, List.append_nil]

theorem Text.stripSuffix_append (t suf : Text) : Text.stripSuffix suf (t ++ suf) = some t := by
  simp [Text.stripSuffix]

theorem Text.stripSuffix_none {suf t : Text} (h : ¬ suf <:+ t) : Text.stripSuffix suf t = none :=
  if_neg h

theorem Text.stripPrefix_append (pre t : Text) : Text.stripPrefix pre (pre ++ t) = some t := by
  simp [Text.stripPrefix]

theorem Text.stripPrefix_none {pre t : Text} (h : ¬ pre <+: t) : Text.stripPrefix pre t = none :=
  if_neg h

/-- Trimming keeps a last character that is no white space. -/
theorem Text.trim_getLast {t : Text} {c : Char} (hc : isWhitespace c = false)
    (h : t.getLast? = some c) : t.trim.getLast? = some c := by
  obtain ⟨s, rfl⟩ := List.getLast?_eq_some_iff.mp h
  have hrev : ((s ++ [c]).dropWhile isWhitespace).reverse.head? = some c := by
    rw [List.head?_reverse]
    induction s with
    | nil => simp [hc]
    | cons d s ih =>
      rw [List.cons_append, List.dropWhile_cons]
      split
      · exact ih (by rw [List.getLast?_concat])
      · rw [← List.cons_append, List.getLast?_concat]
  obtain ⟨rest, hrest⟩ := List.head?_eq_some_iff.mp hrev
  rw [Text.trim, hrest, List.dropWhile_cons_of_neg (by simp [hc]), ← hrest, List.reverse_reverse]
  rw [← List.head?_reverse]
  exact hrev

/-! Bytes. -/

def utf8 (t : Text) : List UInt8 := t.flatMap String.utf8EncodeChar

@[simp] theorem utf8_nil : utf8 [] = [] := rfl

@[simp] theorem utf8_append (s t : Text) : utf8 (s ++ t) = utf8 s ++ utf8 t := List.flatMap_append

theorem utf8_cons (c : Char) (t : Text) : utf8 (c :: t) = String.utf8EncodeChar c ++ utf8 t := rfl

/-- The character that a sequence of bytes starts with is determined by the bytes. -/
theorem utf8EncodeChar_append_inj {c d : Char} {x y : List UInt8}
    (h : String.utf8EncodeChar c ++ x = String.utf8EncodeChar d ++ y) : c = d := by
  have hc := @ByteArray.utf8DecodeChar?_utf8EncodeChar_append x.toByteArray c
  have hd := @ByteArray.utf8DecodeChar?_utf8EncodeChar_append y.toByteArray d
  rw [← List.toByteArray_append, h, List.toByteArray_append, hd] at hc
  exact (Option.some.inj hc).symm

theorem utf8_prefix_iff {s t : Text} : utf8 s <+: utf8 t ↔ s <+: t := by
  constructor
  · intro h
    induction s generalizing t with
    | nil => exact List.nil_prefix
    | cons c s ih =>
      obtain ⟨rest, h⟩ := h
      cases t with
      | nil =>
        have hlen := congrArg List.length h
        have hpos := c.utf8Size_pos
        simp only [utf8_cons, utf8_nil, List.length_append, String.length_utf8EncodeChar,
          List.length_nil] at hlen
        omega
      | cons d t =>
        rw [utf8_cons, utf8_cons, List.append_assoc] at h
        obtain rfl := utf8EncodeChar_append_inj h
        exact List.prefix_cons_inj c |>.mpr (ih ⟨rest, List.append_cancel_left h⟩)
  · rintro ⟨rest, rfl⟩
    rw [utf8_append]
    exact List.prefix_append _ _

theorem utf8_injective {s t : Text} (h : utf8 s = utf8 t) : s = t :=
  (utf8_prefix_iff.mp (h ▸ List.prefix_refl _)).eq_of_length_le
    (utf8_prefix_iff.mp (h ▸ List.prefix_refl _)).length_le

/-- The length of a text in bytes. -/
def byteLen (t : Text) : Nat := (utf8 t).length

@[simp] theorem byteLen_nil : byteLen [] = 0 := rfl

@[simp] theorem byteLen_append (s t : Text) : byteLen (s ++ t) = byteLen s + byteLen t := by
  simp [byteLen]

theorem byteLen_pos {t : Text} (h : t ≠ []) : 0 < byteLen t := by
  cases t with
  | nil => exact absurd rfl h
  | cons c t =>
    have hc := c.utf8Size_pos
    rw [byteLen, utf8_cons, List.length_append, String.length_utf8EncodeChar]
    omega

/-- A proper prefix is shorter in bytes. -/
theorem byteLen_lt {s t : Text} (h : s <+: t) (hne : s ≠ t) : byteLen s < byteLen t := by
  obtain ⟨rest, rfl⟩ := h
  have hrest : rest ≠ [] := fun hnil => hne (by rw [hnil, List.append_nil])
  have hpos := byteLen_pos hrest
  rw [byteLen_append]
  omega

theorem utf8_take_byteLen (s t : Text) : (utf8 (s ++ t)).take (byteLen s) = utf8 s := by
  rw [utf8_append, byteLen, List.take_left]

/-- The text from a byte offset on, absent if the offset is inside a character. -/
def Text.sliceFrom : Nat → Text → Option Text
  | 0, t => some t
  | _ + 1, [] => none
  | n + 1, c :: t => if c.utf8Size ≤ n + 1 then Text.sliceFrom (n + 1 - c.utf8Size) t else none
termination_by structural _ t => t

theorem Text.sliceFrom_append (s t : Text) : Text.sliceFrom (byteLen s) (s ++ t) = some t := by
  induction s with
  | nil => rw [byteLen, utf8_nil, List.length_nil, List.nil_append, Text.sliceFrom]
  | cons c s ih =>
    have hlen : byteLen (c :: s) = c.utf8Size + byteLen s := by
      rw [byteLen, utf8_cons, List.length_append, String.length_utf8EncodeChar, byteLen]
    have hpos := c.utf8Size_pos
    obtain ⟨n, hn⟩ : ∃ n, c.utf8Size + byteLen s = n + 1 := ⟨c.utf8Size + byteLen s - 1, by omega⟩
    rw [hlen, hn, List.cons_append, Text.sliceFrom, if_pos (by omega), ← hn,
      Nat.add_sub_cancel_left, ih]

end Onisin.Lib
