import Onisin.Lib.Text

/-!
White space as ECMAScript has it: the byte order mark counts, the next-line control does not.
-/

set_option autoImplicit false

namespace Onisin.Lib

/-- The characters of `\s`, which are also those that `trim` removes. -/
def isJsSpace (c : Char) : Bool :=
  let n := c.toNat
  (9 ≤ n && n ≤ 13) || n == 0x20 || n == 0xA0 || n == 0x1680 || (0x2000 ≤ n && n ≤ 0x200A) ||
    n == 0x2028 || n == 0x2029 || n == 0x202F || n == 0x205F || n == 0x3000 || n == 0xFEFF

def Text.jsTrim (t : Text) : Text :=
  ((t.dropWhile isJsSpace).reverse.dropWhile isJsSpace).reverse

/-! Trimming. -/

def Text.trimBy (space : Char → Bool) (t : Text) : Text :=
  ((t.dropWhile space).reverse.dropWhile space).reverse

theorem Text.trim_eq (t : Text) : Text.trim t = Text.trimBy isWhitespace t := rfl

theorem Text.jsTrim_eq (t : Text) : Text.jsTrim t = Text.trimBy isJsSpace t := rfl

theorem head?_dropWhile {space : Char → Bool} {t : Text} : ∀ c ∈ (t.dropWhile space).head?, space c = false := by
  induction t with
  | nil => exact nofun
  | cons d t ih =>
    cases hd : space d with
    | true => rwa [List.dropWhile_cons_of_pos hd]
    | false =>
      rw [List.dropWhile_cons_of_neg (by simp [hd])]
      rintro c hc
      cases hc
      exact hd

theorem Text.trimBy_of_none {space : Char → Bool} {t : Text} (h : ∀ c ∈ t, space c = false) :
    Text.trimBy space t = t := by
  have hdrop : ∀ t : Text, (∀ c ∈ t, space c = false) → t.dropWhile space = t := by
    intro t ht
    cases t with
    | nil => rfl
    | cons c t => exact List.dropWhile_cons_of_neg (by simp [ht c List.mem_cons_self])
  rw [Text.trimBy, hdrop t h, hdrop _ fun c hc => h c (List.mem_reverse.mp hc), List.reverse_reverse]

theorem Text.trimBy_of_ends {space : Char → Bool} {c d : Char} (hc : space c = false) (hd : space d = false)
    (m : Text) : Text.trimBy space (c :: (m ++ [d])) = c :: (m ++ [d]) := by
  have hrev : (c :: (m ++ [d])).reverse = d :: (c :: m).reverse := by simp
  rw [Text.trimBy, List.dropWhile_cons_of_neg (by simp [hc]), hrev,
    List.dropWhile_cons_of_neg (by simp [hd]), ← hrev, List.reverse_reverse]

theorem Text.length_trimBy_le (space : Char → Bool) (t : Text) : (Text.trimBy space t).length ≤ t.length := by
  rw [Text.trimBy, List.length_reverse]
  refine (List.dropWhile_suffix _).length_le.trans ?_
  rw [List.length_reverse]
  exact (List.dropWhile_suffix _).length_le

/-- The visible characters of ASCII. -/
def isGraphic (c : Char) : Bool := 33 ≤ c.toNat && c.toNat ≤ 126

theorem isGraphic_of_isDigit {c : Char} (h : c.isDigit = true) : isGraphic c = true := by
  have hrange : 48 ≤ c.toNat ∧ c.toNat ≤ 57 := Char.isDigit_iff_toNat.mp h
  rw [isGraphic, Bool.and_eq_true, decide_eq_true_eq, decide_eq_true_eq]
  omega

theorem not_space_of_isGraphic {c : Char} (h : isGraphic c = true) :
    isWhitespace c = false ∧ isJsSpace c = false := by
  rw [isGraphic, Bool.and_eq_true, decide_eq_true_eq, decide_eq_true_eq] at h
  unfold isWhitespace isJsSpace
  simp only [Bool.or_eq_false_iff, Bool.and_eq_false_iff, beq_eq_false_iff_ne, decide_eq_false_iff_not]
  omega

theorem trim_of_isGraphic {t : Text} (h : ∀ c ∈ t, isGraphic c = true) :
    Text.trim t = t ∧ Text.jsTrim t = t := by
  rw [Text.trim_eq, Text.jsTrim_eq]
  exact ⟨Text.trimBy_of_none fun c hc => (not_space_of_isGraphic (h c hc)).1,
    Text.trimBy_of_none fun c hc => (not_space_of_isGraphic (h c hc)).2⟩

/-- What is left of a text has something that is not space at both ends, and only space around it. -/
structure Trimmed (space : Char → Bool) (t before m after : Text) : Prop where
  text : t = before ++ m ++ after
  before : ∀ c ∈ before, space c = true
  after : ∀ c ∈ after, space c = true
  head : ∀ c ∈ m.head?, space c = false
  last : ∀ c ∈ m.getLast?, space c = false

theorem Text.trimBy_trimmed (space : Char → Bool) (t : Text) :
    ∃ before after, Trimmed space t before (Text.trimBy space t) after := by
  have hinner : t.dropWhile space =
      Text.trimBy space t ++ ((t.dropWhile space).reverse.takeWhile space).reverse := by
    rw [Text.trimBy, ← List.reverse_append, List.takeWhile_append_dropWhile, List.reverse_reverse]
  refine ⟨t.takeWhile space, ((t.dropWhile space).reverse.takeWhile space).reverse, ⟨?_, ?_, ?_, ?_, ?_⟩⟩
  · rw [List.append_assoc, ← hinner, List.takeWhile_append_dropWhile]
  · exact List.all_eq_true.mp List.all_takeWhile
  · intro c hc
    exact List.all_eq_true.mp List.all_takeWhile c (List.mem_reverse.mp hc)
  · intro c hc
    refine head?_dropWhile (t := t) c ?_
    rw [hinner, List.head?_append, Option.mem_def.mp hc]
    rfl
  · intro c hc
    rw [Text.trimBy, List.getLast?_reverse] at hc
    exact head?_dropWhile c hc

theorem Trimmed.getElem? {space : Char → Bool} {t b m a : Text} (h : Trimmed space t b m a) (i : Nat) :
    t[i]? = if i < b.length then b[i]? else
      if i < b.length + m.length then m[i - b.length]? else a[i - (b.length + m.length)]? := by
  rw [h.text, List.append_assoc, List.getElem?_append, List.getElem?_append]
  split
  · rfl
  · have hlt : i - b.length < m.length ↔ i < b.length + m.length := by omega
    simp only [hlt, Nat.sub_add_eq]

/-- A place that holds no space is a place of what is left. -/
theorem Trimmed.inner {space : Char → Bool} {t b m a : Text} (h : Trimmed space t b m a) {i : Nat} {x : Char}
    (hx : t[i]? = some x) (hspace : space x = false) : b.length ≤ i ∧ m[i - b.length]? = some x := by
  rw [h.getElem? i] at hx
  split at hx
  · exact absurd (h.before x (List.mem_of_getElem? hx)) (by simp [hspace])
  · split at hx
    · exact ⟨by omega, hx⟩
    · exact absurd (h.after x (List.mem_of_getElem? hx)) (by simp [hspace])

theorem Trimmed.length {space : Char → Bool} {t b m a : Text} (h : Trimmed space t b m a) :
    t.length = b.length + m.length + a.length := by
  rw [h.text, List.length_append, List.length_append]

/-- If the space of one text is found in another at the same places, and both are trimmed to the
same text, then they are the same. -/
theorem trimmed_eq {space space' : Char → Bool} {u w b a b' a' m : Text}
    (hu : Trimmed space u b m a) (hw : Trimmed space' w b' m a') (hlen : u.length = w.length)
    (hsame : ∀ (i : Nat) (x : Char), u[i]? = some x → space x = true → w[i]? = some x) : u = w := by
  have hulen := hu.length
  have hwlen := hw.length
  have hbefore : m ≠ [] → b.length = b'.length := by
    intro hm
    have hpos : 0 < m.length := List.length_pos_iff.mpr hm
    obtain hlt | heq | hgt := Nat.lt_trichotomy b.length b'.length
    · -- the last character of what is left is space in the first text
      obtain ⟨x, hx⟩ : ∃ x, u[b'.length + m.length - 1]? = some x :=
        ⟨_, List.getElem?_eq_getElem (by omega)⟩
      have hspace : space x = true := by
        rw [hu.getElem?, if_neg (by omega), if_neg (by omega)] at hx
        exact hu.after x (List.mem_of_getElem? hx)
      have hlast := hsame _ x hx hspace
      rw [hw.getElem?, if_neg (by omega), if_pos (by omega)] at hlast
      have hindex : b'.length + m.length - 1 - b'.length = m.length - 1 := by omega
      rw [hindex, ← List.getLast?_eq_getElem?] at hlast
      exact absurd hspace (by simp [hu.last x hlast])
    · exact heq
    · -- and here its first one is
      obtain ⟨x, hx⟩ : ∃ x, u[b'.length]? = some x := ⟨_, List.getElem?_eq_getElem (by omega)⟩
      have hspace : space x = true := by
        rw [hu.getElem?, if_pos hgt] at hx
        exact hu.before x (List.mem_of_getElem? hx)
      have hfirst := hsame _ x hx hspace
      rw [hw.getElem?, if_neg (by omega), if_pos (by omega), Nat.sub_self, ← List.head?_eq_getElem?] at hfirst
      exact absurd hspace (by simp [hu.head x hfirst])
  refine List.ext_getElem? fun i => ?_
  cases hx : u[i]? with
  | none =>
    rw [List.getElem?_eq_none_iff] at hx
    exact (List.getElem?_eq_none (by omega)).symm
  | some x =>
    cases hspace : space x with
    | true => exact (hsame i x hx hspace).symm
    | false =>
      obtain ⟨hle, hm⟩ := hu.inner hx hspace
      have hlt : i - b.length < m.length := (List.getElem?_eq_some_iff.mp hm).1
      have hb := hbefore (List.ne_nil_of_length_pos (by omega))
      rw [hw.getElem?, if_neg (by omega), if_pos (by omega), ← hb, hm]

end Onisin.Lib
