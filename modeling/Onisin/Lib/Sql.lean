import Mathlib.Data.List.Nodup
import Onisin.Lib.Text

/-!
A fragment of SQL: single-table statements with numbered parameters. A text is cut into tokens,
the tokens are read as a statement, and a statement runs over a database. What values there are,
how a text is cast to one and how values compare is left to an engine.
-/

set_option autoImplicit false

namespace Onisin.Lib.Sql

/-! Tokens. -/

/-- The reserved words of the fragment. -/
inductive Key where
  | select
  | from_
  | where_
  | and_
  | as_
  | order
  | limit
  | asc
  | desc
  | into
  | returning
  | ilike
  | create
  | table
  | not_
  | primary
  deriving DecidableEq, Repr

inductive Comparison where
  | eq
  | ne
  | lt
  | le
  | gt
  | ge
  deriving DecidableEq, Repr

inductive Token where
  | key (k : Key)
  /-- A word that is reserved for other statements. -/
  | reserved (t : Text)
  /-- Any other word, in lower case. -/
  | word (t : Text)
  | quoted (t : Text)
  | param (n : Nat)
  | number (n : Nat)
  | cmp (c : Comparison)
  | cast
  | lparen
  | rparen
  | comma
  | dot
  | semicolon
  | other (t : Text)
  deriving DecidableEq, Repr

def keys : List (Text × Key) :=
  [("select".toList, .select), ("from".toList, .from_), ("where".toList, .where_), ("and".toList, .and_),
    ("as".toList, .as_), ("order".toList, .order), ("limit".toList, .limit), ("asc".toList, .asc),
    ("desc".toList, .desc), ("into".toList, .into), ("returning".toList, .returning),
    ("ilike".toList, .ilike), ("create".toList, .create), ("table".toList, .table), ("not".toList, .not_),
    ("primary".toList, .primary)]

/-- By their first letters. -/
def otherReserved : Char → List String
  | 'a' => ["all", "analyse", "analyze", "any", "array", "asymmetric", "authorization"]
  | 'b' => ["binary", "both"]
  | 'c' => ["case", "cast", "check", "collate", "collation", "column", "concurrently", "constraint",
      "cross", "current_catalog", "current_date", "current_role", "current_schema", "current_time",
      "current_timestamp", "current_user"]
  | 'd' => ["default", "deferrable", "distinct", "do"]
  | 'e' => ["else", "end", "except"]
  | 'f' => ["false", "fetch", "for", "foreign", "freeze", "full"]
  | 'g' => ["grant", "group"]
  | 'h' => ["having"]
  | 'i' => ["in", "initially", "inner", "intersect", "is", "isnull"]
  | 'j' => ["join"]
  | 'l' => ["lateral", "leading", "left", "like", "localtime", "localtimestamp"]
  | 'n' => ["natural", "notnull", "null"]
  | 'o' => ["offset", "on", "only", "or", "outer", "overlaps"]
  | 'p' => ["placing"]
  | 'r' => ["references", "right"]
  | 's' => ["session_user", "similar", "some", "symmetric", "system_user"]
  | 't' => ["tablesample", "then", "to", "trailing", "true"]
  | 'u' => ["union", "unique", "user", "using"]
  | 'v' => ["variadic", "verbose"]
  | 'w' => ["when", "window", "with"]
  | _ => []

def isOtherReserved (t : Text) : Bool := (t.head?.map otherReserved).any fun words =>
  words.any fun word => t = word.toList

/-- A word that is not quoted means the one in lower case. -/
def fold (t : Text) : Text := t.map Char.toLower

def wordToken (t : Text) : Token :=
  match keys.lookup (fold t) with
  | some k => .key k
  | none => if isOtherReserved (fold t) then .reserved (fold t) else .word (fold t)

def isWordStart (c : Char) : Bool := c = '_' || c.isAlpha

def isWordChar (c : Char) : Bool := isWordStart c || c.isDigit

def digitValue (c : Char) : Nat := c.toNat - '0'.toNat

/-- A token that the next character may belong to. -/
inductive Pending where
  | idle
  | word (t : Text)
  | quoted (t : Text)
  | param (n : Nat)
  | number (n : Nat)
  | sym (t : Text)
  deriving DecidableEq, Repr

def symToken (t : Text) : Token :=
  if t = "=".toList then .cmp .eq
  else if t = "<>".toList then .cmp .ne
  else if t = "<".toList then .cmp .lt
  else if t = "<=".toList then .cmp .le
  else if t = ">".toList then .cmp .gt
  else if t = ">=".toList then .cmp .ge
  else if t = "::".toList then .cast
  else .other t

def flush : Pending → List Token
  | .idle => []
  | .word t => [wordToken t]
  | .quoted t => [.other ('"' :: t)]
  | .param n => [.param n]
  | .number n => [.number n]
  | .sym t => [symToken t]

def start (c : Char) : List Token × Pending :=
  if isWordStart c then ([], .word [c])
  else if c.isDigit then ([], .number (digitValue c))
  else if isWhitespace c then ([], .idle)
  else if c = '$' then ([], .param 0)
  else if c = '"' then ([], .quoted [])
  else if c = '<' ∨ c = '>' ∨ c = ':' ∨ c = '=' then ([], .sym [c])
  else if c = '(' then ([.lparen], .idle)
  else if c = ')' then ([.rparen], .idle)
  else if c = ',' then ([.comma], .idle)
  else if c = '.' then ([.dot], .idle)
  else if c = ';' then ([.semicolon], .idle)
  else ([.other [c]], .idle)

def extend : Pending → Char → Option Pending
  | .idle, _ => none
  | .word t, c => if isWordChar c then some (.word (t ++ [c])) else none
  | .quoted _, _ => none
  | .param n, c => if c.isDigit then some (.param (10 * n + digitValue c)) else none
  | .number n, c => if c.isDigit then some (.number (10 * n + digitValue c)) else none
  | .sym t, c =>
    if [("<".toList, '>'), ("<".toList, '='), (">".toList, '='), (":".toList, ':')].contains (t, c) then
      some (.sym (t ++ [c]))
    else none

def lexStep : Pending → Char → List Token × Pending
  | .quoted t, c => if c = '"' then ([.quoted t], .idle) else ([], .quoted (t ++ [c]))
  | p, c =>
    match extend p c with
    | some q => ([], q)
    | none => (flush p ++ (start c).1, (start c).2)

def scan : Pending → Text → List Token × Pending
  | p, [] => ([], p)
  | p, c :: t =>
    let s := lexStep p c
    let r := scan s.2 t
    (s.1 ++ r.1, r.2)

def tokens (t : Text) : List Token :=
  let r := scan .idle t
  r.1 ++ flush r.2

theorem scan_append (p : Pending) (a b : Text) :
    scan p (a ++ b) = ((scan p a).1 ++ (scan (scan p a).2 b).1, (scan (scan p a).2 b).2) := by
  induction a generalizing p with
  | nil => rfl
  | cons c a ih => simp only [List.cons_append, scan, ih, List.append_assoc]

/-- The token ends before any character that a word cannot have. -/
def Pending.Ends (p : Pending) : Prop :=
  ∀ c, isWordChar c = false → lexStep p c = (flush p ++ (start c).1, (start c).2)

/-- The text is these tokens, whatever comes behind it without a word character in between. -/
structure Lexes (t : Text) (ks : List Token) : Prop where
  reads : (scan .idle t).1 ++ flush (scan .idle t).2 = ks
  ends : (scan .idle t).2.Ends

/-- Nothing is pending behind the text. -/
def Closed (t : Text) : Prop := (scan .idle t).2 = .idle

instance (t : Text) : Decidable (Closed t) := inferInstanceAs (Decidable (_ = _))

theorem Lexes.tokens {t : Text} {ks : List Token} (h : Lexes t ks) : tokens t = ks := h.reads

theorem idle_ends : Pending.idle.Ends := fun _ _ => rfl

theorem isDigit_of_not_wordChar {c : Char} (h : isWordChar c = false) : c.isDigit = false :=
  (Bool.or_eq_false_iff.mp h).2

theorem word_ends (t : Text) : (Pending.word t).Ends := by
  intro c hc
  simp [lexStep, extend, hc]

theorem param_ends (n : Nat) : (Pending.param n).Ends := by
  intro c hc
  simp [lexStep, extend, isDigit_of_not_wordChar hc]

theorem number_ends (n : Nat) : (Pending.number n).Ends := by
  intro c hc
  simp [lexStep, extend, isDigit_of_not_wordChar hc]

theorem lexes_closed {t : Text} {ks : List Token} (h : scan .idle t = (ks, .idle)) : Lexes t ks := by
  constructor
  · rw [h]
    exact List.append_nil ks
  · rw [h]
    exact idle_ends

theorem Lexes.append {a b : Text} {ks ks' : List Token} (ha : Lexes a ks) (hb : Lexes b ks')
    (h : Closed a ∨ ∃ c ∈ b.head?, isWordChar c = false) : Lexes (a ++ b) (ks ++ ks') := by
  have hscan : scan .idle (a ++ b) = (ks ++ (scan .idle b).1, (scan .idle b).2) := by
    rw [scan_append, ← ha.reads]
    obtain hclosed | ⟨c, hc, hword⟩ := h
    · rw [show (scan .idle a).2 = .idle from hclosed]
      simp [flush]
    · cases b with
      | nil => cases hc
      | cons d b =>
        obtain rfl := Option.some.inj hc
        simp only [scan, ha.ends d hword, idle_ends d hword, flush, List.nil_append, List.append_assoc]
  constructor
  · rw [hscan, List.append_assoc, hb.reads]
  · rw [hscan]
    exact hb.ends

/-- A fixed text behind which nothing is pending. -/
theorem lexes_lit {a b : Text} {ks ks' : List Token} (ha : scan .idle a = (ks, .idle)) (hb : Lexes b ks') :
    Lexes (a ++ b) (ks ++ ks') :=
  (lexes_closed ha).append hb (.inl (congrArg Prod.snd ha))

theorem Lexes.before {a b : Text} {ks ks' : List Token} (ha : Lexes a ks) (hb : Lexes b ks')
    (h : (b.head?.all fun c => !isWordChar c) = true) (hne : b ≠ []) : Lexes (a ++ b) (ks ++ ks') := by
  cases b with
  | nil => exact absurd rfl hne
  | cons c b => exact ha.append hb (.inr ⟨c, rfl, by simpa using h⟩)

/-! The words of a statement. -/

/-- A word that may stand for a column or a table, as itself. -/
structure PlainName (t : Text) : Prop where
  start : ∃ c ∈ t.head?, isWordStart c = true
  chars : t.all isWordChar = true
  token : wordToken t = .word t

theorem scan_word (s t : Text) (h : t.all isWordChar = true) : scan (.word s) t = ([], .word (s ++ t)) := by
  induction t generalizing s with
  | nil => simp [scan]
  | cons c t ih =>
    obtain ⟨hc, ht⟩ := Bool.and_eq_true_iff.mp (List.all_cons ▸ h)
    simp only [scan, lexStep, extend, hc, if_true, ih _ ht, List.append_assoc, List.singleton_append,
      List.nil_append]

theorem lexes_word {t : Text} (hstart : ∃ c ∈ t.head?, isWordStart c = true)
    (hchars : t.all isWordChar = true) : Lexes t [wordToken t] := by
  obtain ⟨c, hc, hword⟩ := hstart
  cases t with
  | nil => cases hc
  | cons d t =>
    obtain rfl := Option.some.inj hc
    have hrest : t.all isWordChar = true := (Bool.and_eq_true_iff.mp (List.all_cons ▸ hchars)).2
    have hfirst : lexStep .idle d = ([], .word [d]) := by
      simp only [lexStep, extend, flush, start, hword, if_true, List.nil_append]
    have hscan : scan .idle (d :: t) = ([], .word (d :: t)) := by
      simp only [scan, hfirst, scan_word _ _ hrest, List.nil_append, List.singleton_append]
    constructor
    · rw [hscan]
      rfl
    · rw [hscan]
      exact word_ends _

theorem PlainName.lexes {t : Text} (h : PlainName t) : Lexes t [.word t] :=
  h.token ▸ lexes_word h.start h.chars

theorem scan_quoted {t : Text} (h : '"' ∉ t) (s : Text) : scan (.quoted s) t = ([], .quoted (s ++ t)) := by
  induction t generalizing s with
  | nil => simp [scan]
  | cons c t ih =>
    rw [List.mem_cons, not_or] at h
    simp only [scan, lexStep, if_neg (Ne.symm h.1), ih h.2, List.append_assoc, List.singleton_append,
      List.nil_append]

/-- A word in quotation marks stands for itself. -/
theorem lexes_quoted {t : Text} (h : '"' ∉ t) : scan .idle ('"' :: (t ++ ['"'])) = ([.quoted t], .idle) := by
  have hopen : lexStep .idle '"' = ([], .quoted []) := by decide
  have hclose : scan (.quoted t) ['"'] = ([.quoted t], .idle) := rfl
  simp only [scan, hopen, scan_append, scan_quoted h, List.nil_append] at hclose ⊢
  exact hclose

theorem scan_param {ds : Text} (h : ∀ c ∈ ds, c.isDigit = true) (n : Nat) :
    scan (.param n) ds = ([], .param (Nat.ofDigitChars 10 ds n)) := by
  induction ds generalizing n with
  | nil => rfl
  | cons c ds ih =>
    obtain ⟨hc, hds⟩ := List.forall_mem_cons.mp h
    simp only [scan, lexStep, extend, hc, if_true, ih hds, List.nil_append, Nat.ofDigitChars_cons,
      digitValue]

theorem scan_number {ds : Text} (h : ∀ c ∈ ds, c.isDigit = true) (n : Nat) :
    scan (.number n) ds = ([], .number (Nat.ofDigitChars 10 ds n)) := by
  induction ds generalizing n with
  | nil => rfl
  | cons c ds ih =>
    obtain ⟨hc, hds⟩ := List.forall_mem_cons.mp h
    simp only [scan, lexStep, extend, hc, if_true, ih hds, List.nil_append, Nat.ofDigitChars_cons,
      digitValue]

theorem digits_toDigits (n : Nat) : ∀ c ∈ Nat.toDigits 10 n, c.isDigit = true :=
  fun _ hc => Nat.isDigit_of_mem_toDigits (by decide) (by decide) hc

theorem lexes_param (n : Nat) : Lexes ('$' :: Nat.toDigits 10 n) [.param n] := by
  have hscan : scan .idle ('$' :: Nat.toDigits 10 n) = ([], .param n) := by
    have hfirst : lexStep .idle '$' = ([], .param 0) := by decide
    simp only [scan, hfirst, scan_param (digits_toDigits n), Nat.ofDigitChars_ten_toDigits, List.nil_append]
  constructor
  · rw [hscan]
    rfl
  · rw [hscan]
    exact param_ends n

theorem isWordStart_of_isDigit {c : Char} (h : c.isDigit = true) : isWordStart c = false := by
  rw [Bool.eq_false_iff]
  intro hstart
  rw [isWordStart, Bool.or_eq_true, decide_eq_true_eq] at hstart
  obtain rfl | halpha := hstart
  · exact absurd h (by decide)
  · unfold Char.isAlpha Char.isUpper Char.isLower at halpha
    simp only [Char.isDigit, ge_iff_le, Bool.or_eq_true, Bool.and_eq_true, decide_eq_true_eq,
      UInt32.le_iff_toNat_le] at h halpha
    have hnine : c.val.toNat ≤ 57 := h.2
    have hletter : 65 ≤ c.val.toNat ∨ 97 ≤ c.val.toNat := halpha.imp And.left And.left
    omega

theorem lexes_number (n : Nat) : Lexes (Nat.toDigits 10 n) [.number n] := by
  have hvalue : Nat.ofDigitChars 10 (Nat.toDigits 10 n) 0 = n := Nat.ofDigitChars_ten_toDigits
  have hdigits := digits_toDigits n
  have hne : Nat.toDigits 10 n ≠ [] := Nat.toDigits_ne_nil
  cases hds : Nat.toDigits 10 n with
  | nil => exact absurd hds hne
  | cons c ds =>
    rw [hds] at hvalue hdigits
    obtain ⟨hc, hrest⟩ := List.forall_mem_cons.mp hdigits
    have hfirst : lexStep .idle c = ([], .number (digitValue c)) := by
      simp [lexStep, extend, flush, start, isWordStart_of_isDigit hc, hc]
    have hscan : scan .idle (c :: ds) = ([], .number n) := by
      rw [Nat.ofDigitChars_cons] at hvalue
      simp only [scan, hfirst, scan_number hrest, List.nil_append, digitValue]
      simpa using hvalue
    constructor
    · rw [hscan]
      rfl
    · rw [hscan]
      exact number_ends n

/-- Texts with a separator between them. -/
theorem lexes_join {α : Type} {sep : Text} {k : Token} (hsep : Lexes sep [k]) (hclosed : Closed sep)
    (hhead : ∃ c ∈ sep.head?, isWordChar c = false) {f : α → Text} {g : α → List Token} {l : List α}
    (h : ∀ a ∈ l, Lexes (f a) (g a)) : Lexes (Text.join sep (l.map f)) ([k].intercalate (l.map g)) := by
  induction l with
  | nil => exact lexes_closed rfl
  | cons a l ih =>
    obtain ⟨ha, hl⟩ := List.forall_mem_cons.mp h
    cases l with
    | nil => simpa [Text.join] using ha
    | cons b l =>
      have hmore : Lexes (f a ++ (sep ++ Text.join sep ((b :: l).map f)))
          (g a ++ ([k] ++ [k].intercalate ((b :: l).map g))) := by
        refine ha.append (hsep.append (ih hl) (.inl hclosed)) (.inr ?_)
        obtain ⟨c, hc, hword⟩ := hhead
        refine ⟨c, ?_, hword⟩
        cases sep with
        | nil => cases hc
        | cons d sep => exact hc
      simpa [Text.join, List.intercalate_cons_cons] using hmore

end Onisin.Lib.Sql
