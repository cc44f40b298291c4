import Onisin.Bench.Roots
import Onisin.Lib.Occurrences
import Onisin.Lib.Utf8

/-!
Reading a text file by lines. A request asks for a window of lines, a reply holds at most 2000
of them and says where it ended, and whoever asks again from there gets the rest.
-/

set_option autoImplicit false

namespace Onisin.Bench
open Lib

/-- How `read` fails: an error for the caller, or an index outside a slice. -/
inductive Failure where
  | tool (message : Text)
  | panic
  deriving DecidableEq, Repr

/-- A vector of bytes holds no more than `isize::MAX` of them. -/
structure Bytes where
  data : List UInt8
  fits : data.length ≤ 9223372036854775807

structure Disk where
  size : Text → Except Text Nat
  bytes : Text → Except Text Bytes

/-- `stop` is the argument `end`. -/
structure ReadArgs where
  path : Text
  start : Option Nat := none
  stop : Option Nat := none
  lines : Option Nat := none
  tail : Option Nat := none

structure Window where
  startLine : Nat
  endLine : Nat
  totalLines : Nat
  truncated : Bool
  content : Text
  deriving DecidableEq, Repr

inductive ReadReply where
  | binary (path mime : Text) (size : Nat)
  | text (path mime : Text) (size : Nat) (window : Window)
  deriving DecidableEq, Repr

/-! The type of a file, by its extension. -/

def fileName (path : Text) : Option Text :=
  match (components path).getLast? with
  | some (.normal name) => some name
  | _ => none

/-- What follows the last dot of the file name, unless the name begins with that dot. -/
def extension (path : Text) : Option Text :=
  match (fileName path).bind (splitLast ['.']) with
  | some (before, after) => if before = [] then none else some after
  | none => none

def mimeTypes : List (Text × Text) := [
  ("json", "application/json"), ("js", "text/javascript"), ("mjs", "text/javascript"),
  ("cjs", "text/javascript"), ("ts", "text/typescript"), ("tsx", "text/typescript"),
  ("html", "text/html"), ("htm", "text/html"), ("css", "text/css"), ("md", "text/markdown"),
  ("xml", "application/xml"), ("txt", "text/plain"), ("log", "text/plain"), ("png", "image/png"),
  ("jpg", "image/jpeg"), ("jpeg", "image/jpeg")].map fun e => (e.1.toList, e.2.toList)

def guessMime (path : Text) (isText : Bool) : Text :=
  (mimeTypes.lookup ((extension path).getD [])).getD
    (if isText then "text/plain" else "application/octet-stream").toList

/-! The window. -/

def usizeMax : Nat := 18446744073709551615

def saturatingAdd (a b : Nat) : Nat := min (a + b) usizeMax

/-- First and last line of the request, counted from 1. A later argument replaces what an
earlier one has set. -/
def requestedLines (a : ReadArgs) (total : Nat) : Nat × Nat :=
  let s := max (a.start.getD 1) 1
  let e := a.stop.getD total
  let (s, e) := match a.lines with
    | some l => (1, min l total)
    | none => (s, e)
  match a.tail with
  | some t => (max (saturatingAdd (total - t) 1) 1, total)
  | none => (s, e)

/-- `&all[lo..hi]` -/
def sliceOf (all : List Text) (lo hi : Nat) : Except Failure (List Text) :=
  if lo ≤ hi ∧ hi ≤ all.length then .ok ((all.take hi).drop lo) else .error .panic

def lineLimit : Nat := 2000

/-- The requested lines that the file has. -/
def cutOut (all : List Text) (lo hi : Nat) : Except Failure (List Text) :=
  if lo ≤ hi then sliceOf all lo hi else .ok []

def capped (slice : List Text) : Except Failure (List Text) :=
  if slice.length > lineLimit then sliceOf slice 0 lineLimit else .ok slice

def readWindow (a : ReadArgs) (all : List Text) : Except Failure Window := do
  let total := all.length
  let s := (requestedLines a total).1
  let e := (requestedLines a total).2
  let slice ← cutOut all (min (s - 1) total) (min e total)
  let shown ← capped slice
  return {
    startLine := s
    endLine := if shown.isEmpty then s - 1 else min e (s + shown.length - 1)
    totalLines := total
    truncated := slice.length > lineLimit
    content := ['\n'].intercalate shown }

/-- A file is text if it has no NUL byte and is valid UTF-8. -/
def textOf (bytes : List UInt8) : Option Text :=
  if bytes.contains 0 then none else fromUtf8 bytes

section Read
variable (disk : Disk) (reg : RootRegistry) (currentDir : Option Text)

def read (a : ReadArgs) : Except Failure ReadReply := do
  let abs ← (reg.resolve currentDir a.path).mapError .tool
  let size ← (disk.size abs).mapError .tool
  let bytes ← (disk.bytes abs).mapError .tool
  match textOf bytes.data with
  | none => return .binary abs (guessMime abs false) size
  | some text =>
    let window ← readWindow a (text.splitOn '\n')
    return .text abs (guessMime abs true) size window

/-- Reading on behind each window while it is cut, from one start on; none where the file is not
read to its end with so many requests. -/
def readPages (path : Text) : Nat → Nat → Option (List Text)
  | 0, _ => none
  | k + 1, start =>
    match read disk reg currentDir { path := path, start := some start } with
    | .ok (.text _ _ _ w) =>
      if w.truncated then (readPages path k (w.endLine + 1)).map (w.content :: ·)
      else some [w.content]
    | _ => none

end Read

/-! Lines between two numbers. -/

/-- The lines from `first` to `last`, both counted from 1 and both included. -/
def linesBetween (all : List Text) (first last : Nat) : List Text :=
  (all.take last).drop (first - 1)

variable {all : List Text} {a : ReadArgs} {s e : Nat}

theorem linesBetween_eq (all : List Text) (s e : Nat) :
    linesBetween all s e = (all.drop (s - 1)).take (e - (s - 1)) := List.drop_take

theorem length_linesBetween : (linesBetween all s e).length = min e all.length - (s - 1) := by
  rw [linesBetween, List.length_drop, List.length_take]

/-- Bringing both ends inside the file selects the same lines, and never a slice outside it. -/
theorem cutOut_ok (all : List Text) (s e : Nat) :
    cutOut all (min (s - 1) all.length) (min e all.length) = .ok (linesBetween all s e) := by
  unfold cutOut
  split
  · next h =>
    rw [sliceOf, if_pos ⟨h, Nat.min_le_right _ _⟩, linesBetween, ← List.take_eq_take_min]
    refine congrArg Except.ok ?_
    by_cases hs : s - 1 ≤ all.length
    · rw [Nat.min_eq_left hs]
    · have hlen : (all.take e).length ≤ all.length := List.length_take_le' e all
      rw [List.drop_eq_nil_of_le (by omega), List.drop_eq_nil_of_le (by omega)]
  · next h =>
    refine congrArg Except.ok (List.eq_nil_iff_length_eq_zero.mpr ?_).symm
    rw [length_linesBetween]
    omega

theorem capped_ok (slice : List Text) : capped slice = .ok (slice.take lineLimit) := by
  unfold capped
  split
  · next h =>
    rw [sliceOf, if_pos ⟨Nat.zero_le _, Nat.le_of_lt h⟩, List.drop_zero]
  · next h => rw [List.take_of_length_le (by omega)]

theorem requestedLines_pos (a : ReadArgs) (total : Nat) : 1 ≤ (requestedLines a total).1 := by
  unfold requestedLines
  cases a.tail with
  | none =>
    cases a.lines with
    | none => exact Nat.le_max_right _ _
    | some l => exact Nat.le_refl 1
  | some t => exact Nat.le_max_right _ _

section Window
variable (a : ReadArgs) (all : List Text)

/-- The lines of the file inside the requested window. -/
def windowLines : List Text :=
  linesBetween all (requestedLines a all.length).1 (requestedLines a all.length).2

/-- Those of them that a reply shows. -/
def shownLines : List Text := (windowLines a all).take lineLimit

/-- The number of the last shown line. -/
def shownEnd : Nat := (requestedLines a all.length).1 - 1 + (shownLines a all).length

/-- The reply to a request for a text file. -/
def windowOf : Window where
  startLine := (requestedLines a all.length).1
  endLine := shownEnd a all
  totalLines := all.length
  truncated := (windowLines a all).length > lineLimit
  content := ['\n'].intercalate (shownLines a all)

theorem readWindow_ok : readWindow a all = .ok (windowOf a all) := by
  have hpos := requestedLines_pos a all.length
  have hlen : (shownLines a all).length ≤
      (requestedLines a all.length).2 - ((requestedLines a all.length).1 - 1) := by
    rw [shownLines, List.length_take, windowLines, length_linesBetween]
    omega
  have hend : (if (shownLines a all).isEmpty then (requestedLines a all.length).1 - 1
      else min (requestedLines a all.length).2
        ((requestedLines a all.length).1 + (shownLines a all).length - 1)) = shownEnd a all := by
    unfold shownEnd
    cases hshown : shownLines a all with
    | nil => rfl
    | cons line lines =>
      rw [hshown] at hlen
      rw [if_neg (by simp)]
      rw [List.length_cons] at hlen ⊢
      omega
  rw [windowOf, ← hend]
  unfold readWindow
  simp only [cutOut_ok, capped_ok, bind, Except.bind]
  rfl

/-- The numbers of the reply are those of the lines it shows. -/
theorem linesBetween_shown :
    linesBetween all (requestedLines a all.length).1 (shownEnd a all) = shownLines a all := by
  rw [linesBetween_eq, shownEnd, Nat.add_sub_cancel_left, shownLines, windowLines, linesBetween_eq,
    List.take_take, List.length_take, ← List.take_eq_take_min]

theorem shown_eq_iff :
    shownLines a all = windowLines a all ↔ (windowLines a all).length ≤ lineLimit :=
  List.take_eq_self_iff _

end Window

/-! The window that was asked for. -/

/-- The last lines, the first ones, or those between two numbers, in this order of precedence. -/
def requestedWindow (a : ReadArgs) (all : List Text) : List Text :=
  match a.tail, a.lines with
  | some t, _ => all.drop (all.length - t)
  | none, some l => all.take l
  | none, none => linesBetween all (a.start.getD 1) (a.stop.getD all.length)

theorem windowLines_eq (a : ReadArgs) (hfits : all.length < usizeMax) :
    windowLines a all = requestedWindow a all := by
  unfold windowLines requestedWindow requestedLines
  cases a.tail with
  | some t =>
    have hstart : max (saturatingAdd (all.length - t) 1) 1 - 1 = all.length - t := by
      unfold saturatingAdd
      omega
    simp only [linesBetween, hstart, List.take_length]
  | none =>
    cases a.lines with
    | some l =>
      simp only [linesBetween, Nat.sub_self, List.drop_zero]
      exact List.take_eq_take_min.symm
    | none =>
      have hstart : max (a.start.getD 1) 1 - 1 = a.start.getD 1 - 1 := by omega
      simp only [linesBetween, hstart]

theorem length_splitOn_le (text : Text) : (text.splitOn '\n').length ≤ text.length + 1 := by
  induction text with
  | nil => exact Nat.le_refl _
  | cons c text ih =>
    rw [List.splitOn_cons_eq_if_modifyHead, List.length_cons]
    split
    · rw [List.length_cons]
      omega
    · rw [List.length_modifyHead]
      omega

/-- What stands in the file is the UTF-8 form of its text. -/
theorem utf8_of_textOf {bytes : List UInt8} {text : Text} (h : textOf bytes = some text) :
    utf8 text = bytes := by
  unfold textOf at h
  split at h
  · cases h
  · exact fromUtf8_eq_some.mp h

theorem lines_fit {bytes : Bytes} {text : Text} (h : textOf bytes.data = some text) :
    (text.splitOn '\n').length < usizeMax := by
  have hlines := length_splitOn_le text
  have hchars := length_le_utf8 text
  have hbytes := bytes.fits
  rw [utf8_of_textOf h] at hchars
  unfold usizeMax
  omega

theorem intercalate_append (sep : Text) {xs ys : List Text} (hxs : xs ≠ []) (hys : ys ≠ []) :
    sep.intercalate (xs ++ ys) = sep.intercalate xs ++ sep ++ sep.intercalate ys := by
  induction xs with
  | nil => exact absurd rfl hxs
  | cons x xs ih =>
    cases xs with
    | nil =>
      rw [List.singleton_append, List.intercalate_cons_of_ne_nil hys, List.intercalate_singleton]
    | cons x' xs =>
      have hne : x' :: xs ++ ys ≠ [] := List.cons_ne_nil x' (xs ++ ys)
      rw [List.cons_append, List.intercalate_cons_of_ne_nil hne, ih (List.cons_ne_nil x' xs),
        List.intercalate_cons_of_ne_nil (List.cons_ne_nil x' xs)]
      simp only [List.append_assoc]

/-! Reading a file. -/

section Read
variable {disk : Disk} {reg : RootRegistry} {currentDir : Option Text} {path abs text : Text}
  {size : Nat} {bytes : Bytes}

/-- The path leads to a text file. -/
structure ReadsAs (disk : Disk) (reg : RootRegistry) (currentDir : Option Text) (path abs : Text)
    (size : Nat) (bytes : Bytes) (text : Text) : Prop where
  resolves : reg.resolve currentDir path = .ok abs
  stats : disk.size abs = .ok size
  holds : disk.bytes abs = .ok bytes
  reads : textOf bytes.data = some text

theorem read_ok (h : ReadsAs disk reg currentDir path abs size bytes text) {a : ReadArgs}
    (ha : a.path = path) :
    read disk reg currentDir a =
      .ok (.text abs (guessMime abs true) size (windowOf a (text.splitOn '\n'))) := by
  unfold read
  rw [ha, h.resolves]
  simp only [Except.mapError, bind, Except.bind, h.stats, h.holds]
  rw [h.reads]
  simp only [readWindow_ok]
  rfl

/-- One page from a line of the file on. -/
theorem page_from (path : Text) {start : Nat} (hstart : 1 ≤ start) (all : List Text) :
    windowLines { path := path, start := some start } all = all.drop (start - 1) := by
  have hs : max start 1 = start := Nat.max_eq_left hstart
  simp only [windowLines, requestedLines, Option.getD_some, Option.getD_none, hs, linesBetween,
    List.take_length]

/-- From any line on, the pages give the rest of the file. The induction is on the requests that
may still be made; each cut page leaves fewer lines. -/
theorem readPages_join (h : ReadsAs disk reg currentDir path abs size bytes text) (k start : Nat)
    (hstart : 1 ≤ start) (hk : (text.splitOn '\n').length - (start - 1) ≤ k)
    (hinside : start ≤ (text.splitOn '\n').length) :
    ∃ contents, contents ≠ [] ∧ readPages disk reg currentDir path k start = some contents ∧
      ['\n'].intercalate contents = ['\n'].intercalate ((text.splitOn '\n').drop (start - 1)) := by
  generalize hall : text.splitOn '\n' = all at hk hinside ⊢
  induction k generalizing start with
  | zero => omega
  | succ k ih =>
    have hread := read_ok h (a := { path := path, start := some start }) rfl
    rw [hall] at hread
    have hwindow := page_from path hstart all
    have hfirst : (requestedLines { path := path, start := some start } all.length).1 = start :=
      Nat.max_eq_left hstart
    rw [readPages, hread]
    simp only [windowOf, shownEnd, shownLines, hwindow, hfirst]
    by_cases hcut : (all.drop (start - 1)).length > lineLimit
    · have hpage : ((all.drop (start - 1)).take lineLimit).length = lineLimit :=
        List.length_take_of_le (Nat.le_of_lt hcut)
      have hpos : 0 < lineLimit := by decide
      have hleft : all.length - (start - 1) > lineLimit := by rwa [List.length_drop] at hcut
      obtain ⟨contents, hne, hpages, hjoin⟩ :=
        ih (start - 1 + lineLimit + 1) (by omega) (by omega) (by omega)
      refine ⟨['\n'].intercalate ((all.drop (start - 1)).take lineLimit) :: contents,
        List.cons_ne_nil _ _, ?_, ?_⟩
      · rw [if_pos (decide_eq_true hcut), hpage, hpages]
        rfl
      · have htake : (all.drop (start - 1)).take lineLimit ≠ [] := by
          rw [← List.length_pos_iff, hpage]
          exact hpos
        have hdrop : (all.drop (start - 1)).drop lineLimit ≠ [] := by
          rw [← List.length_pos_iff, List.length_drop]
          omega
        rw [List.intercalate_cons_of_ne_nil hne, hjoin, Nat.add_sub_cancel, ← List.drop_drop,
          ← intercalate_append _ htake hdrop, List.take_append_drop]
    · refine ⟨[['\n'].intercalate ((all.drop (start - 1)).take lineLimit)], List.cons_ne_nil _ _,
        ?_, ?_⟩
      · rw [if_neg fun hc => hcut (of_decide_eq_true hc)]
      · rw [List.intercalate_singleton, List.take_of_length_le (by omega)]

/-- Every window of a text file is shown as far as a reply reaches, and page after page the whole
file is. -/
theorem reading_loses_nothing (h : ReadsAs disk reg currentDir path abs size bytes text) :
    (∀ a : ReadArgs, a.path = path → ∃ w,
      read disk reg currentDir a = .ok (.text abs (guessMime abs true) size w) ∧
      w.totalLines = (text.splitOn '\n').length ∧
      w.content = ['\n'].intercalate (linesBetween (text.splitOn '\n') w.startLine w.endLine) ∧
      linesBetween (text.splitOn '\n') w.startLine w.endLine <+:
        requestedWindow a (text.splitOn '\n') ∧
      (w.truncated = true ↔ linesBetween (text.splitOn '\n') w.startLine w.endLine ≠
        requestedWindow a (text.splitOn '\n'))) ∧
    (∀ k, text.length < k → ∃ contents, readPages disk reg currentDir path k 1 = some contents ∧
      ['\n'].intercalate contents = text) := by
  constructor
  · intro a ha
    have hshown : linesBetween (text.splitOn '\n') (windowOf a (text.splitOn '\n')).startLine
        (windowOf a (text.splitOn '\n')).endLine = shownLines a (text.splitOn '\n') :=
      linesBetween_shown a (text.splitOn '\n')
    refine ⟨windowOf a (text.splitOn '\n'), read_ok h ha, rfl, ?_⟩
    rw [hshown, ← windowLines_eq a (lines_fit h.reads)]
    refine ⟨rfl, List.take_prefix _ _, ?_⟩
    rw [ne_eq, shown_eq_iff, Nat.not_le]
    exact decide_eq_true_iff
  · intro k hk
    have hlines := length_splitOn_le text
    have hsome := List.length_pos_iff.mpr (List.splitOn_ne_nil '\n' text)
    obtain ⟨contents, -, hpages, hjoin⟩ := readPages_join h k 1 (Nat.le_refl 1) (by omega) hsome
    refine ⟨contents, hpages, ?_⟩
    rw [hjoin, Nat.sub_self, List.drop_zero, List.intercalate_splitOn]

end Read

/-- One line more than a reply shows. -/
def notes : Text := "one".toList ++ List.replicate lineLimit '\n' ++ "last".toList

def notesBytes : Bytes := ⟨utf8 notes, by decide +kernel⟩

def notesPath : Text := "/srv/repo/notes.txt".toList

def notesDisk : Disk where
  size _ := .ok 2007
  bytes path :=
    if path = notesPath then .ok notesBytes
    else .error "No such file or directory (os error 2)".toList

theorem notesDisk_bytes : notesDisk.bytes notesPath = .ok notesBytes := by
  unfold notesDisk
  dsimp only
  rw [if_pos rfl]

theorem notes_readsAs : ReadsAs notesDisk repoRegistry none notesPath notesPath 2007 notesBytes notes where
  resolves := by decide
  stats := rfl
  holds := notesDisk_bytes
  reads := by
    have hnul : (utf8 notes).contains 0 = false := by decide +kernel
    rw [textOf, notesBytes, hnul]
    exact fromUtf8_utf8 notes

theorem readPages_notes :
    (readPages notesDisk repoRegistry none notesPath 2008 1).map List.length = some 2 := by
  have hfirst : (windowOf { path := notesPath, start := some 1 } (notes.splitOn '\n')).truncated = true ∧
      (windowOf { path := notesPath, start := some 1 } (notes.splitOn '\n')).endLine = 2000 := by
    decide +kernel
  have hsecond :
      (windowOf { path := notesPath, start := some 2001 } (notes.splitOn '\n')).truncated = false := by
    decide +kernel
  rw [readPages, read_ok notes_readsAs rfl]
  simp only [hfirst]
  rw [readPages, read_ok notes_readsAs rfl]
  simp only [hsecond]
  simp

theorem reading_loses_nothing_notes :
    ∃ first second, readPages notesDisk repoRegistry none notesPath 2008 1 = some [first, second] ∧
      ['\n'].intercalate [first, second] = notes := by
  obtain ⟨contents, hpages, hjoin⟩ :=
    (reading_loses_nothing notes_readsAs).2 2008 (by decide +kernel)
  have htwo := readPages_notes
  rw [hpages, Option.map_some, Option.some.injEq] at htwo
  obtain ⟨first, second, rfl⟩ := List.length_eq_two.mp htwo
  exact ⟨first, second, hpages, hjoin⟩

end Onisin.Bench
