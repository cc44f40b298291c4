import Mathlib.Data.List.DropRight

/-!
Decoding a sequence that still grows. The last elements of a decoded text may be stand-ins
for what is not complete yet; everything before them is settled and stays as it is, however
the sequence goes on.
-/

set_option autoImplicit false

namespace Onisin.Lib

variable {α β ε : Type}

theorem bind_eq_ok {x : Except ε α} {f : α → Except ε β} {b : β} :
    (x >>= f) = .ok b ↔ ∃ a, x = .ok a ∧ f a = .ok b := by
  cases x <;> simp [bind, Except.bind]

theorem bind_eq_error {x : Except ε α} {f : α → Except ε β} {e : ε} :
    (x >>= f) = .error e ↔ x = .error e ∨ ∃ a, x = .ok a ∧ f a = .error e := by
  cases x <;> simp [bind, Except.bind]

theorem ok_of_mapError {δ : Type} (label : ε → δ) {r : Except ε α} {a : α} :
    r.mapError label = .ok a ↔ r = .ok a := by
  cases r with
  | error e => simp [Except.mapError]
  | ok b => simp [Except.mapError]

section Settled
variable [DecidableEq β] {standIn : β} {done text : List β}

/-- A text without the stand-ins it ends in. -/
def settled (standIn : β) (text : List β) : List β := text.rdropWhile (· == standIn)

theorem settled_concat (text : List β) (b : β) :
    settled standIn (text ++ [b]) = if b = standIn then settled standIn text else text ++ [b] := by
  simp [settled, List.rdropWhile_concat]

theorem prefix_settled (h : done <+: text) (hlast : done.getLast? ≠ some standIn) :
    done <+: settled standIn text := by
  induction text using List.reverseRecOn with
  | nil => simpa [settled] using h
  | append_singleton text b ih =>
    rw [settled_concat]
    rcases List.prefix_concat_iff.mp h with rfl | hshort
    · have hb : b ≠ standIn := by simpa using hlast
      simp [hb]
    · split
      · exact ih hshort
      · exact h

end Settled

section Decoder
variable {decode : List α → Except ε (List β)} {view : List α} {done text : List β}

/-- What a longer sequence decodes to extends what a shorter one does, except for the
stand-ins at the end. -/
def Extends [DecidableEq β] (standIn : β) (decode : List α → Except ε (List β)) : Prop :=
  ∀ view more text longer, decode view = .ok text → decode (view ++ more) = .ok longer →
    settled standIn text <+: longer

/-- However the sequence goes on, its text starts with `done`. -/
def Kept (decode : List α → Except ε (List β)) (view : List α) (done : List β) : Prop :=
  ∀ more text, decode (view ++ more) = .ok text → done <+: text

theorem kept_nil : Kept decode view [] := fun _ _ _ => List.nil_prefix

theorem Kept.append (h : Kept decode view done) (more : List α) : Kept decode (view ++ more) done := by
  intro rest text htext
  rw [List.append_assoc] at htext
  exact h (more ++ rest) text htext

theorem Kept.now (h : Kept decode view done) (htext : decode view = .ok text) : done <+: text := by
  refine h [] text ?_
  rwa [List.append_nil]

theorem Extends.kept [DecidableEq β] {standIn : β} (h : Extends standIn decode) (htext : decode view = .ok text)
    (hdone : done <+: text) (hlast : done.getLast? ≠ some standIn) : Kept decode view done := by
  intro more longer hlonger
  exact (prefix_settled hdone hlast).trans (h view more text longer htext hlonger)

end Decoder

end Onisin.Lib
