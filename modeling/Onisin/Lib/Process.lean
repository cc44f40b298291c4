import Mathlib.Data.List.Basic

/-!
Processes: programs that act on an environment and continue with its answer. A process is a
tree, so what it can do is read off without saying how the environment answers, and each of
its runs is a list of exchanges. `Holds` is the condition before a process under which an
invariant of its history and a postcondition hold along every run.
-/

set_option autoImplicit false

namespace Onisin.Lib

inductive Process (Act : Type) (Resp : Act → Type) (α : Type) where
  | ret (a : α)
  | act (a : Act) (k : Resp a → Process Act Resp α)

variable {Act : Type} {Resp : Act → Type} {α β : Type}

def Process.bind : Process Act Resp α → (α → Process Act Resp β) → Process Act Resp β
  | .ret a, f => f a
  | .act a k, f => .act a fun r => (k r).bind f

instance : Monad (Process Act Resp) where
  pure := .ret
  bind := .bind

def Process.call (a : Act) : Process Act Resp (Resp a) := .act a .ret

/-- An action together with the answer it got. -/
structure Exchange (Act : Type) (Resp : Act → Type) where
  action : Act
  answer : Resp action

inductive Process.Steps : Process Act Resp α → List (Exchange Act Resp) → Process Act Resp α → Prop
  | refl (p : Process Act Resp α) : Steps p [] p
  | act {a : Act} {k : Resp a → Process Act Resp α} {r : Resp a} {tr : List (Exchange Act Resp)}
      {q : Process Act Resp α} (h : Steps (k r) tr q) : Steps (.act a k) (⟨a, r⟩ :: tr) q

theorem Process.Steps.snoc {p q : Process Act Resp α} {tr : List (Exchange Act Resp)} {a : Act}
    {k : Resp a → Process Act Resp α} (h : p.Steps tr q) (hq : q = .act a k) (r : Resp a) :
    p.Steps (tr ++ [⟨a, r⟩]) (k r) := by
  induction h with
  | refl p =>
    subst hq
    exact .act (.refl _)
  | act _ ih => exact .act (ih hq)

theorem Process.Steps.append {p q s : Process Act Resp α} {tr tr' : List (Exchange Act Resp)}
    (h : p.Steps tr q) (h' : q.Steps tr' s) : p.Steps (tr ++ tr') s := by
  induction h with
  | refl p => exact h'
  | act _ ih => exact .act (ih h')

/-- A run of a composition is a run of its first part, or goes through its result. -/
theorem Process.Steps.of_bind {p : Process Act Resp α} {f : α → Process Act Resp β}
    {q : Process Act Resp β} {tr : List (Exchange Act Resp)} (h : (p >>= f).Steps tr q) :
    (∃ p', p.Steps tr p' ∧ q = p' >>= f) ∨
      ∃ a tr₁ tr₂, tr = tr₁ ++ tr₂ ∧ p.Steps tr₁ (.ret a) ∧ (f a).Steps tr₂ q := by
  induction p generalizing tr with
  | ret a => exact .inr ⟨a, [], tr, rfl, .refl _, h⟩
  | act a k ih =>
    cases h with
    | refl => exact .inl ⟨_, .refl _, rfl⟩
    | act h =>
      rcases ih _ h with ⟨p', hp, hq⟩ | ⟨b, tr₁, tr₂, rfl, h₁, h₂⟩
      · exact .inl ⟨p', .act hp, hq⟩
      · exact .inr ⟨b, _, tr₂, rfl, .act h₁, h₂⟩

/-- Every action the process can come to satisfies `P`. -/
def Process.Acts (P : Act → Prop) : Process Act Resp α → Prop
  | .ret _ => True
  | .act a k => P a ∧ ∀ r, (k r).Acts P

theorem Process.Acts.bind {P : Act → Prop} {p : Process Act Resp α} {f : α → Process Act Resp β}
    (hp : p.Acts P) (hf : ∀ a, (f a).Acts P) : (p >>= f).Acts P := by
  induction p with
  | ret a => exact hf a
  | act a k ih => exact ⟨hp.1, fun r => ih r (hp.2 r)⟩

theorem Process.Acts.next {P : Act → Prop} {a : Act} {f : Resp a → Process Act Resp β} (ha : P a)
    (hf : ∀ r, (f r).Acts P) : (Process.call a >>= f).Acts P := ⟨ha, hf⟩

theorem Process.Acts.pure {P : Act → Prop} (a : α) : (pure a : Process Act Resp α).Acts P := trivial

theorem Process.Acts.mono {P P' : Act → Prop} {p : Process Act Resp α} (hp : p.Acts P)
    (hP : ∀ a, P a → P' a) : p.Acts P' := by
  induction p with
  | ret a => trivial
  | act a k ih => exact ⟨hP a hp.1, fun r => ih r (hp.2 r)⟩

theorem Process.Acts.steps {P : Act → Prop} {p q : Process Act Resp α}
    {tr : List (Exchange Act Resp)} (hp : p.Acts P) (h : p.Steps tr q) :
    (∀ x ∈ tr, P x.action) ∧ q.Acts P := by
  induction h with
  | refl p => exact ⟨by simp, hp⟩
  | act _ ih =>
    obtain ⟨htr, hq⟩ := ih (hp.2 _)
    exact ⟨by simpa using ⟨hp.1, htr⟩, hq⟩

/-- The run in which the action number `n` is answered by `o n`. -/
def Process.answered (o : Nat → (a : Act) → Resp a) :
    Process Act Resp α → List (Exchange Act Resp) × α
  | .ret a => ([], a)
  | .act a k =>
    let rest := (k (o 0 a)).answered fun n => o (n + 1)
    (⟨a, o 0 a⟩ :: rest.1, rest.2)

theorem Process.steps_answered (o : Nat → (a : Act) → Resp a) (p : Process Act Resp α) :
    p.Steps (p.answered o).1 (.ret (p.answered o).2) := by
  induction p generalizing o with
  | ret a => exact .refl _
  | act a k ih => exact .act (ih (o 0 a) _)

/-- After the history `h`, `I` holds of every history to come and `Q` of every result. -/
def Process.Holds (I : List (Exchange Act Resp) → Prop) (Q : α → List (Exchange Act Resp) → Prop) :
    Process Act Resp α → List (Exchange Act Resp) → Prop
  | .ret a, h => I h ∧ Q a h
  | .act a k, h => I h ∧ ∀ r, (k r).Holds I Q (h ++ [⟨a, r⟩])

section Rules
variable {I : List (Exchange Act Resp) → Prop} {Q Q' : α → List (Exchange Act Resp) → Prop}
  {R : β → List (Exchange Act Resp) → Prop} {h : List (Exchange Act Resp)}

theorem Process.Holds.now {p : Process Act Resp α} (hp : p.Holds I Q h) : I h := by
  cases p with
  | ret a => exact hp.1
  | act a k => exact hp.1

theorem Process.Holds.steps {p q : Process Act Resp α} {tr : List (Exchange Act Resp)}
    (hs : p.Steps tr q) (hp : p.Holds I Q h) : q.Holds I Q (h ++ tr) := by
  induction hs generalizing h with
  | refl p => simpa using hp
  | act hs ih => simpa using ih (hp.2 _)

theorem Process.Holds.invariant {p q : Process Act Resp α} {tr : List (Exchange Act Resp)}
    (hp : p.Holds I Q []) (hs : p.Steps tr q) : I tr := by
  simpa using (Holds.steps hs hp).now

theorem Process.Holds.result {p : Process Act Resp α} {a : α} {tr : List (Exchange Act Resp)}
    (hp : p.Holds I Q []) (hs : p.Steps tr (.ret a)) : Q a tr := by
  simpa using (Holds.steps hs hp).2

theorem Process.Holds.mono {p : Process Act Resp α} (hp : p.Holds I Q h)
    (hQ : ∀ a h, Q a h → Q' a h) : p.Holds I Q' h := by
  induction p generalizing h with
  | ret a => exact ⟨hp.1, hQ a h hp.2⟩
  | act a k ih => exact ⟨hp.1, fun r => ih r (hp.2 r)⟩

/-- The rule of composition: what the first part ensures is where the second part starts. -/
theorem Process.Holds.bind {p : Process Act Resp α} {f : α → Process Act Resp β}
    (hp : p.Holds I (fun a h => (f a).Holds I R h) h) : (p >>= f).Holds I R h := by
  induction p generalizing h with
  | ret a => exact hp.2
  | act a k ih => exact ⟨hp.1, fun r => ih r (hp.2 r)⟩

theorem Process.Holds.pure {a : α} (hI : I h) (hQ : Q a h) :
    (pure a : Process Act Resp α).Holds I Q h := ⟨hI, hQ⟩

theorem Process.Holds.call {a : Act} {R : Resp a → List (Exchange Act Resp) → Prop} (hI : I h)
    (hr : ∀ r, I (h ++ [⟨a, r⟩]) ∧ R r (h ++ [⟨a, r⟩])) : (Process.call a).Holds I R h :=
  ⟨hI, hr⟩

/-- The rule for one action in front of the rest of a program. -/
theorem Process.Holds.next {a : Act} {f : Resp a → Process Act Resp β} (hI : I h)
    (hr : ∀ r, (f r).Holds I R (h ++ [⟨a, r⟩])) : (Process.call a >>= f).Holds I R h :=
  ⟨hI, hr⟩

/-- An invariant that the actions of a process keep holds along its runs. -/
theorem Process.Acts.holds {P : Act → Prop} {p : Process Act Resp α} (hp : p.Acts P)
    (hstep : ∀ h x, P x.action → I h → I (h ++ [x])) (hQ : ∀ a h, I h → Q a h) (hI : I h) :
    p.Holds I Q h := by
  induction p generalizing h with
  | ret a => exact ⟨hI, hQ a h hI⟩
  | act a k ih => exact ⟨hI, fun r => ih r (hp.2 r) (hstep h ⟨a, r⟩ hp.1 hI)⟩

end Rules

end Onisin.Lib
