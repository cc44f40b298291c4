import Mathlib.Data.List.Basic

/-!
Runs of a deterministic machine. A condition on steps is a relation between the state
before the step and the step taken; an invariant that such steps keep holds after the run.
-/

set_option autoImplicit false

namespace Onisin.Lib

variable {σ α : Type}

def run (step : σ → α → σ) (s : σ) (acts : List α) : σ := acts.foldl step s

theorem run_append (step : σ → α → σ) (s : σ) (acts more : List α) :
    run step s (acts ++ more) = run step (run step s acts) more := List.foldl_append ..

/-- Every step of the run meets `C` in the state it is taken in. -/
def Along (step : σ → α → σ) (C : σ → α → Prop) : σ → List α → Prop
  | _, [] => True
  | s, a :: acts => C s a ∧ Along step C (step s a) acts

instance Along.decidable {step : σ → α → σ} {C : σ → α → Prop} [∀ s a, Decidable (C s a)] (s : σ)
    (acts : List α) : Decidable (Along step C s acts) :=
  match acts with
  | [] => instDecidableTrue
  | a :: acts =>
    have : Decidable (Along step C (step s a) acts) := Along.decidable (step s a) acts
    inferInstanceAs (Decidable (_ ∧ _))

theorem along_iff {step : σ → α → σ} {C : σ → α → Prop} {s : σ} {acts : List α} :
    Along step C s acts ↔ ∀ pre a post, acts = pre ++ a :: post → C (run step s pre) a := by
  induction acts generalizing s with
  | nil => exact iff_of_true trivial fun pre a post h => by simp at h
  | cons b acts ih =>
    rw [Along, ih]
    constructor
    · rintro ⟨hb, hrest⟩ pre a post hsplit
      cases pre with
      | nil =>
        obtain ⟨rfl, -⟩ := List.cons.inj hsplit
        exact hb
      | cons c pre =>
        obtain ⟨rfl, htail⟩ := List.cons.inj hsplit
        exact hrest pre a post htail
    · intro h
      exact ⟨h [] b acts rfl, fun pre a post htail => h (b :: pre) a post (by rw [htail]; rfl)⟩

theorem along_append {step : σ → α → σ} {C : σ → α → Prop} {s : σ} {acts more : List α} :
    Along step C s (acts ++ more) ↔ Along step C s acts ∧ Along step C (run step s acts) more := by
  induction acts generalizing s with
  | nil => simp [Along, run]
  | cons a acts ih =>
    rw [List.cons_append, Along, ih, Along, and_assoc]
    rfl

/-- Along a run that keeps an invariant, a condition may be exchanged for what both give. -/
theorem Along.weaken {step : σ → α → σ} {P C : σ → α → Prop} {Inv : σ → Prop}
    (hinv : ∀ s a, Inv s → P s a → Inv (step s a)) (hgives : ∀ s a, Inv s → P s a → C s a) {s : σ}
    {acts : List α} (hs : Inv s) (h : Along step P s acts) : Along step C s acts := by
  induction acts generalizing s with
  | nil => trivial
  | cons a acts ih => exact ⟨hgives s a hs h.1, ih (hinv s a hs h.1) h.2⟩

theorem run_invariant {step : σ → α → σ} {C : σ → α → Prop} {Inv : σ → Prop}
    (hstep : ∀ s a, Inv s → C s a → Inv (step s a)) {s : σ} {acts : List α} (hs : Inv s)
    (h : Along step C s acts) : Inv (run step s acts) := by
  induction acts generalizing s with
  | nil => exact hs
  | cons a acts ih => exact ih (hstep s a hs h.1) h.2

theorem run_keeps {step : σ → α → σ} {Inv : σ → Prop} (hstep : ∀ s a, Inv s → Inv (step s a))
    {s : σ} (hs : Inv s) (acts : List α) : Inv (run step s acts) := by
  induction acts generalizing s with
  | nil => exact hs
  | cons a acts ih => exact ih (hstep s a hs)

/-- What holds after a run held before it, or came about in one of its steps. -/
theorem run_origin {step : σ → α → σ} {Inv P : σ → Prop} {C : σ → α → Prop}
    (hinv : ∀ s a, Inv s → Inv (step s a)) (hstep : ∀ s a, Inv s → P (step s a) → P s ∨ C s a) {s : σ}
    {acts : List α} (hs : Inv s) (h : P (run step s acts)) :
    P s ∨ ∃ pre a post, acts = pre ++ a :: post ∧ C (run step s pre) a := by
  induction acts generalizing s with
  | nil => exact .inl h
  | cons a acts ih =>
    obtain hmid | ⟨pre, b, post, rfl, hb⟩ := ih (hinv s a hs) h
    · exact (hstep s a hs hmid).imp_right fun ha => ⟨[], a, acts, rfl, ha⟩
    · exact .inr ⟨a :: pre, b, post, rfl, hb⟩

/-- If a step keeps `Good` exactly when it meets `C`, then the runs that stay good are those
whose steps all meet it. -/
theorem good_run_iff {step : σ → α → σ} {C : σ → α → Prop} {Inv Good : σ → Prop}
    (hinv : ∀ s a, Inv s → Inv (step s a))
    (hstep : ∀ s a, Inv s → Good s → (Good (step s a) ↔ C s a)) {s : σ} {acts : List α} (hs : Inv s)
    (hg : Good s) : (∀ n, Good (run step s (acts.take n))) ↔ Along step C s acts := by
  induction acts generalizing s with
  | nil =>
    constructor
    · exact fun _ => trivial
    · intro _ n
      rw [List.take_nil]
      exact hg
  | cons a acts ih =>
    constructor
    · intro h
      have hfirst : Good (step s a) := h 1
      exact ⟨(hstep s a hs hg).mp hfirst, (ih (hinv s a hs) hfirst).mp fun n => h (n + 1)⟩
    · rintro ⟨hc, hrest⟩ n
      have hfirst : Good (step s a) := (hstep s a hs hg).mpr hc
      cases n with
      | zero => exact hg
      | succ n => exact (ih (hinv s a hs) hfirst).mpr hrest n

/-- Two conditions that agree on the states of a run are met along the same runs. -/
theorem along_congr {step : σ → α → σ} {P C : σ → α → Prop} {Inv : σ → Prop}
    (hinv : ∀ s a, Inv s → P s a → Inv (step s a)) (h : ∀ s a, Inv s → (P s a ↔ C s a)) {s : σ}
    (hs : Inv s) (acts : List α) : Along step P s acts ↔ Along step C s acts := by
  induction acts generalizing s with
  | nil => exact Iff.rfl
  | cons a acts ih =>
    rw [Along, Along, ← h s a hs]
    exact and_congr_right fun hp => ih (hinv s a hs hp)

/-- Each entry of a log is justified by the entries before it. -/
def Justified (P : List α → α → Prop) (log : List α) : Prop :=
  ∀ pre a post, log = pre ++ a :: post → P pre a

theorem justified_nil (P : List α → α → Prop) : Justified P [] := by
  intro pre a post h
  simp at h

theorem Justified.snoc {P : List α → α → Prop} {log : List α} {a : α} (h : Justified P log)
    (ha : P log a) : Justified P (log ++ [a]) := by
  intro pre b post hsplit
  rcases List.eq_nil_or_concat post with rfl | ⟨post', c, rfl⟩
  · obtain ⟨rfl, hb⟩ := List.append_inj' hsplit rfl
    simp only [List.cons.injEq, and_true] at hb
    exact hb ▸ ha
  · have hsplit' : log ++ [a] = (pre ++ b :: post') ++ [c] := by simpa using hsplit
    exact h pre b post' (List.append_inj' hsplit' rfl).1

end Onisin.Lib
