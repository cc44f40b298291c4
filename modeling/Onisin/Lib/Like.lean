import Mathlib.Data.List.Basic
import Mathlib.Data.List.Infix
import Onisin.Lib.Text

/-!
Patterns of LIKE: `%` stands for any run of characters, `_` for any one, and a backslash takes
the next character as it is.
-/

set_option autoImplicit false

namespace Onisin.Lib

inductive LikeToken where
  | anyRun
  | anyChar
  | lit (c : Char)
  deriving DecidableEq, Repr

/-- Reading a pattern, before or behind an escape character; it must not end with one. -/
def likeTokensFrom : Bool → Text → Option (List LikeToken)
  | false, [] => some []
  | true, [] => none
  | true, c :: p => (likeTokensFrom false p).map (.lit c :: ·)
  | false, c :: p =>
    if c = '\\' then likeTokensFrom true p
    else if c = '%' then (likeTokensFrom false p).map (.anyRun :: ·)
    else if c = '_' then (likeTokensFrom false p).map (.anyChar :: ·)
    else (likeTokensFrom false p).map (.lit c :: ·)

def likeTokens (p : Text) : Option (List LikeToken) := likeTokensFrom false p

def likeMatches : List LikeToken → Text → Bool
  | [], t => t.isEmpty
  | .lit c :: ps, t =>
    match t with
    | [] => false
    | d :: t => c = d && likeMatches ps t
  | .anyChar :: ps, t =>
    match t with
    | [] => false
    | _ :: t => likeMatches ps t
  | .anyRun :: ps, t => t.tails.any fun rest => likeMatches ps rest

/-- Both sides are folded to one case; none where the pattern is no pattern. -/
def ilike (fold : Char → Char) (t pattern : Text) : Option Bool :=
  (likeTokens (pattern.map fold)).map fun ps => likeMatches ps (t.map fold)

/-- `v` is somewhere in `t`, whatever the case. -/
def OccursIn (fold : Char → Char) (v t : Text) : Prop := v.map fold <:+: t.map fold

/-- The characters that mean something in a pattern. -/
def isLikeMeta (c : Char) : Bool := c = '%' || c = '_' || c = '\\'

/-- Folding changes none of these characters and makes none of them out of another one. -/
structure KeepsMeta (fold : Char → Char) : Prop where
  percent : ∀ c, fold c = '%' ↔ c = '%'
  underscore : ∀ c, fold c = '_' ↔ c = '_'
  backslash : ∀ c, fold c = '\\' ↔ c = '\\'

theorem KeepsMeta.isLikeMeta {fold : Char → Char} (h : KeepsMeta fold) (c : Char) :
    isLikeMeta (fold c) = isLikeMeta c := by
  simp only [Lib.isLikeMeta, h.percent, h.underscore, h.backslash]

/-! Matching. -/

theorem likeMatches_anyRun {ps : List LikeToken} {t : Text} :
    likeMatches (.anyRun :: ps) t = true ↔ ∃ run rest, t = run ++ rest ∧ likeMatches ps rest = true := by
  simp only [likeMatches, List.any_eq_true, List.mem_tails]
  constructor
  · rintro ⟨rest, ⟨run, hrun⟩, hrest⟩
    exact ⟨run, rest, hrun.symm, hrest⟩
  · rintro ⟨run, rest, hrun, hrest⟩
    exact ⟨rest, ⟨run, hrun.symm⟩, hrest⟩

theorem likeMatches_lits (v : Text) {ps : List LikeToken} {t : Text} :
    likeMatches (v.map .lit ++ ps) t = true ↔ ∃ rest, t = v ++ rest ∧ likeMatches ps rest = true := by
  induction v generalizing t with
  | nil => simp
  | cons c v ih =>
    cases t with
    | nil => simp [likeMatches]
    | cons d t =>
      simp only [List.map_cons, List.cons_append, likeMatches, Bool.and_eq_true, decide_eq_true_eq, ih,
        List.cons.injEq]
      constructor
      · rintro ⟨rfl, rest, rfl, hrest⟩
        exact ⟨rest, ⟨rfl, rfl⟩, hrest⟩
      · rintro ⟨rest, ⟨rfl, rfl⟩, hrest⟩
        exact ⟨rfl, rest, rfl, hrest⟩

theorem likeTokensFrom_lits {v : Text} (h : ∀ c ∈ v, isLikeMeta c = false) (p : Text) :
    likeTokensFrom false (v ++ p) = (likeTokensFrom false p).map (v.map .lit ++ ·) := by
  induction v with
  | nil => simp
  | cons c v ih =>
    have hc := h c List.mem_cons_self
    simp only [isLikeMeta, Bool.or_eq_false_iff, decide_eq_false_iff_not] at hc
    obtain ⟨⟨hpercent, hunder⟩, hback⟩ := hc
    rw [List.cons_append, likeTokensFrom, if_neg hback, if_neg hpercent, if_neg hunder,
      ih fun c hc => h c (List.mem_cons_of_mem _ hc), Option.map_map]
    rfl

/-! A value between two `%`. -/

theorem likeMatches_run (t : Text) : likeMatches [.anyRun] t = true :=
  likeMatches_anyRun.mpr ⟨t, [], by simp, rfl⟩

/-- Without characters that mean something, the value is looked for anywhere. -/
theorem wrapped_lits {v : Text} (h : ∀ c ∈ v, isLikeMeta c = false) (t : Text) :
    (likeTokens ('%' :: (v ++ ['%']))).map (likeMatches · t) = some true ↔ v <:+: t := by
  have hend : likeTokensFrom false ['%'] = some [.anyRun] := by decide
  have htokens : likeTokens ('%' :: (v ++ ['%'])) = some (.anyRun :: (v.map .lit ++ [.anyRun])) := by
    rw [likeTokens, likeTokensFrom, likeTokensFrom_lits h, hend]
    rfl
  rw [htokens, Option.map_some, Option.some.injEq, likeMatches_anyRun]
  constructor
  · rintro ⟨run, rest, rfl, hrest⟩
    obtain ⟨after, rfl, -⟩ := (likeMatches_lits v).mp hrest
    exact ⟨run, after, by rw [List.append_assoc]⟩
  · rintro ⟨before, after, rfl⟩
    refine ⟨before, v ++ after, by rw [List.append_assoc], ?_⟩
    exact (likeMatches_lits v).mpr ⟨after, rfl, likeMatches_run after⟩

/-- The shortest text that is matched by the value followed by `%`; `x` stands where any
character may. -/
def shortestMatch (x : Char) : Bool → Text → Text
  | false, [] => []
  | true, [] => ['%']
  | true, c :: p => c :: shortestMatch x false p
  | false, c :: p =>
    if c = '\\' then shortestMatch x true p
    else if c = '%' then shortestMatch x false p
    else if c = '_' then x :: shortestMatch x false p
    else c :: shortestMatch x false p

theorem shortestMatch_matches (x : Char) (v : Text) (escaped : Bool) :
    ∃ ps, likeTokensFrom escaped (v ++ ['%']) = some ps ∧ likeMatches ps (shortestMatch x escaped v) = true := by
  induction v generalizing escaped with
  | nil =>
    cases escaped with
    | false => exact ⟨[.anyRun], by decide, rfl⟩
    | true => exact ⟨[.lit '%'], by decide, rfl⟩
  | cons c v ih =>
    obtain ⟨ps, hps, hmatch⟩ := ih false
    cases escaped with
    | true =>
      refine ⟨.lit c :: ps, ?_, ?_⟩
      · rw [List.cons_append, likeTokensFrom, hps]
        rfl
      · simp [shortestMatch, likeMatches, hmatch]
    | false =>
      rw [List.cons_append, likeTokensFrom, shortestMatch]
      by_cases hback : c = '\\'
      · rw [if_pos hback, if_pos hback]
        exact ih true
      · rw [if_neg hback, if_neg hback, hps]
        by_cases hpercent : c = '%'
        · rw [if_pos hpercent, if_pos hpercent]
          exact ⟨_, rfl, likeMatches_anyRun.mpr ⟨[], _, rfl, hmatch⟩⟩
        · rw [if_neg hpercent, if_neg hpercent]
          by_cases hunder : c = '_'
          · rw [if_pos hunder, if_pos hunder]
            exact ⟨_, rfl, by simpa [likeMatches] using hmatch⟩
          · rw [if_neg hunder, if_neg hunder]
            exact ⟨_, rfl, by simpa [likeMatches] using hmatch⟩

theorem wrapped_shortest (x : Char) (v : Text) :
    (likeTokens ('%' :: (v ++ ['%']))).map (likeMatches · (shortestMatch x false v)) = some true := by
  obtain ⟨ps, hps, hmatch⟩ := shortestMatch_matches x v false
  have hrun : likeMatches (.anyRun :: ps) (shortestMatch x false v) = true :=
    likeMatches_anyRun.mpr ⟨[], _, rfl, hmatch⟩
  rw [likeTokens, likeTokensFrom, if_neg (by decide), if_pos rfl, hps, Option.map_some, Option.map_some, hrun]

theorem length_shortest_le (x : Char) (v : Text) :
    (shortestMatch x false v).length ≤ v.length ∧ (shortestMatch x true v).length ≤ v.length + 1 := by
  induction v with
  | nil => simp [shortestMatch]
  | cons c v ih =>
    obtain ⟨hplain, hescaped⟩ := ih
    constructor
    · rw [shortestMatch]
      by_cases hback : c = '\\'
      · rw [if_pos hback]
        simpa using hescaped
      · rw [if_neg hback]
        split
        · exact Nat.le_succ_of_le hplain
        · split
          · exact Nat.succ_le_succ hplain
          · exact Nat.succ_le_succ hplain
    · rw [shortestMatch, List.length_cons, List.length_cons]
      omega

/-- Only a value without characters that mean something is its own shortest match. -/
theorem lits_of_shortest {x : Char} (hx : x ≠ '_') {v : Text} (h : shortestMatch x false v = v) :
    ∀ c ∈ v, isLikeMeta c = false := by
  induction v with
  | nil => exact fun c hc => absurd hc List.not_mem_nil
  | cons c v ih =>
    obtain ⟨hplain, -⟩ := length_shortest_le x v
    rw [shortestMatch] at h
    by_cases hback : c = '\\'
    · rw [if_pos hback] at h
      cases v with
      | nil =>
        rw [hback] at h
        exact absurd h (by simp [shortestMatch])
      | cons d v =>
        have hlen := congrArg List.length h
        have hle := (length_shortest_le x v).1
        simp only [shortestMatch, List.length_cons] at hlen
        omega
    · rw [if_neg hback] at h
      by_cases hpercent : c = '%'
      · rw [if_pos hpercent] at h
        have hlen := congrArg List.length h
        rw [List.length_cons] at hlen
        omega
      · rw [if_neg hpercent] at h
        by_cases hunder : c = '_'
        · rw [if_pos hunder, hunder] at h
          exact absurd (List.cons.inj h).1 hx
        · rw [if_neg hunder] at h
          have hc : isLikeMeta c = false := by simp [isLikeMeta, hback, hpercent, hunder]
          exact List.forall_mem_cons.mpr ⟨hc, ih (List.cons.inj h).2⟩

theorem shortestMatch_map {fold : Char → Char} (hfold : KeepsMeta fold) (x : Char) (v : Text) (escaped : Bool) :
    (shortestMatch x escaped v).map fold = shortestMatch (fold x) escaped (v.map fold) := by
  have hpercent := (hfold.percent '%').mpr rfl
  induction v generalizing escaped with
  | nil =>
    cases escaped with
    | false => rfl
    | true => simp [shortestMatch, hpercent]
  | cons c v ih =>
    cases escaped with
    | true => simp [shortestMatch, ih]
    | false =>
      simp only [List.map_cons, shortestMatch, hfold.backslash, hfold.percent, hfold.underscore]
      split
      · exact ih true
      · split
        · exact ih false
        · split
          · rw [List.map_cons, ih]
          · rw [List.map_cons, ih]

/-- A value between two `%` finds exactly the texts it occurs in if and only if no character
in it means something in a pattern. -/
theorem ilike_wrapped_iff {fold : Char → Char} (hfold : KeepsMeta fold) (v : Text) :
    (∀ t, ilike fold t ('%' :: (v ++ ['%'])) = some true ↔ OccursIn fold v t) ↔
      ∀ c ∈ v, isLikeMeta c = false := by
  have hpercent := (hfold.percent '%').mpr rfl
  have hpattern : ('%' :: (v ++ ['%'])).map fold = '%' :: (v.map fold ++ ['%']) := by simp [hpercent]
  have hmeta : (∀ c ∈ v.map fold, isLikeMeta c = false) ↔ ∀ c ∈ v, isLikeMeta c = false := by
    simp only [List.forall_mem_map, hfold.isLikeMeta]
  simp only [ilike, hpattern, OccursIn, ← hmeta]
  constructor
  · intro h
    have hx : fold 'x' ≠ '_' := fun hx => absurd ((hfold.underscore 'x').mp hx) (by decide)
    have hmatch := wrapped_shortest (fold 'x') (v.map fold)
    rw [← shortestMatch_map hfold] at hmatch
    have hin := (h _).mp hmatch
    rw [shortestMatch_map hfold] at hin
    have hle := (length_shortest_le (fold 'x') (v.map fold)).1
    exact lits_of_shortest hx (hin.eq_of_length (Nat.le_antisymm hin.length_le hle)).symm
  · exact fun h t => wrapped_lits h (t.map fold)

end Onisin.Lib
