import Onisin.Lib.Text

/-!
Finite maps with texts as keys. A map lists every key once, so that writing it out and
collecting it again are inverse to each other as far as lookups can see.
-/

set_option autoImplicit false

namespace Onisin.Lib

abbrev Dict (α : Type) := List (Text × α)

namespace Dict
variable {α : Type}

def insert (d : Dict α) (key : Text) (v : α) : Dict α := (key, v) :: d.filter fun e => e.1 ≠ key

/-- Collecting pairs: of several with one key the last is kept. -/
def ofPairs (pairs : List (Text × α)) : Dict α := pairs.foldl (fun d e => insert d e.1 e.2) []

@[simp] theorem lookup_cons (e : Text × α) (d : Dict α) (k : Text) :
    List.lookup k (e :: d) = if k = e.1 then some e.2 else d.lookup k := by
  obtain ⟨k', v⟩ := e
  rw [List.lookup_cons]
  by_cases h : k = k'
  · simp [h]
  · rw [if_neg h, beq_eq_false_iff_ne.mpr h]

theorem lookup_pair {k k' : Text} (h : k' ≠ k) (v v' : α) :
    List.lookup k [(k, v), (k', v')] = some v ∧ List.lookup k' [(k, v), (k', v')] = some v' := by
  simp only [lookup_cons, if_neg h, if_true, and_self]

theorem lookup_filter_ne {d : Dict α} {key k : Text} (h : k ≠ key) :
    (d.filter fun e => e.1 ≠ key).lookup k = d.lookup k := by
  induction d with
  | nil => rfl
  | cons e d ih =>
    by_cases hk : e.1 = key
    · rw [List.filter_cons_of_neg (by simpa using hk), ih, lookup_cons, if_neg (hk ▸ h)]
    · rw [List.filter_cons_of_pos (by simpa using hk), lookup_cons, lookup_cons, ih]

theorem lookup_insert (d : Dict α) (key : Text) (v : α) (k : Text) :
    (insert d key v).lookup k = if k = key then some v else d.lookup k := by
  rw [insert, lookup_cons]
  by_cases h : k = key
  · rw [if_pos h, if_pos h]
  · rw [if_neg h, if_neg h, lookup_filter_ne h]

theorem lookup_append (d₁ d₂ : Dict α) (k : Text) :
    List.lookup k (d₁ ++ d₂) = (d₁.lookup k).or (d₂.lookup k) := by
  induction d₁ with
  | nil => rfl
  | cons e d₁ ih =>
    rw [List.cons_append, lookup_cons, lookup_cons, ih]
    split <;> rfl

theorem lookup_ofPairs (pairs : List (Text × α)) (k : Text) :
    (ofPairs pairs).lookup k = pairs.reverse.lookup k := by
  have hfold : ∀ d : Dict α, (pairs.foldl (fun d e => insert d e.1 e.2) d).lookup k =
      (pairs.reverse.lookup k).or (d.lookup k) := by
    induction pairs with
    | nil => exact fun d => rfl
    | cons e pairs ih =>
      intro d
      rw [List.foldl_cons, ih, lookup_insert, List.reverse_cons, lookup_append, Option.or_assoc,
        lookup_cons]
      split <;> rfl
  rw [ofPairs, hfold]
  cases pairs.reverse.lookup k <;> rfl

/-- The new values may depend on the keys. -/
theorem lookup_map_key (d : Dict α) {β : Type} (f : Text → α → β) (k : Text) :
    List.lookup k (d.map fun e => (e.1, f e.1 e.2)) = (d.lookup k).map (f k) := by
  induction d with
  | nil => rfl
  | cons e d ih =>
    rw [List.map_cons, lookup_cons, lookup_cons, ih]
    split
    · next h => rw [h, Option.map_some]
    · rfl

theorem lookup_map (d : Dict α) {β : Type} (f : α → β) (k : Text) :
    List.lookup k (d.map fun e => (e.1, f e.2)) = (d.lookup k).map f := lookup_map_key d (fun _ => f) k

theorem lookup_isSome_iff {d : Dict α} {k : Text} : (d.lookup k).isSome ↔ k ∈ d.map Prod.fst := by
  induction d with
  | nil => simp
  | cons e d ih =>
    rw [lookup_cons, List.map_cons, List.mem_cons, ← ih]
    split
    · simp_all
    · simp_all

theorem nodup_insert {d : Dict α} (h : (d.map Prod.fst).Nodup) (key : Text) (v : α) :
    ((insert d key v).map Prod.fst).Nodup := by
  rw [insert, List.map_cons, List.nodup_cons]
  refine ⟨?_, h.sublist (List.filter_sublist.map Prod.fst)⟩
  intro hmem
  obtain ⟨e, he, rfl⟩ := List.mem_map.mp hmem
  simpa using (List.mem_filter.mp he).2

theorem nodup_ofPairs (pairs : List (Text × α)) : ((ofPairs pairs).map Prod.fst).Nodup := by
  have hfold : ∀ d : Dict α, (d.map Prod.fst).Nodup →
      ((pairs.foldl (fun d e => insert d e.1 e.2) d).map Prod.fst).Nodup := by
    induction pairs with
    | nil => exact fun _ h => h
    | cons e pairs ih => exact fun d h => ih _ (nodup_insert h e.1 e.2)
  exact hfold [] List.nodup_nil

theorem lookup_of_mem {d : Dict α} (h : (d.map Prod.fst).Nodup) {e : Text × α} (he : e ∈ d) :
    d.lookup e.1 = some e.2 := by
  induction d with
  | nil => cases he
  | cons e' d ih =>
    rw [List.map_cons, List.nodup_cons] at h
    rw [lookup_cons]
    obtain rfl | he := List.mem_cons.mp he
    · rw [if_pos rfl]
    · have hne : e.1 ≠ e'.1 := fun hk => h.1 (hk ▸ List.mem_map_of_mem he)
      rw [if_neg hne, ih h.2 he]

/-- A map that lists every key once is the same read from either end. -/
theorem lookup_reverse {d : Dict α} (h : (d.map Prod.fst).Nodup) (k : Text) :
    d.reverse.lookup k = d.lookup k := by
  induction d with
  | nil => rfl
  | cons e d ih =>
    rw [List.map_cons, List.nodup_cons] at h
    rw [List.reverse_cons, lookup_append, ih h.2, lookup_cons, lookup_cons]
    by_cases hk : k = e.1
    · have hnone : d.lookup k = none := by
        rw [← Option.not_isSome_iff_eq_none, lookup_isSome_iff, hk]
        exact h.1
      rw [if_pos hk, if_pos hk, hnone]
      rfl
    · rw [if_neg hk, if_neg hk]
      exact Option.or_none

/-! Maps in insertion order, as objects of JavaScript are: a key that is there keeps its place. -/

def put (d : Dict α) (key : Text) (v : α) : Dict α :=
  if (d.lookup key).isSome then d.map fun e => if e.1 = key then (key, v) else e
  else d ++ [(key, v)]

theorem lookup_put (d : Dict α) (key : Text) (v : α) (k : Text) :
    (put d key v).lookup k = if k = key then some v else d.lookup k := by
  have hreplace : ∀ d : Dict α, List.lookup k (d.map fun e => if e.1 = key then (key, v) else e) =
      if k = key then (d.lookup k).map fun _ => v else d.lookup k := by
    intro d
    induction d with
    | nil => simp
    | cons e d ih =>
      rw [List.map_cons, lookup_cons, lookup_cons, ih]
      by_cases hkey : e.1 = key
      · by_cases hk : k = key
        · simp [hkey, hk]
        · simp [hkey, hk]
      · by_cases hk : k = e.1
        · simp [hkey, hk]
        · simp [hkey, hk]
  rw [put]
  by_cases hsome : (d.lookup key).isSome = true
  · rw [if_pos hsome, hreplace]
    by_cases hk : k = key
    · obtain ⟨w, hw⟩ := Option.isSome_iff_exists.mp hsome
      rw [if_pos hk, if_pos hk, hk, hw]
      rfl
    · rw [if_neg hk, if_neg hk]
  · rw [if_neg hsome, lookup_append, lookup_cons]
    by_cases hk : k = key
    · have hnone : d.lookup k = none := by
        rw [hk]
        exact Option.not_isSome_iff_eq_none.mp hsome
      rw [if_pos hk, if_pos hk, hnone]
      rfl
    · rw [if_neg hk, if_neg hk]
      exact Option.or_none

theorem keys_put (d : Dict α) (key : Text) (v : α) :
    (put d key v).map Prod.fst = if (d.lookup key).isSome then d.map Prod.fst else d.map Prod.fst ++ [key] := by
  rw [put]
  split
  · rw [List.map_map]
    refine List.map_congr_left fun e _ => ?_
    dsimp only [Function.comp]
    split
    · next h => exact h.symm
    · rfl
  · rw [List.map_append]
    rfl

theorem nodup_put {d : Dict α} (h : (d.map Prod.fst).Nodup) (key : Text) (v : α) :
    ((put d key v).map Prod.fst).Nodup := by
  rw [keys_put]
  split
  · exact h
  · next hnone =>
    rw [lookup_isSome_iff] at hnone
    exact List.nodup_append_comm.mp (List.nodup_cons.mpr ⟨hnone, h⟩)

/-- Pairs put one after the other, under keys computed from theirs; a pair may be skipped. -/
def putAll {β : Type} (f : Text × β → Option (Text × α)) (pairs : List (Text × β)) (d : Dict α) : Dict α :=
  pairs.foldl (fun d e => (f e).elim d fun e => put d e.1 e.2) d

theorem lookup_putAll {β : Type} (f : Text × β → Option (Text × α)) (pairs : List (Text × β)) (d : Dict α)
    (k : Text) : (putAll f pairs d).lookup k = (List.lookup k (pairs.filterMap f).reverse).or (d.lookup k) := by
  induction pairs generalizing d with
  | nil => rfl
  | cons e pairs ih =>
    rw [putAll, List.foldl_cons, ← putAll, ih, List.filterMap_cons]
    cases hf : f e with
    | none => rfl
    | some e' =>
      rw [List.reverse_cons, lookup_append, Option.or_assoc, lookup_cons, Option.elim_some, lookup_put]
      split <;> rfl

theorem nodup_putAll {β : Type} (f : Text × β → Option (Text × α)) (pairs : List (Text × β)) {d : Dict α}
    (h : (d.map Prod.fst).Nodup) : ((putAll f pairs d).map Prod.fst).Nodup := by
  induction pairs generalizing d with
  | nil => exact h
  | cons e pairs ih =>
    rw [putAll, List.foldl_cons, ← putAll]
    cases f e with
    | none => exact ih h
    | some e' => exact ih (nodup_put h _ _)

theorem lookup_eq_find (d : Dict α) (k : Text) : d.lookup k = (d.find? fun e => e.1 = k).map Prod.snd := by
  induction d with
  | nil => rfl
  | cons e d ih =>
    rw [lookup_cons, List.find?_cons, ih]
    by_cases hk : k = e.1
    · rw [if_pos hk, decide_eq_true hk.symm]
      rfl
    · rw [if_neg hk, decide_eq_false fun h => hk h.symm]

/-- Several keys may become the same one: the first of them in the list has the value. -/
theorem lookup_filterMap_find {β : Type} {g : Text → Option Text} {p : Text → Bool} {d : Dict β} {k : Text}
    (h : ∀ e ∈ d, g e.1 = some k ↔ p e.1 = true) :
    List.lookup k (d.filterMap fun e => (g e.1).map fun key => (key, e.2)) =
      (d.find? fun e => p e.1).map Prod.snd := by
  induction d with
  | nil => rfl
  | cons e d ih =>
    have he := h e List.mem_cons_self
    have hrest := ih fun e he => h e (List.mem_cons_of_mem _ he)
    rw [List.filterMap_cons, List.find?_cons]
    cases hp : p e.1 with
    | true =>
      rw [he.mpr hp, Option.map_some]
      dsimp only
      rw [lookup_cons, if_pos rfl]
      rfl
    | false =>
      cases hg : g e.1 with
      | none => exact hrest
      | some key =>
        have hne : k ≠ key := by
          intro hk
          rw [he.mp (hg.trans (congrArg some hk.symm))] at hp
          cases hp
        dsimp only [Option.map_some]
        rw [lookup_cons, if_neg hne]
        exact hrest

theorem lookup_filterMap {β : Type} {g : Text → Option Text} {d : Dict β} {k k' : Text}
    (h : ∀ e ∈ d, g e.1 = some k ↔ e.1 = k') :
    List.lookup k (d.filterMap fun e => (g e.1).map fun key => (key, e.2)) = d.lookup k' := by
  have hkey : ∀ e ∈ d, g e.1 = some k ↔ decide (e.1 = k') = true := fun e he =>
    (h e he).trans decide_eq_true_iff.symm
  rw [lookup_filterMap_find (p := fun key => decide (key = k')) hkey, lookup_eq_find]

/-- Putting a map under other keys: the value of a key is that of the one key that becomes it. -/
theorem lookup_putAll_rename {g : Text → Option Text} {d : Dict α} (hd : (d.map Prod.fst).Nodup) {k k' : Text}
    (h : ∀ e ∈ d, g e.1 = some k ↔ e.1 = k') :
    (putAll (fun e => (g e.1).map fun key => (key, e.2)) d []).lookup k = d.lookup k' := by
  rw [lookup_putAll, ← List.filterMap_reverse, lookup_filterMap fun e he => h e (List.mem_reverse.mp he),
    lookup_reverse hd]
  exact Option.or_none

theorem lookup_putAll_none {g : Text → Option Text} {d : Dict α} {k : Text} (h : ∀ e ∈ d, g e.1 ≠ some k) :
    (putAll (fun e => (g e.1).map fun key => (key, e.2)) d []).lookup k = none := by
  rw [← Option.not_isSome_iff_eq_none, lookup_putAll]
  intro hsome
  have hmem : k ∈ ((d.filterMap fun e => (g e.1).map fun key => (key, e.2)).reverse).map Prod.fst := by
    rw [← lookup_isSome_iff]
    rwa [List.lookup_nil, Option.or_none] at hsome
  obtain ⟨e', he', rfl⟩ := List.mem_map.mp hmem
  obtain ⟨e, he, hge⟩ := List.mem_filterMap.mp (List.mem_reverse.mp he')
  obtain ⟨key, hkey, rfl⟩ := Option.map_eq_some_iff.mp hge
  exact h e he hkey

theorem lookup_map_keys (names : List Text) (f : Text → α) (k : Text) :
    List.lookup k (names.map fun n => (n, f n)) = if k ∈ names then some (f k) else none := by
  induction names with
  | nil => rfl
  | cons n names ih =>
    rw [List.map_cons, lookup_cons, ih]
    by_cases hk : k = n
    · rw [if_pos hk, if_pos (List.mem_cons.mpr (.inl hk)), hk]
    · simp only [List.mem_cons, hk, if_false, false_or]

/-! The order in which JavaScript lists the properties of an object. -/

/-- The number that a property name is, if it is an array index. -/
def arrayIndex (key : Text) : Option Nat :=
  let n := Nat.ofDigitChars 10 key 0
  if key.all Char.isDigit ∧ Nat.toDigits 10 n = key ∧ n < 4294967295 then some n else none

/-- Array indices come first, in ascending order, then the other names as they were put. -/
def enumerate (d : Dict α) : Dict α :=
  (d.filter fun e => (arrayIndex e.1).isSome).insertionSort
      (fun e e' => (arrayIndex e.1).getD 0 ≤ (arrayIndex e'.1).getD 0) ++
    d.filter fun e => (arrayIndex e.1).isNone

theorem enumerate_perm (d : Dict α) : d.enumerate.Perm d := by
  have hsort := List.perm_insertionSort
    (fun e e' : Text × α => (arrayIndex e.1).getD 0 ≤ (arrayIndex e'.1).getD 0)
    (d.filter fun e => (arrayIndex e.1).isSome)
  have hnone : (d.filter fun e => (arrayIndex e.1).isNone) =
      d.filter fun e => !(arrayIndex e.1).isSome := by
    refine List.filter_congr fun e _ => ?_
    cases arrayIndex e.1 <;> rfl
  rw [enumerate, hnone]
  exact (hsort.append_right _).trans (List.filter_append_perm _ d)

theorem nodup_enumerate {d : Dict α} (h : (d.map Prod.fst).Nodup) : (d.enumerate.map Prod.fst).Nodup :=
  (d.enumerate_perm.map Prod.fst).nodup_iff.mpr h

/-- What a key is bound to does not depend on the order. -/
theorem lookup_enumerate {d : Dict α} (h : (d.map Prod.fst).Nodup) (k : Text) :
    d.enumerate.lookup k = d.lookup k := by
  cases hk : d.lookup k with
  | some v =>
    have hsome : (d.lookup k).isSome = true := by rw [hk]; rfl
    obtain ⟨e, he, rfl⟩ := List.mem_map.mp (lookup_isSome_iff.mp hsome)
    rw [lookup_of_mem (nodup_enumerate h) (d.enumerate_perm.mem_iff.mpr he), ← hk, lookup_of_mem h he]
  | none =>
    rw [← Option.not_isSome_iff_eq_none, lookup_isSome_iff, (d.enumerate_perm.map Prod.fst).mem_iff,
      ← lookup_isSome_iff, hk]
    exact Bool.false_ne_true

end Dict

end Onisin.Lib
