import Onisin.Lib.Text

/-!
Recursive-descent parsing over a stream of located tokens. A parser is described by the
tokens it takes off the stream: positions only matter to the errors. The loop of a grammar's
repetition is one rule here, with look-ahead deciding whether another item is read.
-/

set_option autoImplicit false

namespace Onisin.Lib

structure ParseError where
  line : Nat
  col : Nat
  message : Text
  deriving DecidableEq, Repr

structure Located (κ : Type) where
  tok : κ
  line : Nat
  col : Nat
  deriving DecidableEq, Repr

abbrev Parser (κ : Type) := StateT (List (Located κ)) (Except ParseError)

namespace Parser
variable {κ α β σ : Type}

def peek : Parser κ (Option κ) := fun ts => .ok (ts.head?.map Located.tok, ts)

def advance : Parser κ Unit := fun ts => .ok ((), ts.tail)

/-- An error at the current token; behind the last one the position is `0:0`. -/
def fail (message : Text) : Parser κ α := fun ts =>
  match ts with
  | [] => .error ⟨0, 0, message⟩
  | t :: _ => .error ⟨t.line, t.col, message⟩

/-- One token of a kind. -/
def accept (kind : κ → Option α) (message : Text) : Parser κ α := do
  match (← peek).bind kind with
  | some a => do
    advance
    return a
  | none => fail message

def eat [DecidableEq κ] (want : κ) (label : Text) : Parser κ Unit :=
  accept (fun k => if k = want then some () else none) ("expected ".toList ++ label)

/-- Repeats `item` as long as the look-ahead says so. Every item takes a token, so that the
fuel, one more than the number of tokens, does not run out. -/
def iterate (start : Option κ → Bool) (item : σ → Parser κ σ) : Nat → σ → Parser κ σ
  | 0, _ => fail "out of fuel".toList
  | fuel + 1, s => do
    if start (← peek) then
      let s' ← item s
      iterate start item fuel s'
    else return s

def loop (start : Option κ → Bool) (item : σ → Parser κ σ) (s : σ) : Parser κ σ := fun ts =>
  iterate start item (ts.length + 1) s ts

/-! What a parser takes. -/

/-- `ts` is the tokens `ks`, at some positions, and then `rest`. -/
def Takes (ks : List κ) (ts rest : List (Located κ)) : Prop :=
  ∃ pre, ts = pre ++ rest ∧ pre.map Located.tok = ks

@[simp] theorem takes_nil {ts rest : List (Located κ)} : Takes [] ts rest ↔ ts = rest := by
  simp [Takes]

theorem takes_append {ks₁ ks₂ : List κ} {ts rest : List (Located κ)} :
    Takes (ks₁ ++ ks₂) ts rest ↔ ∃ mid, Takes ks₁ ts mid ∧ Takes ks₂ mid rest := by
  constructor
  · rintro ⟨pre, rfl, hpre⟩
    obtain ⟨pre₁, pre₂, rfl, rfl, rfl⟩ := List.map_eq_append_iff.mp hpre
    exact ⟨pre₂ ++ rest, ⟨pre₁, List.append_assoc _ _ _, rfl⟩, pre₂, rfl, rfl⟩
  · rintro ⟨mid, ⟨pre₁, rfl, rfl⟩, pre₂, rfl, rfl⟩
    exact ⟨pre₁ ++ pre₂, (List.append_assoc _ _ _).symm, List.map_append⟩

theorem takes_cons {k : κ} {ks : List κ} {ts rest : List (Located κ)} :
    Takes (k :: ks) ts rest ↔ ∃ mid, Takes [k] ts mid ∧ Takes ks mid rest := by
  rw [← List.singleton_append, takes_append]

@[simp] theorem takes_cons_cons {k k' : κ} {ks : List κ} {ts rest : List (Located κ)} :
    Takes (k :: k' :: ks) ts rest ↔ ∃ mid, Takes [k] ts mid ∧ Takes (k' :: ks) mid rest :=
  takes_cons

theorem takes_single {k : κ} {ts rest : List (Located κ)} :
    Takes [k] ts rest ↔ ∃ t, ts = t :: rest ∧ t.tok = k := by
  constructor
  · rintro ⟨pre, rfl, hpre⟩
    obtain ⟨t, rfl, rfl⟩ := List.map_eq_singleton_iff.mp hpre
    exact ⟨t, rfl, rfl⟩
  · rintro ⟨t, rfl, rfl⟩
    exact ⟨[t], rfl, rfl⟩

theorem Takes.toks {ks : List κ} {ts rest : List (Located κ)} (h : Takes ks ts rest) :
    ts.map Located.tok = ks ++ rest.map Located.tok := by
  obtain ⟨pre, rfl, rfl⟩ := h
  exact List.map_append

theorem takes_all {ks : List κ} {ts : List (Located κ)} : Takes ks ts [] ↔ ts.map Located.tok = ks := by
  simp [Takes]

theorem Takes.length {ks : List κ} {ts rest : List (Located κ)} (h : Takes ks ts rest) :
    ts.length = ks.length + rest.length := by
  obtain ⟨pre, rfl, rfl⟩ := h
  simp

def head (ts : List (Located κ)) : Option κ := ts.head?.map Located.tok

theorem Takes.head {k : κ} {ks : List κ} {ts rest : List (Located κ)} (h : Takes (k :: ks) ts rest) :
    Parser.head ts = some k := by
  obtain ⟨mid, h, -⟩ := takes_cons.mp h
  obtain ⟨t, rfl, rfl⟩ := takes_single.mp h
  rfl

/-! Results that are `ok`, one lemma for each way to build a parser. -/

@[simp] theorem pure_ok {a b : α} {ts rest : List (Located κ)} :
    (pure a : Parser κ α) ts = .ok (b, rest) ↔ b = a ∧ ts = rest := by
  constructor
  · intro h
    cases h
    exact ⟨rfl, rfl⟩
  · rintro ⟨rfl, rfl⟩
    rfl

theorem bind_ok {p : Parser κ α} {f : α → Parser κ β} {b : β} {ts rest : List (Located κ)} :
    (p >>= f) ts = .ok (b, rest) ↔ ∃ a mid, p ts = .ok (a, mid) ∧ f a mid = .ok (b, rest) := by
  have hbind : (p >>= f) ts = p ts >>= fun r => f r.1 r.2 := rfl
  rw [hbind]
  cases p ts with
  | error e =>
    refine iff_of_false nofun ?_
    rintro ⟨a, mid, h, -⟩
    cases h
  | ok r =>
    constructor
    · exact fun h => ⟨r.1, r.2, rfl, h⟩
    · rintro ⟨a, mid, h, hf⟩
      cases h
      exact hf

@[simp] theorem fail_ok {message : Text} {a : α} {ts rest : List (Located κ)} :
    (fail message : Parser κ α) ts = .ok (a, rest) ↔ False := by
  cases ts <;> simp [fail]

theorem peek_bind (f : Option κ → Parser κ β) (ts : List (Located κ)) :
    (peek >>= f) ts = f (head ts) ts := rfl

/-- Moving on takes the token that was seen. -/
theorem advance_ok {k : κ} {u : Unit} {ts rest : List (Located κ)} (h : head ts = some k) :
    advance ts = .ok (u, rest) ↔ Takes [k] ts rest := by
  cases ts with
  | nil => cases h
  | cons t ts =>
    obtain rfl := Option.some.inj h
    rw [takes_single]
    constructor
    · intro hadv
      cases hadv
      exact ⟨t, rfl, rfl⟩
    · rintro ⟨t', heq, -⟩
      cases heq
      rfl

theorem accept_ok {kind : κ → Option α} {message : Text} {a : α} {ts rest : List (Located κ)} :
    accept kind message ts = .ok (a, rest) ↔ ∃ k, kind k = some a ∧ Takes [k] ts rest := by
  rw [accept, peek_bind]
  cases ts with
  | nil => simp [head, takes_single]
  | cons t ts =>
    simp only [head, List.head?_cons, Option.map_some, Option.bind_some, takes_single, List.cons.injEq]
    cases hk : kind t.tok with
    | none =>
      simp only [fail_ok, false_iff]
      rintro ⟨k, hk', t', ⟨rfl, -⟩, rfl⟩
      exact absurd (hk.symm.trans hk') (Option.some_ne_none a).symm
    | some b =>
      rw [bind_ok]
      constructor
      · rintro ⟨u, mid, hadv, hret⟩
        obtain ⟨rfl, rfl⟩ := pure_ok.mp hret
        cases hadv
        exact ⟨t.tok, hk, t, ⟨rfl, rfl⟩, rfl⟩
      · rintro ⟨k, hk', t', ⟨rfl, rfl⟩, rfl⟩
        obtain rfl := Option.some.inj (hk.symm.trans hk')
        exact ⟨(), ts, rfl, rfl⟩

theorem eat_ok [DecidableEq κ] {want : κ} {label : Text} {u : Unit} {ts rest : List (Located κ)} :
    eat want label ts = .ok (u, rest) ↔ Takes [want] ts rest := by
  rw [eat, accept_ok]
  constructor
  · rintro ⟨k, hk, h⟩
    split at hk
    · rename_i hwant
      exact hwant ▸ h
    · cases hk
  · intro h
    exact ⟨want, if_pos rfl, h⟩

/-! The loop. -/

section Loop
variable {τ : Type} {start : Option κ → Bool} {item : σ → Parser κ σ} {yield : τ → List κ}
  {effect : σ → τ → σ}

/-- Whatever the loop reads is a sequence of items, up to where the look-ahead ends it. -/
theorem iterate_sound
    (hitem : ∀ s s' ts rest, start (head ts) = true → item s ts = .ok (s', rest) →
      ∃ t, s' = effect s t ∧ Takes (yield t) ts rest)
    {fuel : Nat} {s s' : σ} {ts rest : List (Located κ)}
    (h : iterate start item fuel s ts = .ok (s', rest)) :
    start (head rest) = false ∧
      ∃ items : List τ, s' = items.foldl effect s ∧ Takes (items.flatMap yield) ts rest := by
  induction fuel generalizing s ts with
  | zero => cases fail_ok.mp h
  | succ fuel ih =>
    rw [iterate, peek_bind] at h
    split at h
    · rename_i hstart
      obtain ⟨s₁, mid, hfirst, hmore⟩ := bind_ok.mp h
      obtain ⟨t, rfl, htake⟩ := hitem _ _ _ _ hstart hfirst
      obtain ⟨hend, items, hs, htakes⟩ := ih hmore
      exact ⟨hend, t :: items, hs, takes_append.mpr ⟨mid, htake, htakes⟩⟩
    · rename_i hstart
      obtain ⟨rfl, rfl⟩ := pure_ok.mp h
      exact ⟨Bool.eq_false_iff.mpr hstart, [], rfl, takes_nil.mpr rfl⟩

/-- A sequence of items is read to its end, if each starts as the look-ahead expects and may
stand before the next one. -/
theorem iterate_complete (follow : List κ → Prop)
    (hstart : ∀ t, ∃ k ks, yield t = k :: ks ∧ start (some k) = true)
    (hfollow : ∀ t ks, follow (yield t ++ ks))
    (hitem : ∀ s ts rest t, Takes (yield t) ts rest → follow (rest.map Located.tok) →
      item s ts = .ok (effect s t, rest))
    {fuel : Nat} {s : σ} {items : List τ} {ts rest : List (Located κ)}
    (hfuel : ts.length < fuel) (htake : Takes (items.flatMap yield) ts rest)
    (hend : start (head rest) = false) (hrest : follow (rest.map Located.tok)) :
    iterate start item fuel s ts = .ok (items.foldl effect s, rest) := by
  induction items generalizing fuel s ts with
  | nil =>
    obtain rfl := takes_nil.mp htake
    obtain ⟨fuel, rfl⟩ : ∃ n, fuel = n + 1 := ⟨fuel - 1, by omega⟩
    rw [iterate, peek_bind, hend]
    rfl
  | cons t items ih =>
    obtain ⟨fuel, rfl⟩ : ∃ n, fuel = n + 1 := ⟨fuel - 1, by omega⟩
    rw [List.flatMap_cons, takes_append] at htake
    obtain ⟨mid, hfirst, hmore⟩ := htake
    obtain ⟨k, ks, hyield, hk⟩ := hstart t
    have hhead : head ts = some k := (hyield ▸ hfirst).head
    have hlen := (hyield ▸ hfirst).length
    -- what stands behind the first item is either another one or the end of the loop
    have hmid : follow (mid.map Located.tok) := by
      cases items with
      | nil =>
        obtain rfl := takes_nil.mp hmore
        exact hrest
      | cons u items =>
        rw [hmore.toks, List.flatMap_cons, List.append_assoc]
        exact hfollow u _
    rw [List.length_cons] at hlen
    rw [iterate, peek_bind, hhead, if_pos hk]
    exact bind_ok.mpr ⟨_, mid, hitem _ _ _ t hfirst hmid, ih (by omega) hmore⟩

theorem loop_sound
    (hitem : ∀ s s' ts rest, start (head ts) = true → item s ts = .ok (s', rest) →
      ∃ t, s' = effect s t ∧ Takes (yield t) ts rest)
    {s s' : σ} {ts rest : List (Located κ)} (h : loop start item s ts = .ok (s', rest)) :
    start (head rest) = false ∧
      ∃ items : List τ, s' = items.foldl effect s ∧ Takes (items.flatMap yield) ts rest :=
  iterate_sound hitem h

theorem loop_complete (follow : List κ → Prop)
    (hstart : ∀ t, ∃ k ks, yield t = k :: ks ∧ start (some k) = true)
    (hfollow : ∀ t ks, follow (yield t ++ ks))
    (hitem : ∀ s ts rest t, Takes (yield t) ts rest → follow (rest.map Located.tok) →
      item s ts = .ok (effect s t, rest))
    {s : σ} {items : List τ} {ts rest : List (Located κ)}
    (htake : Takes (items.flatMap yield) ts rest)
    (hend : start (head rest) = false) (hrest : follow (rest.map Located.tok)) :
    loop start item s ts = .ok (items.foldl effect s, rest) :=
  iterate_complete follow hstart hfollow hitem (Nat.lt_succ_self _) htake hend hrest

/-- Items that nothing behind them can continue. -/
theorem loop_ok (item : σ → Parser κ σ)
    (hstart : ∀ t, ∃ k ks, yield t = k :: ks ∧ start (some k) = true)
    (hitem : ∀ s s' ts rest, start (head ts) = true →
      (item s ts = .ok (s', rest) ↔ ∃ t, s' = effect s t ∧ Takes (yield t) ts rest))
    {s s' : σ} {ts rest : List (Located κ)} :
    loop start item s ts = .ok (s', rest) ↔ start (head rest) = false ∧
      ∃ items : List τ, s' = items.foldl effect s ∧ Takes (items.flatMap yield) ts rest := by
  constructor
  · exact loop_sound fun s s' ts rest hs => (hitem s s' ts rest hs).mp
  · rintro ⟨hend, items, rfl, htake⟩
    refine loop_complete (fun _ => True) hstart (fun _ _ => trivial) ?_ htake hend trivial
    intro s ts rest t ht _
    obtain ⟨k, ks, hyield, hk⟩ := hstart t
    have hhead : head ts = some k := (hyield ▸ ht).head
    exact (hitem s _ ts rest (hhead ▸ hk)).mpr ⟨t, rfl, ht⟩

end Loop

/-- The effect of a loop that collects its items. -/
theorem foldl_push {τ : Type} (f : τ → α) (items : List τ) (as : List α) :
    items.foldl (fun as t => as ++ [f t]) as = as ++ items.map f := by
  rw [List.foldl_append_eq_append, List.flatten_eq_flatMap, List.flatMap_map, List.map_eq_flatMap]
  rfl

/-! Unambiguous rules. -/

/-- A stream has at most one way to start with a tree of this kind, provided that what stands
behind it is as `follow` says. -/
def Determined {τ : Type} (yield : τ → List κ) (follow : List κ → Prop) : Prop :=
  ∀ t t' r r', follow r → follow r' → yield t ++ r = yield t' ++ r' → t = t' ∧ r = r'

/-- Repetition keeps a rule unambiguous, if an item is told from what follows the whole. -/
theorem Determined.flatMap {τ : Type} {yield : τ → List κ} {follow : List κ → Prop}
    (h : Determined yield follow) (start : Option κ → Bool)
    (hstart : ∀ t, ∃ k ks, yield t = k :: ks ∧ start (some k) = true)
    (hfollow : ∀ t ks, follow (yield t ++ ks)) :
    Determined (fun items : List τ => items.flatMap yield)
      (fun r => start r.head? = false ∧ follow r) := by
  have hhead : ∀ t r, start (yield t ++ r).head? = true := by
    intro t r
    obtain ⟨k, ks, hyield, hk⟩ := hstart t
    rw [hyield]
    exact hk
  have hrest : ∀ (items : List τ) r, start r.head? = false ∧ follow r →
      follow (items.flatMap yield ++ r) := by
    intro items r hr
    cases items with
    | nil => exact hr.2
    | cons t items =>
      rw [List.flatMap_cons, List.append_assoc]
      exact hfollow t _
  intro items
  induction items with
  | nil =>
    intro items' r r' hr hr' heq
    cases items' with
    | nil => exact ⟨rfl, heq⟩
    | cons t' items' =>
      simp only [List.flatMap_nil, List.nil_append, List.flatMap_cons, List.append_assoc] at heq
      have := hhead t' (items'.flatMap yield ++ r')
      rw [← heq, hr.1] at this
      cases this
  | cons t items ih =>
    intro items' r r' hr hr' heq
    cases items' with
    | nil =>
      simp only [List.flatMap_nil, List.nil_append, List.flatMap_cons, List.append_assoc] at heq
      have := hhead t (items.flatMap yield ++ r)
      rw [heq, hr'.1] at this
      cases this
    | cons t' items' =>
      simp only [List.flatMap_cons, List.append_assoc] at heq
      obtain ⟨rfl, hmore⟩ := h t t' _ _ (hrest items r hr) (hrest items' r' hr') heq
      obtain ⟨rfl, rfl⟩ := ih items' r r' hr hr' hmore
      exact ⟨rfl, rfl⟩

end Parser

end Onisin.Lib
