import Onisin.Dsl.EditorLexer

/-!
What the editor accepts against what the parser makes of it. The two read the same tree; they
differ in the leaves, where escapes, numbers and the ends of aliases are read in two ways.
-/

set_option autoImplicit false

namespace Onisin.Domain
open Lib

/-! Escapes. -/

/-- The letters of the escapes that stand for a control character in the editor only. -/
def controlEscape (c : Char) : Bool := c = 'b' || c = 'f' || c = 'v' || c = '0'

def plainEscapes : Text → Bool
  | '\\' :: c :: t => !controlEscape c && plainEscapes t
  | _ :: t => plainEscapes t
  | [] => true

/-- A raw string without these escapes. -/
def PlainEscapes (raw : Text) : Prop := plainEscapes raw = true

instance (raw : Text) : Decidable (PlainEscapes raw) := inferInstanceAs (Decidable (_ = true))

theorem unescape_eq_iff (c : Char) : unescape c = convertEscapeCharacter c ↔ controlEscape c = false := by
  by_cases hcontrol : controlEscape c = true
  · have hletter : c = 'b' ∨ c = 'f' ∨ c = 'v' ∨ c = '0' := by
      simpa [controlEscape, or_assoc] using hcontrol
    rcases hletter with rfl | rfl | rfl | rfl <;> decide
  · have hletter : c ≠ 'b' ∧ c ≠ 'f' ∧ c ≠ 'v' ∧ c ≠ '0' := by
      simpa [controlEscape, and_assoc] using hcontrol
    obtain ⟨hb, hf, hv, h0⟩ := hletter
    refine iff_of_true ?_ (Bool.eq_false_iff.mpr hcontrol)
    rw [unescape, convertEscapeCharacter, if_neg hb, if_neg hf, if_neg hv, if_neg h0]
    by_cases hn : c = 'n' <;> by_cases ht : c = 't' <;> by_cases hr : c = 'r' <;> simp_all

theorem replaceEscapes_eq_iff (raw : Text) :
    replaceEscapes unescape raw = convertString raw ↔ PlainEscapes raw := by
  rw [convertString, PlainEscapes]
  fun_induction plainEscapes raw with
  | case1 c t ih =>
    rw [replaceEscapes, replaceEscapes, List.cons.injEq, unescape_eq_iff, ih, Bool.and_eq_true,
      Bool.not_eq_true']
  | case2 c t hslash ih =>
    rw [replaceEscapes, replaceEscapes, List.cons.injEq, ih]
    · simp
    · exact hslash
    · exact hslash
  | case3 => simp [replaceEscapes]

/-- White space is the same in both readings. -/
theorem replaceEscapes_space (raw : Text) :
    List.Forall₂ (fun x y => isWhitespace x = true → x = y) (replaceEscapes unescape raw)
      (convertString raw) := by
  have hescape : ∀ c, isWhitespace (unescape c) = true → unescape c = convertEscapeCharacter c := by
    intro c hspace
    rw [unescape_eq_iff, Bool.eq_false_iff]
    intro hcontrol
    have hletter : c = 'b' ∨ c = 'f' ∨ c = 'v' ∨ c = '0' := by
      simpa [controlEscape, or_assoc] using hcontrol
    rcases hletter with rfl | rfl | rfl | rfl <;> exact absurd hspace (by decide)
  rw [convertString]
  fun_induction plainEscapes raw with
  | case1 c t ih =>
    rw [replaceEscapes, replaceEscapes]
    exact .cons (hescape c) ih
  | case2 c t hslash ih =>
    rw [replaceEscapes, replaceEscapes]
    · exact .cons (fun _ => rfl) ih
    · exact hslash
    · exact hslash
  | case3 => exact .nil

/-! Aliases: trimmed in two ways, without the blank ones. -/

/-- An alias, with its escapes replaced, is trimmed to the same by both. -/
def PlainAlias (raw : Text) : Prop :=
  PlainEscapes raw ∧ Text.trim (convertString raw) = Text.jsTrim (convertString raw)

instance (raw : Text) : Decidable (PlainAlias raw) := inferInstanceAs (Decidable (_ ∧ _))

def parsedAlias (raw : Text) : Text := Text.trim (replaceEscapes unescape raw)

def mappedAlias (raw : Text) : Text := Text.jsTrim (convertString raw)

theorem getElem?_of_forall₂ {u w : Text} (h : List.Forall₂ (fun x y => isWhitespace x = true → x = y) u w)
    (i : Nat) (x : Char) (hx : u[i]? = some x) (hspace : isWhitespace x = true) : w[i]? = some x := by
  induction h generalizing i with
  | nil => cases hx
  | cons hxy _ ih =>
    cases i with
    | zero =>
      cases hx
      rw [← hxy hspace]
      rfl
    | succ i => exact ih i hx

theorem alias_eq_iff (raw : Text) : parsedAlias raw = mappedAlias raw ↔ PlainAlias raw := by
  have hspace := replaceEscapes_space raw
  constructor
  · intro h
    obtain ⟨b, a, hu⟩ := Text.trimBy_trimmed isWhitespace (replaceEscapes unescape raw)
    obtain ⟨b', a', hw⟩ := Text.trimBy_trimmed isJsSpace (convertString raw)
    have hm : Text.trimBy isWhitespace (replaceEscapes unescape raw) =
        Text.trimBy isJsSpace (convertString raw) := h
    rw [hm] at hu
    have heq := trimmed_eq hu hw hspace.length_eq (getElem?_of_forall₂ hspace)
    rw [parsedAlias, mappedAlias, heq] at h
    exact ⟨(replaceEscapes_eq_iff raw).mp heq, h⟩
  · rintro ⟨hplain, htrim⟩
    rw [parsedAlias, (replaceEscapes_eq_iff raw).mpr hplain, htrim, mappedAlias]

theorem forall₂_eq {u w : Text} (h : List.Forall₂ (fun x y => isWhitespace x = true → x = y) u w)
    (hall : ∀ c ∈ u, isWhitespace c = true) : u = w := by
  induction h with
  | nil => rfl
  | cons hxy _ ih =>
    rw [hxy (hall _ List.mem_cons_self), ih fun c hc => hall c (List.mem_cons_of_mem _ hc)]

/-- An alias that is blank to the parser is all space to it. -/
theorem mappedAlias_space {raw : Text} (hblank : parsedAlias raw = []) :
    ∀ c ∈ mappedAlias raw, isWhitespace c = true := by
  obtain ⟨b, a, hu⟩ := Text.trimBy_trimmed isWhitespace (replaceEscapes unescape raw)
  obtain ⟨b', a', hw⟩ := Text.trimBy_trimmed isJsSpace (convertString raw)
  have hm : Text.trimBy isWhitespace (replaceEscapes unescape raw) = [] := hblank
  rw [hm] at hu
  have hall : ∀ c ∈ replaceEscapes unescape raw, isWhitespace c = true := by
    intro c hc
    rw [hu.text, List.append_nil, List.mem_append] at hc
    exact hc.elim (hu.before c) (hu.after c)
  rw [forall₂_eq (replaceEscapes_space raw) hall] at hall
  intro c hc
  refine hall c ?_
  rw [hw.text]
  exact List.mem_append_left _ (List.mem_append_right _ hc)

theorem parsedAlias_head (raw : Text) : ∀ c ∈ (parsedAlias raw).head?, isWhitespace c = false := by
  obtain ⟨b, a, hu⟩ := Text.trimBy_trimmed isWhitespace (replaceEscapes unescape raw)
  exact hu.head

/-- The aliases of a clause that are not blank. -/
def nonBlank (f : Text → Text) (raws : List Text) : List Text := (raws.map f).filter (!·.isEmpty)

/-- If what is blank to one is blank to the other, equal lists are equal item by item. -/
theorem nonBlank_eq {f g : Text → Text} {raws : List Text} (hblank : ∀ a ∈ raws, f a = [] → g a = []) :
    (nonBlank g raws).length ≤ (nonBlank f raws).length ∧
      (nonBlank f raws = nonBlank g raws → ∀ a ∈ raws, f a = g a) := by
  induction raws with
  | nil => exact ⟨Nat.le_refl _, fun _ => nofun⟩
  | cons a raws ih =>
    obtain ⟨hlen, heq⟩ := ih fun a ha => hblank a (List.mem_cons_of_mem _ ha)
    have hcons : ∀ f : Text → Text, nonBlank f (a :: raws) =
        if f a = [] then nonBlank f raws else f a :: nonBlank f raws := by
      intro f
      by_cases h : f a = [] <;> simp [nonBlank, h]
    rw [hcons f, hcons g]
    by_cases hf : f a = []
    · have hg := hblank a List.mem_cons_self hf
      rw [if_pos hf, if_pos hg]
      refine ⟨hlen, fun h => ?_⟩
      rw [List.forall_mem_cons]
      exact ⟨hf.trans hg.symm, heq h⟩
    · rw [if_neg hf]
      by_cases hg : g a = []
      · rw [if_pos hg]
        refine ⟨Nat.le_succ_of_le hlen, fun h => ?_⟩
        have hlonger := congrArg List.length h
        rw [List.length_cons] at hlonger
        omega
      · rw [if_neg hg]
        refine ⟨Nat.succ_le_succ hlen, fun h => ?_⟩
        rw [List.forall_mem_cons]
        exact ⟨(List.cons.inj h).1, heq (List.cons.inj h).2⟩

theorem aliases_eq_iff (raws : List Text) :
    nonBlank parsedAlias raws = nonBlank mappedAlias raws ↔ ∀ raw ∈ raws, PlainAlias raw := by
  constructor
  · intro h raw hraw
    rw [← alias_eq_iff]
    refine (nonBlank_eq fun a ha hblank => ?_).2 h raw hraw
    -- otherwise the mapper keeps a text of space, which the parser never does
    by_contra hkept
    have hmem : mappedAlias a ∈ nonBlank parsedAlias raws := by
      rw [h, nonBlank, List.mem_filter]
      exact ⟨List.mem_map_of_mem ha, by simpa using hkept⟩
    rw [nonBlank, List.mem_filter] at hmem
    obtain ⟨a', -, ha'⟩ := List.mem_map.mp hmem.1
    obtain ⟨c, rest, hc⟩ := List.exists_cons_of_ne_nil hkept
    have hspace := mappedAlias_space hblank c (hc ▸ List.mem_cons_self)
    have hhead := parsedAlias_head a' c (by rw [ha', hc]; rfl)
    rw [hspace] at hhead
    cases hhead
  · intro h
    have hmap : raws.map parsedAlias = raws.map mappedAlias :=
      List.map_congr_left fun raw hraw => (alias_eq_iff raw).mpr (h raw hraw)
    rw [nonBlank, hmap, nonBlank]

/-! Trees whose leaves mean the same to both. -/

def Example.Plain (e : Example Text Text) : Prop :=
  (match e.value with
    | .string s => PlainEscapes s
    | .number n => jsNumberText n = n) ∧ PlainEscapes e.description

instance (e : Example Text Text) : Decidable e.Plain :=
  match e with
  | ⟨_, .string s, d⟩ => inferInstanceAs (Decidable (PlainEscapes s ∧ PlainEscapes d))
  | ⟨_, .number n, d⟩ => inferInstanceAs (Decidable (jsNumberText n = n ∧ PlainEscapes d))

def DomainMember.Plain : DomainMember Text Text → Prop
  | .field f => ∀ e ∈ f.examples.getD [], e.Plain
  | .aiHint h => PlainEscapes h.name ∧ PlainEscapes h.body
  | .aliasList l => ∀ raw ∈ l.first :: l.more, PlainAlias raw
  | _ => True

instance : (m : DomainMember Text Text) → Decidable m.Plain
  | .field f => inferInstanceAs (Decidable (∀ e ∈ f.examples.getD [], e.Plain))
  | .aiHint h => inferInstanceAs (Decidable (PlainEscapes h.name ∧ PlainEscapes h.body))
  | .aliasList l => inferInstanceAs (Decidable (∀ raw ∈ l.first :: l.more, PlainAlias raw))
  | .permission _ | .relation _ | .meta_ _ => .isTrue trivial

/-- No string has a control escape, numbers are written as they are printed, and aliases have
nothing at their ends that only one side trims. -/
def DomainDecl.Plain (t : DomainDecl Text Text) : Prop := ∀ m ∈ t.members, m.Plain

instance (t : DomainDecl Text Text) : Decidable t.Plain :=
  inferInstanceAs (Decidable (∀ m ∈ t.members, m.Plain))

/-- How the parser reads the raw leaves. -/
def parserReading : Reading Text Text := verbatim.before (replaceEscapes unescape)

theorem Example.def_eq_iff (e : Example Text Text) :
    e.def_ parserReading = e.def_ editorReading ↔ e.Plain := by
  obtain ⟨op, value, description⟩ := e
  cases value with
  | string s =>
    simp only [Example.def_, ExampleDef.mk.injEq, true_and, Example.Plain]
    exact and_congr (replaceEscapes_eq_iff s) (replaceEscapes_eq_iff description)
  | number n =>
    simp only [Example.def_, ExampleDef.mk.injEq, true_and, Example.Plain]
    exact and_congr eq_comm (replaceEscapes_eq_iff description)

theorem Field.def_eq_iff (f : Field Text Text) :
    f.def_ parserReading = f.def_ editorReading ↔ ∀ e ∈ f.examples.getD [], e.Plain := by
  simp only [Field.def_, DomainFieldDef.mk.injEq, true_and, List.map_inj_left, Example.def_eq_iff]

theorem AiHint.def_eq_iff (h : AiHint Text) :
    h.def_ parserReading = h.def_ editorReading ↔ PlainEscapes h.name ∧ PlainEscapes h.body := by
  simp only [AiHint.def_, AiHintDef.mk.injEq]
  exact and_congr (replaceEscapes_eq_iff h.name) (replaceEscapes_eq_iff h.body)

theorem filterMap_eq_iff {α β : Type} {f g : α → Option β} (hsome : ∀ a, (f a).isSome = (g a).isSome)
    (l : List α) : l.filterMap f = l.filterMap g ↔ ∀ a ∈ l, f a = g a := by
  induction l with
  | nil => simp
  | cons a l ih =>
    rw [List.forall_mem_cons, ← ih]
    have ha := hsome a
    cases hf : f a with
    | none =>
      have hg : g a = none := by simpa [hf] using ha.symm
      simp [hf, hg]
    | some b =>
      obtain ⟨c, hg⟩ : ∃ c, g a = some c := Option.isSome_iff_exists.mp (by rw [← ha, hf]; rfl)
      simp [hf, hg]

def DomainMember.rawAliases : DomainMember Text Text → List Text
  | .aliasList l => l.first :: l.more
  | _ => []

theorem fold_aliases (R : Reading Text Text) (t : DomainDecl Text Text) :
    (t.fold R).aliases =
      nonBlank (fun raw => R.trim (R.str raw)) (t.members.flatMap DomainMember.rawAliases) := by
  rw [DomainDecl.fold]
  dsimp only
  induction t.members with
  | nil => rfl
  | cons m ms ih =>
    rw [List.flatMap_cons, ih, List.flatMap_cons, nonBlank, nonBlank, List.map_append, List.filter_append]
    cases m <;> rfl

/-- The parts of a definition that depend on how the leaves are read. -/
theorem fold_eq_parts (R R' : Reading Text Text) (t : DomainDecl Text Text) :
    t.fold R = t.fold R' ↔ (t.fold R).fields = (t.fold R').fields ∧
      (t.fold R).aiHints = (t.fold R').aiHints ∧ (t.fold R).aliases = (t.fold R').aliases := by
  simp only [DomainDecl.fold, DomainDef.mk.injEq, true_and]

theorem fold_fields_eq_iff (t : DomainDecl Text Text) :
    (t.fold parserReading).fields = (t.fold editorReading).fields ↔
      ∀ m ∈ t.members, ∀ f, m = .field f → ∀ e ∈ f.examples.getD [], e.Plain := by
  refine (filterMap_eq_iff (fun m => ?_) t.members).trans (forall₂_congr fun m _ => ?_)
  · cases m <;> rfl
  · cases m with
    | field f => simp only [Option.some.injEq, Field.def_eq_iff, DomainMember.field.injEq, forall_eq']
    | _ => simp

theorem fold_aiHints_eq_iff (t : DomainDecl Text Text) :
    (t.fold parserReading).aiHints = (t.fold editorReading).aiHints ↔
      ∀ m ∈ t.members, ∀ h, m = .aiHint h → PlainEscapes h.name ∧ PlainEscapes h.body := by
  refine (filterMap_eq_iff (fun m => ?_) t.members).trans (forall₂_congr fun m _ => ?_)
  · cases m <;> rfl
  · cases m with
    | aiHint h => simp only [Option.some.injEq, AiHint.def_eq_iff, DomainMember.aiHint.injEq, forall_eq']
    | _ => simp

theorem fold_aliases_eq_iff (t : DomainDecl Text Text) :
    (t.fold parserReading).aliases = (t.fold editorReading).aliases ↔
      ∀ m ∈ t.members, ∀ raw ∈ m.rawAliases, PlainAlias raw := by
  rw [fold_aliases, fold_aliases]
  refine (aliases_eq_iff (t.members.flatMap DomainMember.rawAliases)).trans ?_
  simp only [List.mem_flatMap]
  exact ⟨fun h m hm raw hraw => h raw ⟨m, hm, hraw⟩, fun h raw ⟨m, hm, hraw⟩ => h m hm raw hraw⟩

theorem DomainDecl.fold_eq_iff (t : DomainDecl Text Text) :
    t.fold parserReading = t.fold editorReading ↔ t.Plain := by
  rw [fold_eq_parts, fold_fields_eq_iff, fold_aiHints_eq_iff, fold_aliases_eq_iff]
  constructor
  · rintro ⟨hfields, hhints, haliases⟩ m hm
    cases m with
    | field f => exact hfields _ hm f rfl
    | aiHint h => exact hhints _ hm h rfl
    | aliasList l => exact haliases _ hm
    | _ => trivial
  · intro h
    refine ⟨?_, ?_, ?_⟩
    · rintro m hm f rfl
      exact h _ hm
    · rintro m hm hint rfl
      exact h _ hm
    · intro m hm
      cases m with
      | aliasList l => exact h _ hm
      | _ => exact nofun

/-! Whole sources. -/

theorem tok_translates : Translates (replaceEscapes unescape) editor tokens Lexeme.tok :=
  ⟨fun _ => rfl, fun _ => rfl, fun _ => rfl, fun _ => rfl, fun _ => rfl⟩

theorem filterMap_visible (ls : List Lexeme) : ls.filterMap Lexeme.tok = (visible ls).filterMap Lexeme.tok := by
  induction ls with
  | nil => rfl
  | cons l ls ih =>
    rw [visible] at ih ⊢
    cases l <;> simp [List.filterMap_cons, Lexeme.hidden, Lexeme.tok, ih]

theorem Derivation.lex_ok {src : Text} (D : Derivation src) (hswallow : Along SwallowsHidden false D.lexemes) :
    (Along FreeOfMark false D.lexemes → ∃ toks, lex src = .ok toks ∧
      toks.map Located.tok = (D.tree.map (replaceEscapes unescape)).yield tokens) ∧
    ((∃ toks, lex src = .ok toks) → Along FreeOfMark false D.lexemes) := by
  have hrun := runFrom_lexemes D.lexed hswallow (Nat.le_refl _) ⟨1, 1⟩
  rw [filterMap_visible, ← D.derived, D.tree.yield_map tok_translates] at hrun
  exact hrun

/-- No name of an identifier starts as a reserved one does. -/
theorem IdentText.not_reserved {name : Text} (h : IdentText name) : ¬Reserved name := by
  intro hreserved
  have hdot : '.' ∈ name := hreserved.subset (by decide)
  exact absurd (List.all_eq_true.mp h.1 '.' hdot) (by decide)

/-- Where no line comment swallows what the editor sees, the parser makes of a source of the editor
what the mapper makes of its tree exactly if its leaves mean the same to both. -/
theorem Derivation.parse_iff (src : Text) (D : Derivation src)
    (hswallow : Along SwallowsHidden false D.lexemes) :
    parseDomain src = .ok (mapDomain D.tree) ↔ Along FreeOfMark false D.lexemes ∧ D.tree.Plain := by
  obtain ⟨hread, hfree⟩ := D.lex_ok hswallow
  have hparse : ∀ toks, lex src = .ok toks →
      toks.map Located.tok = (D.tree.map (replaceEscapes unescape)).yield tokens →
      parse toks = .ok (D.tree.fold parserReading) := by
    intro toks hlex htoks
    refine parse_ok.mpr ⟨_, htoks.symm, ?_, (D.tree.fold_map verbatim).symm⟩
    refine (lex_ident hlex ?_).not_reserved
    rw [htoks]
    simp [DomainDecl.yield, tokens]
  rw [mapDomain_eq, ← D.tree.fold_eq_iff]
  constructor
  · intro h
    obtain ⟨toks, hlex, hok⟩ := parseDomain_ok.mp h
    have hmark := hfree ⟨toks, hlex⟩
    obtain ⟨toks', hlex', htoks⟩ := hread hmark
    obtain rfl := Except.ok.inj (hlex.symm.trans hlex')
    rw [hparse toks hlex htoks] at hok
    exact ⟨hmark, Except.ok.inj hok⟩
  · rintro ⟨hmark, hfold⟩
    obtain ⟨toks, hlex, htoks⟩ := hread hmark
    exact parseDomain_ok.mpr ⟨toks, hlex, hfold ▸ hparse toks hlex htoks⟩

/-- A source with a line that ends in `\r\n`, an escape and a number. -/
def plainText : Text :=
  "domain d from s@m \x7b // c\r\n field p: int \x7b example gt 15 \"\\n\" \x7d aliases [\" k\"] \x7d".toList

def plainTree : DomainDecl Text Text :=
  ⟨['d'], ['s'], ['m'],
    [.field ⟨['p'], .int, [], some [⟨.gt, .number ['1', '5'], ['\\', 'n']⟩]⟩, .aliasList ⟨[' ', 'k'], []⟩]⟩

def plainDerivation : Derivation plainText where
  lexemes := (editorLex plainText).getD []
  tree := plainTree
  lexed := by decide
  derived := by decide

theorem plainText_agrees :
    Along SwallowsHidden false plainDerivation.lexemes ∧
      parseDomain plainText = .ok (mapDomain plainDerivation.tree) := by
  have hswallow : Along SwallowsHidden false plainDerivation.lexemes := by decide
  have hmark : Along FreeOfMark false plainDerivation.lexemes := by decide
  have hplain : plainTree.Plain := by decide +kernel
  exact ⟨hswallow, (Derivation.parse_iff plainText plainDerivation hswallow).mpr ⟨hmark, hplain⟩⟩

/-- A source that starts with a byte order mark, as some tools write it. -/
def markedText : Text := byteOrderMark :: "domain shop from items@main \x7b \x7d".toList

def markedTree : DomainDecl Text Text := ⟨"shop".toList, "items".toList, "main".toList, []⟩

def markedDerivation : Derivation markedText where
  lexemes := (editorLex markedText).getD []
  tree := markedTree
  lexed := by decide
  derived := by decide

def markedError : ParseError := ⟨1, 1, "unexpected character '".toList ++ [byteOrderMark] ++ "'".toList⟩

theorem markedText_error : parseDomain markedText = .error markedError := by
  have hlex : lex markedText = .error markedError := by decide
  rw [parseDomain, hlex]
  rfl

/-- The grammar derives it, and the parser rejects it at its first character. -/
theorem markedText_rejected :
    markedDerivation.tree = markedTree ∧ parseDomain markedText = .error markedError ∧
      ¬ ∀ (src : Text) (D : Derivation src), parseDomain src = .ok (mapDomain D.tree) := by
  refine ⟨rfl, markedText_error, fun h => ?_⟩
  have hok := h markedText markedDerivation
  rw [markedText_error] at hok
  cases hok

end Onisin.Domain
