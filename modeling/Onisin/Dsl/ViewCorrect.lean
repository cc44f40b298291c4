import Onisin.Dsl.ViewGrammar

/-!
The walk over a view's body against the grammar. A stretch of tokens without braces and without
the two reserved words leaves the walk as it was; a block brings it back to the depth it started
from; only a table in it makes it see fields.
-/

set_option autoImplicit false

namespace Onisin.View
open Lib Parser

/-! One step of the walk. -/

section Steps
variable {w : Walk} {t : Located Tok} {ts rest : List (Located Tok)}

theorem columnField_length {field : Text} (h : columnField ts = some (field, rest)) :
    ts.length = rest.length + 3 := by
  unfold columnField at h
  split at h
  · obtain ⟨-, rfl⟩ := Prod.mk.inj (Option.some.inj h)
    rfl
  · cases h

theorem walkFuel_enough {n m : Nat} (hn : ts.length ≤ n) (hm : ts.length ≤ m) :
    walkFuel n w ts = walkFuel m w ts := by
  induction n generalizing m w ts with
  | zero =>
    obtain rfl : ts = [] := List.length_eq_zero_iff.mp (Nat.le_zero.mp hn)
    cases m <;> rfl
  | succ n ih =>
    cases ts with
    | nil => cases m <;> rfl
    | cons t ts =>
      obtain ⟨m, rfl⟩ : ∃ k, m = k + 1 := ⟨m - 1, by simp only [List.length_cons] at hm; omega⟩
      simp only [List.length_cons, Nat.add_le_add_iff_right] at hn hm
      have hnext : ∀ w, walkFuel n w ts = walkFuel m w ts := fun w => ih hn hm
      have hcolumn : ∀ field rest, columnField ts = some (field, rest) →
          walkFuel n (w.see field) rest = walkFuel m (w.see field) rest := by
        intro field rest h
        have := columnField_length h
        exact ih (by omega) (by omega)
      unfold walkFuel
      simp only [hnext]
      cases hfield : columnField ts with
      | none => rfl
      | some r => simp only [hcolumn r.1 r.2 hfield]

theorem walk_lBrace (h : t.tok = .lBrace) : walk w (t :: ts) = walk w.openBrace ts := by
  rw [walk, List.length_cons, walkFuel, h]
  rfl

theorem walk_rBrace (h : t.tok = .rBrace) :
    walk w (t :: ts) = if w.closeBrace.depth = 0 then (w.closeBrace, ts) else walk w.closeBrace ts := by
  rw [walk, List.length_cons, walkFuel, h]
  rfl

theorem walk_table (h : t.tok = kw "table") :
    walk w (t :: ts) = walk { w with pendingTable := true } ts := by
  rw [walk, List.length_cons, walkFuel, h]
  rfl

theorem walk_column (h : t.tok = kw "column") (hdepth : w.tableBodyDepth = some w.depth) {field : Text}
    (hfield : columnField ts = some (field, rest)) : walk w (t :: ts) = walk (w.see field) rest := by
  have hlen := columnField_length hfield
  rw [walk, List.length_cons, walkFuel, h]
  simp only [kw, if_neg (show ¬ "column".toList = "table".toList by decide), hdepth, and_self, if_true,
    hfield]
  exact walkFuel_enough (by omega) (Nat.le_refl _)

theorem walk_malformed (h : t.tok = kw "column")
    (hno : w.tableBodyDepth ≠ some w.depth ∨ columnField ts = none) : walk w (t :: ts) = walk w ts := by
  rw [walk, List.length_cons, walkFuel, h]
  simp only [kw, if_neg (show ¬ "column".toList = "table".toList by decide), true_and]
  split
  · rename_i hdepth
    rw [hno.resolve_left (not_not.mpr hdepth)]
    rfl
  · rfl

/-- Tokens the walk passes over: no brace, and none of the two words. -/
def inert : Tok → Bool
  | .lBrace | .rBrace => false
  | .ident s => decide (Unreserved s)
  | _ => true

theorem walk_inert (h : inert t.tok = true) : walk w (t :: ts) = walk w ts := by
  rw [walk, List.length_cons, walkFuel]
  cases htok : t.tok with
  | lBrace => rw [htok] at h; cases h
  | rBrace => rw [htok] at h; cases h
  | ident s =>
    rw [htok] at h
    obtain ⟨htable, hcolumn⟩ : Unreserved s := of_decide_eq_true h
    simp only [if_neg htable, hcolumn, false_and, if_false]
    rfl
  | _ => rfl

theorem walk_stretch {ks : List Tok} (h : ks.all inert = true) (ht : Takes ks ts rest) :
    walk w ts = walk w rest := by
  induction ks generalizing ts with
  | nil => rw [takes_nil.mp ht]
  | cons k ks ih =>
    rw [List.all_cons, Bool.and_eq_true] at h
    obtain ⟨mid, hk, hks⟩ := takes_cons.mp ht
    obtain ⟨t, rfl, rfl⟩ := takes_single.mp hk
    rw [walk_inert h.1, ih h.2 hks]

end Steps

/-! Everything but tables and blocks is passed over. -/

section Inert

@[simp] theorem inert_kw (w : String) :
    inert (kw w) = decide (w ≠ "table" ∧ w ≠ "column") := by
  simp only [kw, inert, Unreserved, ne_eq, String.toList_inj]

@[simp] theorem Words.Choice.inert_tok {ws : Words} (w : ws.Choice) : inert w.tok = true :=
  decide_eq_true (ws.unreserved w.1 w.2)

@[simp] theorem Name.inert_tok (n : Name) : inert n.tok = true := decide_eq_true n.2

@[simp] theorem IdentName.inert_tok (n : IdentName) : inert n.tok = true := by
  cases n with
  | id name => exact decide_eq_true name.2
  | word w => exact decide_eq_true (identWords.unreserved w.1 w.2)

@[simp] theorem inert_str (s : Text) : inert (.str s) = true := rfl

@[simp] theorem inert_number (s : Text) : inert (.number s) = true := rfl

@[simp] theorem inert_dot : inert .dot = true := rfl

@[simp] theorem inert_colon : inert .colon = true := rfl

@[simp] theorem inert_eq : inert .eq = true := rfl

@[simp] theorem inert_arrow : inert .arrow = true := rfl

@[simp] theorem all_flatMap {τ : Type} {yield : τ → List Tok} (h : ∀ t, (yield t).all inert = true)
    (items : List τ) : (items.flatMap yield).all inert = true := by
  rw [List.all_flatMap, List.all_eq_true]
  exact fun t _ => h t

@[simp] theorem FieldRef.inert_yield (r : FieldRef) : r.yield.all inert = true := by
  simp [FieldRef.yield]

@[simp] theorem inert_captionYield (s : Option Text) : (captionYield s).all inert = true := by
  cases s <;> simp [captionYield]

@[simp] theorem NavModifier.inert_yield (m : NavModifier) : m.yield.all inert = true := by
  cases m <;> simp [NavModifier.yield]

@[simp] theorem SpacingValue.inert_tok (v : SpacingValue) : inert v.tok = true := by
  cases v <;> simp [SpacingValue.tok]

@[simp] theorem LayoutMod.inert_yield (m : LayoutMod) : m.yield.all inert = true := by
  cases m <;> simp [LayoutMod.yield]

@[simp] theorem FormatDetail.inert_tok (d : FormatDetail) : inert d.tok = true := by
  cases d <;> simp [FormatDetail.tok]

@[simp] theorem FormatToken.inert_yield (f : FormatToken) : f.yield.all inert = true := by
  rw [FormatToken.yield]
  cases f.detail <;> simp

@[simp] theorem WidgetModifier.inert_yield (m : WidgetModifier) : m.yield.all inert = true := by
  cases m <;> simp [WidgetModifier.yield]

@[simp] theorem IconModifier.inert_yield (m : IconModifier) : m.yield.all inert = true := by
  cases m <;> simp [IconModifier.yield]

@[simp] theorem ColumnModifier.inert_yield (m : ColumnModifier) : m.yield.all inert = true := by
  cases m <;> simp [ColumnModifier.yield]

@[simp] theorem ToolbarItem.inert_yield (i : ToolbarItem) : i.yield.all inert = true := by
  cases i with
  | delete confirm => cases confirm <;> simp [ToolbarItem.yield]
  | _ => simp [ToolbarItem.yield]

@[simp] theorem ViewAction.inert_yield (a : ViewAction) : a.yield.all inert = true := by
  simp [ViewAction.yield]

@[simp] theorem Widget.inert_yield (w : Widget) : w.yield.all inert = true := by
  simp [Widget.yield]

@[simp] theorem Button.inert_yield (b : Button) : b.yield.all inert = true := by
  rw [Button.yield]
  cases b.actionRef <;> simp

@[simp] theorem LinkWidget.inert_yield (l : LinkWidget) : l.yield.all inert = true := by
  simp [LinkWidget.yield]

@[simp] theorem IconWidget.inert_yield (i : IconWidget) : i.yield.all inert = true := by
  simp [IconWidget.yield]

@[simp] theorem RichTextSpan.inert_yield (s : RichTextSpan) : s.yield.all inert = true := by
  simp [RichTextSpan.yield]

@[simp] theorem AutoRefresh.inert_yield (a : AutoRefresh) : a.yield.all inert = true := by
  simp [AutoRefresh.yield]

end Inert

/-! Blocks. -/

section Blocks

def Walk.seeAll (w : Walk) (fields : List Text) : Walk := fields.foldl Walk.see w

theorem Walk.seeAll_eq (w : Walk) (fields : List Text) :
    w.seeAll fields = { w with seen := fields.foldl addNew w.seen } := by
  induction fields generalizing w with
  | nil => rfl
  | cons field fields ih => exact ih (w.see field)

theorem Walk.seeAll_append (w : Walk) (fields fields' : List Text) :
    w.seeAll (fields ++ fields') = (w.seeAll fields).seeAll fields' := List.foldl_append

/-- Inside the view's block, and not in a table. -/
structure Walk.Outside (w : Walk) : Prop where
  open_ : 0 < w.depth
  noPending : w.pendingTable = false
  noBody : w.tableBodyDepth = none

theorem Walk.Outside.seeAll {w : Walk} (h : w.Outside) (fields : List Text) :
    (w.seeAll fields).Outside := by
  rw [w.seeAll_eq]
  exact ⟨h.open_, h.noPending, h.noBody⟩

theorem Walk.Outside.openBrace {w : Walk} (h : w.Outside) : w.openBrace.Outside := by
  refine ⟨Nat.succ_pos _, rfl, ?_⟩
  simp only [Walk.openBrace, h.noPending, Bool.false_eq_true, if_false, h.noBody]

/-- Wherever the walk is outside of tables, it comes through the tokens `ks` having seen the
fields `fields`. -/
def Walks (ks : List Tok) (fields : List Text) : Prop :=
  ∀ (w : Walk) (ts rest : List (Located Tok)), w.Outside → Takes ks ts rest →
    walk w ts = walk (w.seeAll fields) rest

theorem Walks.stretch {ks : List Tok} (h : ks.all inert = true) : Walks ks [] :=
  fun _ _ _ _ ht => walk_stretch h ht

theorem Walks.append {ks ks' : List Tok} {fields fields' : List Text} (h : Walks ks fields)
    (h' : Walks ks' fields') : Walks (ks ++ ks') (fields ++ fields') := by
  intro w ts rest hw ht
  obtain ⟨mid, hks, hks'⟩ := takes_append.mp ht
  rw [h w ts mid hw hks, h' _ mid rest (hw.seeAll fields) hks', Walk.seeAll_append]

/-- A block in the body: the walk is back where it was. -/
theorem Walks.block {ks : List Tok} {fields : List Text} (h : Walks ks fields) :
    Walks ([.lBrace] ++ ks ++ [.rBrace]) fields := by
  intro w ts rest hw ht
  obtain ⟨t₂, ht, hclose⟩ := takes_append.mp ht
  obtain ⟨t₁, hopen, hks⟩ := takes_append.mp ht
  obtain ⟨t, rfl, htok⟩ := takes_single.mp hopen
  obtain ⟨t', rfl, htok'⟩ := takes_single.mp hclose
  have hback : (w.openBrace.seeAll fields).closeBrace = w.seeAll fields := by
    rw [Walk.seeAll_eq, Walk.seeAll_eq]
    simp only [Walk.openBrace, Walk.closeBrace, hw.noPending, hw.noBody, Bool.false_eq_true, if_false,
      reduceCtorEq, Nat.add_sub_cancel]
  have hdepth : (w.seeAll fields).depth ≠ 0 := Nat.pos_iff_ne_zero.mp (hw.seeAll fields).open_
  rw [walk_lBrace htok, h _ t₁ _ hw.openBrace hks, walk_rBrace htok', hback, if_neg hdepth]

theorem Walks.container {pre ks : List Tok} {fields : List Text} (hpre : pre.all inert = true)
    (h : Walks ks fields) : Walks (pre ++ [.lBrace] ++ ks ++ [.rBrace]) fields := by
  have hall := (Walks.stretch hpre).append h.block
  simpa only [List.append_assoc, List.nil_append] using hall

/-! Tables. -/

theorem walk_tableColumn {w : Walk} {ts rest : List (Located Tok)} {c : Column}
    (hw : w.tableBodyDepth = some w.depth) (ht : Takes c.yield ts rest) :
    walk w ts = walk (w.see c.field.field.text) rest := by
  simp only [Column.yield, FieldRef.yield, List.cons_append, List.nil_append] at ht
  obtain ⟨t₁, h₁, ht₁⟩ := takes_cons.mp ht
  obtain ⟨t₂, h₂, ht₂⟩ := takes_cons.mp ht₁
  obtain ⟨t₃, h₃, ht₃⟩ := takes_cons.mp ht₂
  obtain ⟨t₄, h₄, ht₄⟩ := takes_cons.mp ht₃
  obtain ⟨a, rfl, htok⟩ := takes_single.mp h₁
  obtain ⟨⟨b, l₂, c₂⟩, rfl, rfl⟩ := takes_single.mp h₂
  obtain ⟨⟨b, l₃, c₃⟩, rfl, rfl⟩ := takes_single.mp h₃
  obtain ⟨⟨b, l₄, c₄⟩, rfl, rfl⟩ := takes_single.mp h₄
  rw [walk_column htok hw rfl]
  exact walk_stretch (by simp) ht₄

theorem walk_tableColumns {w : Walk} {ts rest : List (Located Tok)} {cs : List Column}
    (hw : w.tableBodyDepth = some w.depth) (ht : Takes (cs.flatMap Column.yield) ts rest) :
    walk w ts = walk (w.seeAll (cs.map fun c => c.field.field.text)) rest := by
  induction cs generalizing w ts with
  | nil =>
    rw [takes_nil.mp ht]
    rfl
  | cons c cs ih =>
    rw [List.flatMap_cons] at ht
    obtain ⟨mid, hc, hcs⟩ := takes_append.mp ht
    have hsee : (w.see c.field.field.text).tableBodyDepth = some (w.see c.field.field.text).depth := hw
    rw [walk_tableColumn hw hc, ih hsee hcs]
    rfl

theorem Table.walks (t : Table) : Walks t.yield t.fields := by
  intro w ts rest hw ht
  simp only [Table.yield, takes_append] at ht
  obtain ⟨t₆, ⟨t₅, ⟨t₄, ⟨t₃, ⟨t₂, hfirst, h₃⟩, h₄⟩, h₅⟩, h₆⟩, h₇⟩ := ht
  obtain ⟨t₁, h₁, h₂⟩ := takes_cons.mp hfirst
  obtain ⟨a, rfl, ha⟩ := takes_single.mp h₁
  obtain ⟨b, rfl, hb⟩ := takes_single.mp h₄
  obtain ⟨c, rfl, hc⟩ := takes_single.mp h₇
  -- the brace behind the row source opens the body of the table
  have hbody : ({ w with pendingTable := true } : Walk).openBrace =
      { w with depth := w.depth + 1, tableBodyDepth := some (w.depth + 1) } := by
    simp only [Walk.openBrace, if_true, hw.noPending]
  have hclose : (Walk.seeAll { w with depth := w.depth + 1, tableBodyDepth := some (w.depth + 1) }
      t.fields).closeBrace = w.seeAll t.fields := by
    rw [Walk.seeAll_eq, Walk.seeAll_eq]
    simp only [Walk.closeBrace, if_true, hw.noBody, Nat.add_sub_cancel]
  have hdepth : (w.seeAll t.fields).depth ≠ 0 := Nat.pos_iff_ne_zero.mp (hw.seeAll t.fields).open_
  rw [walk_table ha, walk_stretch (by simp) h₂, walk_stretch (by simp) h₃, walk_lBrace hb, hbody,
    walk_stretch (by simp) h₅, walk_tableColumns rfl h₆, walk_rBrace hc]
  exact hclose.symm ▸ if_neg hdepth

end Blocks

/-! The elements of a body, by their constructors. -/

mutual

theorem BodyElement.walks : (e : BodyElement) → Walks e.yield e.fields
  | .section_ caption mods body => .container (by simp) body.walks
  | .stack mods body => .container (by simp) body.walks
  | .row mods body => .container (by simp) body.walks
  | .grid cols mods body => .container (by simp) body.walks
  | .tabs mods tabs => .container (by simp) tabs.walks
  | .accordion mods items => .container (by simp) items.walks
  | .card caption mods body => .container (by simp) body.walks
  | .table t => t.walks
  | .divider => .stretch (by decide)
  | .separator => .stretch (by decide)
  | .widget w => .stretch w.inert_yield
  | .button b => .stretch b.inert_yield
  | .linkWidget l => .stretch l.inert_yield
  | .richText r => .container (by decide) (.stretch (by simp))
  | .iconWidget i => .stretch i.inert_yield

theorem Body.walks : (b : Body) → Walks b.yield b.fields
  | .nil => .stretch rfl
  | .cons element rest => element.walks.append rest.walks

theorem Tabs.walks : (t : Tabs) → Walks t.yield t.fields
  | .last caption body => .container (by simp) body.walks
  | .cons caption body rest => (Walks.container (by simp) body.walks).append rest.walks

theorem AccordionItems.walks : (i : AccordionItems) → Walks i.yield i.fields
  | .last caption open_ body => .container (by cases open_ <;> simp [openYield]) body.walks
  | .cons caption open_ body rest =>
    (Walks.container (by cases open_ <;> simp [openYield]) body.walks).append rest.walks

end

/-! The header. -/

section Header
variable {ts rest : List (Located Tok)}

theorem eatKw_ok {w : String} {u : Unit} : eatKw w ts = .ok (u, rest) ↔ Takes [kw w] ts rest := eat_ok

theorem ident_ok {s : Text} : ident ts = .ok (s, rest) ↔ Takes [.ident s] ts rest := by
  rw [ident, accept_ok]
  constructor
  · rintro ⟨k, hk, h⟩
    cases k <;> cases hk
    exact h
  · exact fun h => ⟨_, rfl, h⟩

theorem string_ok {s : Text} : string ts = .ok (s, rest) ↔ Takes [.str s] ts rest := by
  rw [string, accept_ok]
  constructor
  · rintro ⟨k, hk, h⟩
    cases k <;> cases hk
    exact h
  · exact fun h => ⟨_, rfl, h⟩

theorem defaultFlag_complete {default : Bool}
    (ht : Takes (if default then [kw "default"] else []) ts rest)
    (hrest : head rest ≠ some (kw "default")) : defaultFlag ts = .ok (default, rest) := by
  rw [defaultFlag, peek_bind]
  cases default with
  | false =>
    rw [takes_nil.mp ht, if_neg hrest]
    rfl
  | true =>
    rw [if_pos ht.head]
    exact bind_ok.mpr ⟨(), rest, (advance_ok ht.head).mpr ht, rfl⟩

/-- What may stand behind a binding: a comma, or the brace of the body. -/
def BindingFollow (ks : List Tok) : Prop := ks.head? = some .comma ∨ ks.head? = some .lBrace

theorem domainBinding_complete {b : DomainBinding} {primary : Bool} (ht : Takes b.yield ts rest)
    (hrest : BindingFollow (rest.map Located.tok)) :
    domainBinding primary ts = .ok (b.def_ primary, rest) := by
  obtain ⟨name, alias_⟩ := b
  obtain ⟨mid, hname, halias⟩ := takes_append.mp ht
  have hbinding : bindingAlias name.1 mid = .ok (alias_.elim name.1 IdentName.text, rest) := by
    rw [bindingAlias, peek_bind]
    cases alias_ with
    | none =>
      obtain rfl := takes_nil.mp halias
      have hhead : head mid ≠ some .lParen := by
        rw [head, ← List.head?_map]
        obtain h | h := hrest <;> rw [h] <;> decide
      rw [if_neg hhead]
      rfl
    | some a =>
      rw [if_pos halias.head]
      simp only [Option.elim_some, takes_cons_cons] at halias
      obtain ⟨t₁, h₁, t₂, h₂, h₃⟩ := halias
      simp only [bind_ok, advance_ok h₁.head, ident_ok, eat_ok, pure_ok]
      exact ⟨(), t₁, h₁, a.text, t₂, h₂, (), rest, h₃, rfl, rfl⟩
  simp only [domainBinding, bind_ok, ident_ok, pure_ok]
  exact ⟨name.1, mid, hname, _, rest, hbinding, rfl, rfl⟩

theorem bindings_complete {domains : List ViewDomainBinding} {bs : List DomainBinding}
    (ht : Takes (bs.flatMap fun b => .comma :: b.yield) ts rest) (hrest : head rest = some .lBrace) :
    loop (· = some .comma) nextBinding domains ts =
      .ok (domains ++ bs.map fun b => b.def_ false, rest) := by
  rw [← foldl_push fun b : DomainBinding => b.def_ false]
  refine loop_complete BindingFollow (fun b => ⟨_, _, rfl, rfl⟩) (fun _ _ => .inl rfl) ?_ ht ?_ ?_
  · intro domains ts rest b hb hfollow
    obtain ⟨mid, hcomma, hb⟩ := takes_cons.mp hb
    simp only [nextBinding, bind_ok, advance_ok hcomma.head, pure_ok]
    exact ⟨(), mid, hcomma, _, rest, domainBinding_complete hb hfollow, rfl, rfl⟩
  · rw [hrest]
    rfl
  · rw [head, ← List.head?_map] at hrest
    exact .inr hrest

theorem header_complete {v : ViewDecl} (ht : Takes v.headerYield ts rest) :
    header ts = .ok (v.def_ [], rest) := by
  simp only [ViewDecl.headerYield, takes_append, takes_cons_cons] at ht
  obtain ⟨t₇, ⟨t₆, ⟨t₅, ⟨t₁, hdefault, t₂, hview, t₃, hname, t₄, htitle, hover⟩, hfirst⟩, hmore⟩,
    hbrace⟩ := ht
  have hfollow : BindingFollow (t₆.map Located.tok) := by
    rw [hmore.toks, hbrace.toks]
    cases v.more with
    | nil => exact .inr rfl
    | cons b bs => exact .inl rfl
  have hflag : head t₁ ≠ some (kw "default") := by
    rw [hview.head]
    decide
  simp only [header, bind_ok, eatKw_ok, ident_ok, string_ok, eat_ok, pure_ok]
  exact ⟨v.default, t₁, defaultFlag_complete hdefault hflag, (), t₂, hview, v.name.1, t₃, hname,
    v.title, t₄, htitle, (), t₅, hover, _, t₆, domainBinding_complete hfirst hfollow, _, t₇,
    bindings_complete hmore hbrace.head, (), rest, hbrace, rfl, rfl⟩

end Header

/-- Fields are kept at their first occurrence. -/
theorem foldl_addNew (fields seen : List Text) :
    fields.foldl addNew seen = seen ++ (fields.filter (· ∉ seen)).eraseDups := by
  induction fields generalizing seen with
  | nil => simp
  | cons field fields ih =>
    rw [List.foldl_cons, ih, addNew]
    by_cases hseen : field ∈ seen
    · simp [hseen]
    · rw [if_neg hseen, List.append_assoc, List.singleton_append,
        List.filter_cons_of_pos (by simpa using hseen), List.eraseDups_cons, List.filter_filter]
      congr 4
      funext f
      simp [and_comm, Bool.beq_eq_decide_eq]

theorem ViewDecl.walks (v : ViewDecl) :
    Walks (v.autoRefresh.elim [] AutoRefresh.yield ++ toolbarYield v.toolbar ++ v.body.yield)
      v.body.fields := by
  have hrefresh : Walks (v.autoRefresh.elim [] AutoRefresh.yield) [] := by
    refine .stretch ?_
    cases v.autoRefresh <;> simp
  have htoolbar : Walks (toolbarYield v.toolbar) [] := by
    cases v.toolbar with
    | none => exact .stretch rfl
    | some items => exact .container (by decide) (.stretch (by simp))
  exact (hrefresh.append htoolbar).append v.body.walks

/-- A view of the grammar is walked to its last brace. -/
theorem collectTableFields_complete {v : ViewDecl} {ts : List (Located Tok)}
    (ht : Takes (v.autoRefresh.elim [] AutoRefresh.yield ++ toolbarYield v.toolbar ++ v.body.yield ++
      [.rBrace]) ts []) :
    collectTableFields ts = .ok (v.body.fields.eraseDups, []) := by
  obtain ⟨mid, hbody, hclose⟩ := takes_append.mp ht
  obtain ⟨t, rfl, htok⟩ := takes_single.mp hclose
  have hseen : v.body.fields.foldl addNew [] = v.body.fields.eraseDups := by simp [foldl_addNew]
  have hwalk : walk .start ts = (⟨0, false, none, v.body.fields.eraseDups⟩, []) := by
    rw [v.walks .start ts _ ⟨Nat.one_pos, rfl, rfl⟩ hbody, walk_rBrace htok, Walk.seeAll_eq, ← hseen]
    rfl
  simp only [collectTableFields, hwalk]
  rfl

theorem parse_complete {v : ViewDecl} {toks : List (Located Tok)} (ht : toks.map Located.tok = v.yield) :
    parse toks = .ok (v.def_ v.body.fields.eraseDups) := by
  have htakes : Takes v.yield toks [] := takes_all.mpr ht
  simp only [ViewDecl.yield, List.append_assoc] at htakes
  obtain ⟨mid, hheader, hbody⟩ := takes_append.mp htakes
  have hview : view toks = .ok (v.def_ v.body.fields.eraseDups, []) := by
    simp only [view, bind_ok, pure_ok]
    refine ⟨_, mid, header_complete hheader, _, [], collectTableFields_complete ?_, rfl, rfl⟩
    simpa only [List.append_assoc] using hbody
  rw [parse, hview]
  rfl

/-! What is accepted is balanced. -/

/-- The depth after some tokens, unless a brace is closed that was not opened among them. -/
def scan : Nat → List Tok → Option Nat
  | d, [] => some d
  | d, .lBrace :: ks => scan (d + 1) ks
  | 0, .rBrace :: _ => none
  | d + 1, .rBrace :: ks => scan d ks
  | d, _ :: ks => scan d ks

def Balanced (ks : List Tok) : Prop := scan 0 ks = some 0

theorem scan_other {k : Tok} (hopen : k ≠ .lBrace) (hclose : k ≠ .rBrace) (d : Nat) (ks : List Tok) :
    scan d (k :: ks) = scan d ks := by
  cases k <;> first | rfl | contradiction

theorem columnField_takes {ts rest : List (Located Tok)} {field : Text}
    (h : columnField ts = some (field, rest)) : ∃ s, Takes [.ident s, .dot, .ident field] ts rest := by
  unfold columnField at h
  split at h
  · rename_i s l c l' c' field' l'' c'' ts'
    obtain ⟨rfl, rfl⟩ := Prod.mk.inj (Option.some.inj h)
    exact ⟨s, [⟨.ident s, l, c⟩, ⟨.dot, l', c'⟩, ⟨.ident field', l'', c''⟩], rfl, rfl⟩
  · cases h

/-- A token that is no brace: the walk goes on at the same depth, past tokens that are none. -/
theorem walk_other {w : Walk} {t : Located Tok} {ts : List (Located Tok)} (hopen : t.tok ≠ .lBrace)
    (hclose : t.tok ≠ .rBrace) :
    ∃ (w' : Walk) (ks : List Tok) (rest : List (Located Tok)), Takes ks ts rest ∧
      (∀ d ks', scan d (ks ++ ks') = scan d ks') ∧ w'.depth = w.depth ∧
        walk w (t :: ts) = walk w' rest := by
  by_cases hinert : inert t.tok = true
  · exact ⟨w, [], ts, takes_nil.mpr rfl, fun _ _ => rfl, rfl, walk_inert hinert⟩
  by_cases htable : t.tok = kw "table"
  · exact ⟨{ w with pendingTable := true }, [], ts, takes_nil.mpr rfl, fun _ _ => rfl, rfl,
      walk_table htable⟩
  have hcolumn : t.tok = kw "column" := by
    cases htok : t.tok with
    | ident s =>
      rw [htok] at hinert htable
      have hreserved : ¬ Unreserved s := fun h => hinert (decide_eq_true h)
      have hs : s ≠ "table".toList := fun h => htable (congrArg Tok.ident h)
      exact congrArg Tok.ident (not_not.mp fun h => hreserved ⟨hs, h⟩)
    | lBrace => exact absurd htok hopen
    | rBrace => exact absurd htok hclose
    | _ => exact absurd (htok ▸ rfl) hinert
  by_cases hdepth : w.tableBodyDepth = some w.depth
  · cases hfield : columnField ts with
    | some r =>
      obtain ⟨field, rest⟩ := r
      obtain ⟨s, htakes⟩ := columnField_takes hfield
      exact ⟨w.see field, _, rest, htakes, fun _ _ => rfl, rfl, walk_column hcolumn hdepth hfield⟩
    | none =>
      exact ⟨w, [], ts, takes_nil.mpr rfl, fun _ _ => rfl, rfl, walk_malformed hcolumn (.inr hfield)⟩
  · exact ⟨w, [], ts, takes_nil.mpr rfl, fun _ _ => rfl, rfl, walk_malformed hcolumn (.inl hdepth)⟩

theorem walk_closed {n d : Nat} {w : Walk} {ts : List (Located Tok)} (hn : ts.length ≤ n)
    (hd : w.depth = d + 1) (hend : (walk w ts).1.depth = 0) :
    ∃ body, Takes (body ++ [.rBrace]) ts (walk w ts).2 ∧ scan d body = some 0 := by
  induction n generalizing d w ts with
  | zero =>
    obtain rfl : ts = [] := List.length_eq_zero_iff.mp (Nat.le_zero.mp hn)
    exact absurd (hd.symm.trans hend) (Nat.succ_ne_zero d)
  | succ n ih =>
    cases ts with
    | nil => exact absurd (hd.symm.trans hend) (Nat.succ_ne_zero d)
    | cons t ts =>
      rw [List.length_cons, Nat.add_le_add_iff_right] at hn
      have hcons : ∀ {k ks rest}, t.tok = k → Takes ks ts rest → Takes (k :: ks) (t :: ts) rest :=
        fun hk h => takes_cons.mpr ⟨ts, takes_single.mpr ⟨t, rfl, hk⟩, h⟩
      by_cases hopen : t.tok = .lBrace
      · rw [walk_lBrace hopen] at hend ⊢
        obtain ⟨body, htakes, hscan⟩ := ih hn (d := d + 1) (by rw [Walk.openBrace, hd]) hend
        exact ⟨.lBrace :: body, hcons hopen htakes, hscan⟩
      by_cases hclose : t.tok = .rBrace
      · have hdepth : w.closeBrace.depth = d := by rw [Walk.closeBrace, hd, Nat.add_sub_cancel]
        rw [walk_rBrace hclose, hdepth] at hend ⊢
        cases d with
        | zero =>
          rw [if_pos rfl]
          exact ⟨[], takes_single.mpr ⟨t, rfl, hclose⟩, rfl⟩
        | succ d =>
          rw [if_neg (Nat.succ_ne_zero d)] at hend ⊢
          obtain ⟨body, htakes, hscan⟩ := ih hn hdepth hend
          exact ⟨.rBrace :: body, hcons hclose htakes, hscan⟩
      · obtain ⟨w', ks, rest, hks, hskip, hw', hwalk⟩ := @walk_other w t ts hopen hclose
        rw [hwalk] at hend ⊢
        have hlen := hks.length
        obtain ⟨body, htakes, hscan⟩ := ih (by omega) (hw'.trans hd) hend
        refine ⟨t.tok :: (ks ++ body), ?_, ?_⟩
        · rw [List.cons_append, List.append_assoc]
          exact hcons rfl (takes_append.mpr ⟨rest, hks, htakes⟩)
        · rw [scan_other hopen hclose, hskip, hscan]

theorem parse_balanced {toks : List (Located Tok)} {v : ViewDef} (h : parse toks = .ok v) :
    ∃ hdr rest body, header toks = .ok (hdr, rest) ∧ rest.map Located.tok = body ++ [.rBrace] ∧
      Balanced body := by
  rw [parse] at h
  cases hview : view toks with
  | error e =>
    rw [hview] at h
    cases h
  | ok r =>
    obtain ⟨v', end_⟩ := r
    simp only [view, bind_ok] at hview
    obtain ⟨hdr, rest, hheader, fields, mid, hcollect, -⟩ := hview
    simp only [collectTableFields] at hcollect
    split at hcollect
    · cases fail_ok.mp hcollect
    rename_i hdepth
    split at hcollect
    · cases fail_ok.mp hcollect
    rename_i hhead
    obtain ⟨body, htakes, hscan⟩ := walk_closed (Nat.le_refl _) rfl (not_not.mp hdepth)
    have hnil : (walk .start rest).2 = [] := by
      cases hrest : (walk .start rest).2 with
      | nil => rfl
      | cons t ts =>
        rw [hrest] at hhead
        exact absurd rfl hhead
    rw [hnil, takes_all] at htakes
    exact ⟨hdr, rest, body, hheader, htakes, hscan⟩

/-- The shallow walk agrees with the grammar: a view of the grammar is read with its header and
with the fields of its table columns, each at its first place; and nothing is read whose body is
not balanced or is followed by more. -/
theorem parse_agrees_with_grammar :
    (∀ (v : ViewDecl) (toks : List (Located Tok)), toks.map Located.tok = v.yield →
      parse toks = .ok (v.def_ v.body.fields.eraseDups)) ∧
    ∀ (toks : List (Located Tok)) (v : ViewDef), parse toks = .ok v → ∃ hdr rest body,
      header toks = .ok (hdr, rest) ∧ rest.map Located.tok = body ++ [.rBrace] ∧ Balanced body :=
  ⟨fun _ _ ht => parse_complete ht, fun _ _ h => parse_balanced h⟩

/-- `person.<field>` -/
def personField (field : String) (h : Unreserved field.toList) : FieldRef :=
  ⟨.id ⟨"person".toList, by decide⟩, .id ⟨field.toList, h⟩⟩

/-- A default view with two tables in a section, that share a column. -/
def personList : ViewDecl where
  default := true
  name := ⟨"person_list".toList, by decide⟩
  title := "Personen".toList
  first := ⟨⟨"person".toList, by decide⟩, none⟩
  more := []
  autoRefresh := none
  toolbar := some [.save]
  body :=
    let column (field : String) (h : Unreserved field.toList) : Column :=
      ⟨personField field h, field.toList, []⟩
    let rows := personField "rows" (by decide)
    .cons (.section_ none [.expand]
      (.cons (.table ⟨rows, [], column "name" (by decide), [column "city" (by decide)]⟩)
        (.cons (.table ⟨rows, [], column "zip" (by decide), [column "name" (by decide)]⟩) .nil))) .nil

theorem personList_parsed :
    parse (personList.yield.map fun k => ⟨k, 1, 1⟩) =
      .ok ⟨"person_list".toList, "Personen".toList, [⟨"person".toList, "person".toList, true⟩], true,
        ["name".toList, "city".toList, "zip".toList]⟩ :=
  (parse_agrees_with_grammar.1 personList _ (by rw [List.map_map]; exact List.map_id _)).trans
    (by decide)

end Onisin.View
