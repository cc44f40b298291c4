import Onisin.Dsl.View

/-!
The grammar of the view language as derivation trees, with every element of the body. The words
`table` and `column` are no names, which the types of the leaves say.
-/

set_option autoImplicit false

namespace Onisin.View
open Lib

def Unreserved (w : Text) : Prop := w ≠ "table".toList ∧ w ≠ "column".toList

instance (w : Text) : Decidable (Unreserved w) :=
  inferInstanceAs (Decidable (w ≠ "table".toList ∧ w ≠ "column".toList))

/-- The terminal `ID`. -/
def Name := { s : Text // Unreserved s }

/-- A choice between a few keywords. -/
structure Words where
  words : List String
  unreserved : ∀ w ∈ words, Unreserved w.toList

def Words.Choice (ws : Words) := { w : String // w ∈ ws.words }

def identWords : Words where
  words :=
    ["p", "pt", "pb", "pl", "pr", "px", "py", "m", "mt", "mb", "ml", "mr", "mx", "my",
      "text", "textarea", "number", "password", "email", "date", "daterange", "time",
      "select", "multiselect", "combobox", "radio", "check", "switch", "slider", "rangeslider",
      "rating", "color", "file", "progress", "badge", "avatar", "tags", "json",
      "currency", "percent", "datetime", "save", "delete", "exit", "new", "open", "expand",
      "link", "icon", "button", "label", "href", "short", "medium", "long", "full",
      "on_select", "on_new", "on_edit"]
  unreserved := by decide

def presentationTargets : Words where
  words := ["tab", "modal", "window", "replace"]
  unreserved := by decide

def paddingProps : Words where
  words := ["p", "pt", "pb", "pl", "pr", "px", "py"]
  unreserved := by decide

def marginProps : Words where
  words := ["m", "mt", "mb", "ml", "mr", "mx", "my"]
  unreserved := by decide

def spacingTokenNames : Words where
  words := ["xs", "sm", "md", "lg", "xl"]
  unreserved := by decide

def boolLits : Words where
  words := ["true", "false"]
  unreserved := by decide

def formatKinds : Words where
  words := ["currency", "number", "percent", "datetime", "date", "time"]
  unreserved := by decide

def formatStyles : Words where
  words := ["short", "medium", "long", "full"]
  unreserved := by decide

def widgetKinds : Words where
  words :=
    ["text", "textarea", "number", "password", "email", "date", "daterange", "time", "select",
      "multiselect", "combobox", "radio", "check", "switch", "slider", "rangeslider", "rating",
      "color", "file", "progress", "badge", "avatar"]
  unreserved := by decide

def richTextStyles : Words where
  words := ["plain", "bold", "italic", "heading", "subheading", "mono"]
  unreserved := by decide

def viewActionEvents : Words where
  words := ["on_select", "on_new", "on_edit"]
  unreserved := by decide

/-! Leaves and modifiers. -/

inductive IdentName where
  | id (name : Name)
  | word (w : identWords.Choice)

structure FieldRef where
  domain : IdentName
  field : IdentName

inductive NavModifier where
  | bind (source : FieldRef)
  | as_ (target : presentationTargets.Choice)
  | confirm (message : Text)

inductive SpacingValue where
  | token (t : spacingTokenNames.Choice)
  | scale (value : Text)

inductive LayoutMod where
  | padding (prop : paddingProps.Choice) (value : SpacingValue)
  | margin (prop : marginProps.Choice) (value : SpacingValue)
  | gap (value : SpacingValue)
  | cols (value : Text)
  | expand
  | scrollFlag (scroll : boolLits.Choice)

inductive FormatDetail where
  | number (value : Text)
  | style (w : formatStyles.Choice)

structure FormatToken where
  kind : formatKinds.Choice
  detail : Option FormatDetail

inductive WidgetModifier where
  | readOnly
  | focus
  | expand
  | placeholder (value : Text)
  | format (fmt : FormatToken)
  | min (value : Text)
  | max (value : Text)
  | step (value : Text)
  | layout (mod : LayoutMod)

inductive IconModifier where
  | size (value : Text)
  | layout (mod : LayoutMod)

inductive ColumnModifier where
  | width (value : Text)
  | format (fmt : FormatToken)

inductive ToolbarItem where
  | save
  | delete (confirm : Option Text)
  | exit
  | refresh (caption : Option Text)
  | new (caption : Text) (target : Name) (navMods : List NavModifier)

/-! Elements of the body. -/

structure ViewAction where
  event : viewActionEvents.Choice
  target : Name
  navMods : List NavModifier

structure Column where
  field : FieldRef
  caption : Text
  mods : List ColumnModifier

structure Table where
  rowSource : FieldRef
  actions : List ViewAction
  first : Column
  more : List Column

structure Widget where
  kind : widgetKinds.Choice
  caption : Option Text
  bind : FieldRef
  mods : List WidgetModifier

structure Button where
  caption : Text
  actionRef : Option Name
  mods : List LayoutMod

structure LinkWidget where
  caption : Text
  href : Text
  mods : List LayoutMod

structure IconWidget where
  name : Text
  mods : List IconModifier

structure RichTextSpan where
  style : richTextStyles.Choice
  text : Text

structure RichText where
  first : RichTextSpan
  more : List RichTextSpan

mutual

inductive BodyElement where
  | section_ (caption : Option Text) (mods : List LayoutMod) (body : Body)
  | stack (mods : List LayoutMod) (body : Body)
  | row (mods : List LayoutMod) (body : Body)
  | grid (cols : Text) (mods : List LayoutMod) (body : Body)
  | tabs (mods : List LayoutMod) (tabs : Tabs)
  | accordion (mods : List LayoutMod) (items : AccordionItems)
  | card (caption : Option Text) (mods : List LayoutMod) (body : Body)
  | table (t : Table)
  | divider
  | separator
  | widget (w : Widget)
  | button (b : Button)
  | linkWidget (l : LinkWidget)
  | richText (r : RichText)
  | iconWidget (i : IconWidget)

/-- `BodyElement*` -/
inductive Body where
  | nil
  | cons (element : BodyElement) (rest : Body)

/-- `Tab+` -/
inductive Tabs where
  | last (caption : Text) (body : Body)
  | cons (caption : Text) (body : Body) (rest : Tabs)

/-- `AccordionItem+` -/
inductive AccordionItems where
  | last (caption : Text) (open_ : Bool) (body : Body)
  | cons (caption : Text) (open_ : Bool) (body : Body) (rest : AccordionItems)

end

structure AutoRefresh where
  domain : IdentName
  event : IdentName

structure DomainBinding where
  name : Name
  alias_ : Option IdentName

structure ViewDecl where
  default : Bool
  name : Name
  title : Text
  first : DomainBinding
  more : List DomainBinding
  autoRefresh : Option AutoRefresh
  toolbar : Option (List ToolbarItem)
  body : Body

/-! What a tree derives. -/

def Words.Choice.tok {ws : Words} (w : ws.Choice) : Tok := kw w.1

def Name.tok (n : Name) : Tok := .ident n.1

def IdentName.text : IdentName → Text
  | .id name => name.1
  | .word w => w.1.toList

def IdentName.tok (n : IdentName) : Tok := .ident n.text

def FieldRef.yield (r : FieldRef) : List Tok := [r.domain.tok, .dot, r.field.tok]

def captionYield : Option Text → List Tok
  | none => []
  | some s => [.str s]

def NavModifier.yield : NavModifier → List Tok
  | .bind source => [kw "bind", .eq] ++ source.yield
  | .as_ target => [kw "as", target.tok]
  | .confirm message => [kw "confirm", .eq, .str message]

def SpacingValue.tok : SpacingValue → Tok
  | .token t => t.tok
  | .scale value => .number value

def LayoutMod.yield : LayoutMod → List Tok
  | .padding prop value => [prop.tok, .eq, value.tok]
  | .margin prop value => [prop.tok, .eq, value.tok]
  | .gap value => [kw "gap", .eq, value.tok]
  | .cols value => [kw "cols", .eq, .number value]
  | .expand => [kw "expand"]
  | .scrollFlag scroll => [kw "scroll", .eq, scroll.tok]

def FormatDetail.tok : FormatDetail → Tok
  | .number value => .number value
  | .style w => w.tok

def FormatToken.yield (f : FormatToken) : List Tok :=
  match f.detail with
  | none => [f.kind.tok]
  | some detail => [f.kind.tok, .colon, detail.tok]

def WidgetModifier.yield : WidgetModifier → List Tok
  | .readOnly => [kw "readonly"]
  | .focus => [kw "focus"]
  | .expand => [kw "expand"]
  | .placeholder value => [kw "placeholder", .eq, .str value]
  | .format fmt => [kw "format", .eq] ++ fmt.yield
  | .min value => [kw "min", .eq, .number value]
  | .max value => [kw "max", .eq, .number value]
  | .step value => [kw "step", .eq, .number value]
  | .layout mod => mod.yield

def IconModifier.yield : IconModifier → List Tok
  | .size value => [kw "size", .eq, .number value]
  | .layout mod => mod.yield

def ColumnModifier.yield : ColumnModifier → List Tok
  | .width value => [kw "width", .eq, .number value]
  | .format fmt => [kw "format", .eq] ++ fmt.yield

def ToolbarItem.yield : ToolbarItem → List Tok
  | .save => [kw "save"]
  | .delete none => [kw "delete"]
  | .delete (some confirm) => [kw "delete", kw "confirm", .eq, .str confirm]
  | .exit => [kw "exit"]
  | .refresh caption => [kw "refresh"] ++ captionYield caption
  | .new caption target navMods =>
    [kw "new", .str caption, .arrow, target.tok] ++ navMods.flatMap NavModifier.yield

def ViewAction.yield (a : ViewAction) : List Tok :=
  [a.event.tok, .arrow, a.target.tok] ++ a.navMods.flatMap NavModifier.yield

def Column.yield (c : Column) : List Tok :=
  [kw "column"] ++ c.field.yield ++ [.str c.caption] ++ c.mods.flatMap ColumnModifier.yield

def Table.yield (t : Table) : List Tok :=
  [kw "table", .arrow] ++ t.rowSource.yield ++ [.lBrace] ++ t.actions.flatMap ViewAction.yield ++
    (t.first :: t.more).flatMap Column.yield ++ [.rBrace]

def Widget.yield (w : Widget) : List Tok :=
  [w.kind.tok] ++ captionYield w.caption ++ [.arrow] ++ w.bind.yield ++
    w.mods.flatMap WidgetModifier.yield

def Button.yield (b : Button) : List Tok :=
  [kw "button", .str b.caption] ++ (b.actionRef.elim [] fun a => [.colon, a.tok]) ++
    b.mods.flatMap LayoutMod.yield

def LinkWidget.yield (l : LinkWidget) : List Tok :=
  [kw "link", .str l.caption, kw "href", .eq, .str l.href] ++ l.mods.flatMap LayoutMod.yield

def IconWidget.yield (i : IconWidget) : List Tok :=
  [kw "icon", .str i.name] ++ i.mods.flatMap IconModifier.yield

def RichTextSpan.yield (s : RichTextSpan) : List Tok := [s.style.tok, .str s.text]

def RichText.yield (r : RichText) : List Tok :=
  [kw "richtext"] ++ [.lBrace] ++ (r.first :: r.more).flatMap RichTextSpan.yield ++ [.rBrace]

def openYield (open_ : Bool) : List Tok := if open_ then [kw "open"] else []

mutual

def BodyElement.yield : BodyElement → List Tok
  | .section_ caption mods body =>
    [kw "section"] ++ captionYield caption ++ mods.flatMap LayoutMod.yield ++ [.lBrace] ++
      body.yield ++ [.rBrace]
  | .stack mods body =>
    [kw "stack"] ++ mods.flatMap LayoutMod.yield ++ [.lBrace] ++ body.yield ++ [.rBrace]
  | .row mods body =>
    [kw "row"] ++ mods.flatMap LayoutMod.yield ++ [.lBrace] ++ body.yield ++ [.rBrace]
  | .grid cols mods body =>
    [kw "grid", kw "cols", .eq, .number cols] ++ mods.flatMap LayoutMod.yield ++ [.lBrace] ++
      body.yield ++ [.rBrace]
  | .tabs mods tabs =>
    [kw "tabs"] ++ mods.flatMap LayoutMod.yield ++ [.lBrace] ++ tabs.yield ++ [.rBrace]
  | .accordion mods items =>
    [kw "accordion"] ++ mods.flatMap LayoutMod.yield ++ [.lBrace] ++ items.yield ++ [.rBrace]
  | .card caption mods body =>
    [kw "card"] ++ captionYield caption ++ mods.flatMap LayoutMod.yield ++ [.lBrace] ++
      body.yield ++ [.rBrace]
  | .table t => t.yield
  | .divider => [kw "divider"]
  | .separator => [kw "sep"]
  | .widget w => w.yield
  | .button b => b.yield
  | .linkWidget l => l.yield
  | .richText r => r.yield
  | .iconWidget i => i.yield

def Body.yield : Body → List Tok
  | .nil => []
  | .cons element rest => element.yield ++ rest.yield

def Tabs.yield : Tabs → List Tok
  | .last caption body => [kw "tab", .str caption] ++ [.lBrace] ++ body.yield ++ [.rBrace]
  | .cons caption body rest =>
    [kw "tab", .str caption] ++ [.lBrace] ++ body.yield ++ [.rBrace] ++ rest.yield

def AccordionItems.yield : AccordionItems → List Tok
  | .last caption open_ body =>
    [kw "item", .str caption] ++ openYield open_ ++ [.lBrace] ++ body.yield ++ [.rBrace]
  | .cons caption open_ body rest =>
    [kw "item", .str caption] ++ openYield open_ ++ [.lBrace] ++ body.yield ++ [.rBrace] ++ rest.yield

end

def AutoRefresh.yield (a : AutoRefresh) : List Tok :=
  [kw "auto_refresh", kw "on", a.domain.tok, .dot, a.event.tok]

def DomainBinding.yield (b : DomainBinding) : List Tok :=
  [b.name.tok] ++ b.alias_.elim [] fun a => [.lParen, a.tok, .rParen]

def toolbarYield : Option (List ToolbarItem) → List Tok
  | none => []
  | some items => [kw "toolbar"] ++ [.lBrace] ++ items.flatMap ToolbarItem.yield ++ [.rBrace]

def ViewDecl.headerYield (v : ViewDecl) : List Tok :=
  (if v.default then [kw "default"] else []) ++ [kw "view", v.name.tok, .str v.title, kw "over"] ++
    v.first.yield ++ (v.more.flatMap fun b => .comma :: b.yield) ++ [.lBrace]

def ViewDecl.yield (v : ViewDecl) : List Tok :=
  v.headerYield ++ (v.autoRefresh.elim [] AutoRefresh.yield) ++ toolbarYield v.toolbar ++
    v.body.yield ++ [.rBrace]

/-! What a tree means to the server: its header and the columns of its tables. -/

def Table.fields (t : Table) : List Text := (t.first :: t.more).map fun c => c.field.field.text

mutual

def BodyElement.fields : BodyElement → List Text
  | .section_ _ _ body | .stack _ body | .row _ body | .grid _ _ body | .card _ _ body => body.fields
  | .tabs _ tabs => tabs.fields
  | .accordion _ items => items.fields
  | .table t => t.fields
  | .divider | .separator | .widget _ | .button _ | .linkWidget _ | .richText _ | .iconWidget _ => []

def Body.fields : Body → List Text
  | .nil => []
  | .cons element rest => element.fields ++ rest.fields

def Tabs.fields : Tabs → List Text
  | .last _ body => body.fields
  | .cons _ body rest => body.fields ++ rest.fields

def AccordionItems.fields : AccordionItems → List Text
  | .last _ _ body => body.fields
  | .cons _ _ body rest => body.fields ++ rest.fields

end

/-- A missing alias is the name. -/
def DomainBinding.def_ (b : DomainBinding) (primary : Bool) : ViewDomainBinding :=
  ⟨b.name.1, b.alias_.elim b.name.1 IdentName.text, primary⟩

/-- The first binding is the primary one. -/
def ViewDecl.def_ (v : ViewDecl) (tableFields : List Text) : ViewDef :=
  { name := v.name.1
    title := v.title
    domains := v.first.def_ true :: v.more.map fun b => b.def_ false
    default := v.default
    tableFields }

end Onisin.View
