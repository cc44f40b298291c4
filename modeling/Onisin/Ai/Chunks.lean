import Mathlib.Logic.Function.Basic
import Onisin.Dsl.ViewLexer
import Onisin.Lib.Runs

/-!
The sources of the editor and the embedded chunks beside them. A source row is keyed by its id,
a chunk by the name that the source declares; saving and deleting touch both tables.
-/

set_option autoImplicit false

namespace Onisin.Ai
open Lib

section Tables
variable {Def Vec : Type}

structure Tables (Vec : Type) where
  sources : Text → Option Text
  chunks : Text → Option (Text × Vec)

def Tables.saveSource (t : Tables Vec) (id source : Text) : Tables Vec :=
  { t with sources := Function.update t.sources id (some source) }

def Tables.deleteSource (t : Tables Vec) (id : Text) : Tables Vec :=
  { t with sources := Function.update t.sources id none }

def Tables.upsert (t : Tables Vec) (name chunk : Text) (vec : Vec) : Tables Vec :=
  { t with chunks := Function.update t.chunks name (some (chunk, vec)) }

def Tables.deleteChunk (t : Tables Vec) (key : Text) : Tables Vec :=
  { t with chunks := Function.update t.chunks key none }

/-- A kind of source that chunks are kept for: its parser, the name a parsed one declares, and
the text that is embedded for it. -/
structure Kind (Def : Type) where
  parse : Text → Option Def
  name : Def → Text
  render : Def → Text → Text

/-- `embed` is what the embedding service answers. A source that does not parse and a chunk that
is not embedded leave the table as it is. -/
def Kind.reembed (k : Kind Def) (embed : Text → Option Vec) (source : Text) (t : Tables Vec) :
    Tables Vec :=
  match k.parse source with
  | none => t
  | some d =>
    match embed (k.render d source) with
    | none => t
    | some vec => t.upsert (k.name d) (k.render d source) vec

inductive Command (Vec : Type) where
  | save (id source : Text) (embed : Text → Option Vec)
  | delete (id : Text)

def Command.id : Command Vec → Text
  | .save id _ _ => id
  | .delete id => id

/-- What the command leaves in the row. -/
def Command.stored : Command Vec → Option Text
  | .save _ source _ => some source
  | .delete _ => none

def Kind.handle (k : Kind Def) (t : Tables Vec) : Command Vec → Tables Vec
  | .save id source embed => k.reembed embed source (t.saveSource id source)
  | .delete id => (t.deleteSource id).deleteChunk id

/-! What the chunks ought to belong to. -/

def Kind.declared (k : Kind Def) (source : Text) : Option Text := (k.parse source).map k.name

/-- The tables, and beside them the name in the last source of each row that parsed. -/
structure Watched (Vec : Type) where
  tables : Tables Vec
  lastName : Text → Option Text

def Kind.noteName (k : Kind Def) (lastName : Text → Option Text) : Command Vec → Text → Option Text
  | .save id source _ => Function.update lastName id ((k.declared source).or (lastName id))
  | .delete id => Function.update lastName id none

def Kind.step (k : Kind Def) (w : Watched Vec) (c : Command Vec) : Watched Vec :=
  ⟨k.handle w.tables c, k.noteName w.lastName c⟩

/-- The names noted are those of rows that are there, and of what these hold. -/
structure Kind.Noted (k : Kind Def) (w : Watched Vec) : Prop where
  rows : ∀ id, w.tables.sources id = none → w.lastName id = none
  current : ∀ id source n, w.tables.sources id = some source → k.declared source = some n →
    w.lastName id = some n

/-- A current source declares the name, or the last one did that parsed under a current row. -/
def Kind.Accounted (k : Kind Def) (w : Watched Vec) (name : Text) : Prop :=
  (∃ id source, w.tables.sources id = some source ∧ k.declared source = some name) ∨
    ∃ id, (w.tables.sources id).isSome ∧ w.lastName id = some name

def Kind.NoOrphans (k : Kind Def) (w : Watched Vec) : Prop :=
  ∀ key, (w.tables.chunks key).isSome → k.Accounted w key

/-- The command leaves the row its name, or takes the chunk of that name with it. -/
def Kind.Settles (k : Kind Def) (name : Text) : Command Vec → Prop
  | .save _ source _ => k.declared source = none ∨ k.declared source = some name
  | .delete id => id = name

/-- If the row had a name whose chunk is there, the command settles it or another row has it too. -/
def Kind.Clean (k : Kind Def) (w : Watched Vec) (c : Command Vec) : Prop :=
  ∀ name, w.lastName c.id = some name → (w.tables.chunks name).isSome →
    k.Settles name c ∨ ∃ other, other ≠ c.id ∧ w.lastName other = some name

variable {k : Kind Def} {w : Watched Vec} {c : Command Vec}

theorem Kind.Noted.accounted_iff (h : k.Noted w) {name : Text} :
    k.Accounted w name ↔ ∃ id, w.lastName id = some name := by
  constructor
  · rintro (⟨id, source, hsource, hname⟩ | ⟨id, -, hname⟩)
    · exact ⟨id, h.current id source name hsource hname⟩
    · exact ⟨id, hname⟩
  · rintro ⟨id, hname⟩
    refine .inr ⟨id, ?_, hname⟩
    cases hsource : w.tables.sources id with
    | none => simp [h.rows id hsource] at hname
    | some source => rfl

@[simp] theorem reembed_sources (embed : Text → Option Vec) (source : Text) (t : Tables Vec) :
    (k.reembed embed source t).sources = t.sources := by
  unfold Kind.reembed
  split
  · rfl
  · split
    · rfl
    · rfl

/-- Embedding touches the chunk of the declared name and no other. -/
theorem reembed_chunks {embed : Text → Option Vec} {source : Text} {t : Tables Vec} {key : Text}
    (h : k.declared source ≠ some key) : (k.reembed embed source t).chunks key = t.chunks key := by
  unfold Kind.reembed
  split
  · rfl
  · rename_i d hparse
    split
    · rfl
    · have hne : key ≠ k.name d := by
        rintro rfl
        exact h (by simp [Kind.declared, hparse])
      exact Function.update_of_ne hne _ _

theorem noteName_other {lastName : Text → Option Text} {id : Text} (h : id ≠ c.id) :
    k.noteName lastName c id = lastName id := by
  cases c with
  | save id' source embed => exact Function.update_of_ne h _ _
  | delete id' => exact Function.update_of_ne h _ _

theorem sources_step (w : Watched Vec) (c : Command Vec) :
    (k.step w c).tables.sources = Function.update w.tables.sources c.id c.stored := by
  cases c with
  | save id source embed => simp [Kind.step, Kind.handle, Tables.saveSource, Command.id, Command.stored]
  | delete id => rfl

theorem noted_step (h : k.Noted w) (c : Command Vec) : k.Noted (k.step w c) := by
  constructor
  · intro id hnone
    rw [sources_step] at hnone
    by_cases hid : id = c.id
    · subst hid
      cases c with
      | save id source embed => simp [Command.stored] at hnone
      | delete id => simp [Kind.step, Kind.noteName, Command.id]
    · rw [Function.update_of_ne hid] at hnone
      exact (noteName_other hid).trans (h.rows id hnone)
  · intro id source n hsource hn
    rw [sources_step] at hsource
    by_cases hid : id = c.id
    · subst hid
      cases c with
      | save id source' embed =>
        have heq : source' = source := by simpa [Command.stored] using hsource
        simp [Kind.step, Kind.noteName, Command.id, heq, hn]
      | delete id => simp [Command.stored] at hsource
    · rw [Function.update_of_ne hid] at hsource
      exact (noteName_other hid).trans (h.current id source n hsource hn)

/-- A name of the row stays noted for it if the command settles it and its chunk is still there. -/
theorem settles_noted {name : Text} (hname : w.lastName c.id = some name) (hs : k.Settles name c)
    (hchunk : ((k.step w c).tables.chunks name).isSome) : (k.step w c).lastName c.id = some name := by
  cases c with
  | save id source embed =>
    replace hname : w.lastName id = some name := hname
    rcases hs with hnone | hsome
    · simp [Kind.step, Kind.noteName, Command.id, hnone, hname]
    · simp [Kind.step, Kind.noteName, Command.id, hsome]
  | delete id =>
    replace hs : id = name := hs
    subst hs
    simp [Kind.step, Kind.handle, Tables.deleteChunk] at hchunk

/-- A name of the row that the command does not settle keeps its chunk and loses the row. -/
theorem unsettled_step {name : Text} (hs : ¬k.Settles name c) :
    (k.step w c).tables.chunks name = w.tables.chunks name ∧
      (k.step w c).lastName c.id ≠ some name := by
  cases c with
  | save id source embed =>
    simp only [Kind.Settles, not_or] at hs
    refine ⟨reembed_chunks hs.2, ?_⟩
    obtain ⟨n, hn⟩ := Option.ne_none_iff_exists'.mp hs.1
    simpa [Kind.step, Kind.noteName, Command.id, hn] using hs.2
  | delete id =>
    have hne : name ≠ id := fun h => hs h.symm
    simp [Kind.step, Kind.handle, Kind.noteName, Command.id, Tables.deleteSource, Tables.deleteChunk,
      hne]

/-- A chunk that is there after the command was there before, or is of the name just declared. -/
theorem chunks_step {key : Text} (h : ((k.step w c).tables.chunks key).isSome) :
    (w.tables.chunks key).isSome ∨ (k.step w c).lastName c.id = some key := by
  cases c with
  | save id source embed =>
    by_cases hkey : k.declared source = some key
    · exact .inr (by simp [Kind.step, Kind.noteName, Command.id, hkey])
    · have hsame : (k.step w (.save id source embed)).tables.chunks key = w.tables.chunks key :=
        reembed_chunks hkey
      exact .inl (hsame ▸ h)
  | delete id =>
    by_cases hkey : key = id
    · subst hkey
      simp [Kind.step, Kind.handle, Tables.deleteChunk] at h
    · exact .inl (by simpa [Kind.step, Kind.handle, Tables.deleteSource, Tables.deleteChunk, hkey] using h)

theorem noOrphans_step (hn : k.Noted w) (h : k.NoOrphans w) :
    k.NoOrphans (k.step w c) ↔ k.Clean w c := by
  have hn' : k.Noted (k.step w c) := noted_step hn c
  constructor
  · intro hafter name hname hchunk
    by_contra hbad
    rw [not_or] at hbad
    obtain ⟨hsame, hlost⟩ := unsettled_step (w := w) hbad.1
    obtain ⟨id, hid⟩ := hn'.accounted_iff.mp (hafter name (by rwa [hsame]))
    by_cases hown : id = c.id
    · exact hlost (hown ▸ hid)
    · exact hbad.2 ⟨id, hown, (noteName_other hown).symm.trans hid⟩
  · intro hclean key hkey
    rw [hn'.accounted_iff]
    rcases chunks_step hkey with hold | hnew
    · obtain ⟨id, hid⟩ := hn.accounted_iff.mp (h key hold)
      by_cases hown : id = c.id
      · subst hown
        rcases hclean key hid hold with hs | ⟨other, hother, hname⟩
        · exact ⟨c.id, settles_noted hid hs hkey⟩
        · exact ⟨other, (noteName_other hother).trans hname⟩
      · exact ⟨id, (noteName_other hown).trans hid⟩
    · exact ⟨c.id, hnew⟩

end Tables

/-! The two kinds of the server. -/

section Server
variable {Vec : Type} (renderLlmChunk : Domain.DomainDef → Text)

def domainKind : Kind Domain.DomainDef where
  parse source := (Domain.parseDomain source).toOption
  name := Domain.DomainDef.name
  render d _ := renderLlmChunk d

/-- The domains of a view, each with its alias where that is another name. -/
def renderOver (d : View.ViewDomainBinding) : Text :=
  if d.alias_ = d.name then d.name else d.name ++ ['('] ++ d.alias_ ++ [')']

def renderViewHeader (d : View.ViewDef) : Text :=
  "View: ".toList ++ d.name ++ " \"".toList ++ d.title ++ "\" over ".toList ++
    Text.join ", ".toList (d.domains.map renderOver) ++ (if d.default then " (default)".toList else [])

def renderViewChunk (d : View.ViewDef) (source : Text) : Text :=
  renderViewHeader d ++ "\n\n".toList ++ source

def viewKind : Kind View.ViewDef where
  parse source := (View.parseView source).toOption
  name := View.ViewDef.name
  render := renderViewChunk

inductive Subject where
  | domain
  | view
  deriving DecidableEq, Repr

structure Request (Vec : Type) where
  subject : Subject
  command : Command Vec

structure Database (Vec : Type) where
  domain : Tables Vec
  view : Tables Vec

def handle (db : Database Vec) (r : Request Vec) : Database Vec :=
  match r.subject with
  | .domain => { db with domain := (domainKind renderLlmChunk).handle db.domain r.command }
  | .view => { db with view := viewKind.handle db.view r.command }

structure Server (Vec : Type) where
  domain : Watched Vec
  view : Watched Vec

def Server.database (s : Server Vec) : Database Vec := ⟨s.domain.tables, s.view.tables⟩

def Server.step (s : Server Vec) (r : Request Vec) : Server Vec :=
  match r.subject with
  | .domain => { s with domain := (domainKind renderLlmChunk).step s.domain r.command }
  | .view => { s with view := viewKind.step s.view r.command }

/-- The names noted beside the tables change nothing in them. -/
theorem database_run (s : Server Vec) (rs : List (Request Vec)) :
    (run (Server.step renderLlmChunk) s rs).database = run (handle renderLlmChunk) s.database rs := by
  induction rs generalizing s with
  | nil => rfl
  | cons r rs ih =>
    have hone : (s.step renderLlmChunk r).database = handle renderLlmChunk s.database r := by
      unfold Server.step handle
      cases r.subject with
      | domain => rfl
      | view => rfl
    exact (ih _).trans (congrArg (run (handle renderLlmChunk) · rs) hone)

structure Server.Noted (s : Server Vec) : Prop where
  domain : (domainKind renderLlmChunk).Noted s.domain
  view : viewKind.Noted s.view

structure Server.NoOrphans (s : Server Vec) : Prop where
  domain : (domainKind renderLlmChunk).NoOrphans s.domain
  view : viewKind.NoOrphans s.view

def Server.Clean (s : Server Vec) (r : Request Vec) : Prop :=
  match r.subject with
  | .domain => (domainKind renderLlmChunk).Clean s.domain r.command
  | .view => viewKind.Clean s.view r.command

theorem server_noted_step (s : Server Vec) (r : Request Vec) (h : s.Noted renderLlmChunk) :
    (s.step renderLlmChunk r).Noted renderLlmChunk := by
  unfold Server.step
  cases r.subject with
  | domain => exact ⟨noted_step h.domain _, h.view⟩
  | view => exact ⟨h.domain, noted_step h.view _⟩

theorem server_noOrphans_step (s : Server Vec) (r : Request Vec) (hn : s.Noted renderLlmChunk)
    (h : s.NoOrphans renderLlmChunk) :
    (s.step renderLlmChunk r).NoOrphans renderLlmChunk ↔ s.Clean renderLlmChunk r := by
  unfold Server.step Server.Clean
  cases r.subject with
  | domain =>
    constructor
    · exact fun hafter => (noOrphans_step hn.domain h.domain).mp hafter.domain
    · exact fun hclean => ⟨(noOrphans_step hn.domain h.domain).mpr hclean, h.view⟩
  | view =>
    constructor
    · exact fun hafter => (noOrphans_step hn.view h.view).mp hafter.view
    · exact fun hclean => ⟨h.domain, (noOrphans_step hn.view h.view).mpr hclean⟩

/-- The runs in which no state has an orphan are those whose every command settles the chunk of
the name its row had, or leaves it to another row of that name. -/
theorem no_orphans_iff_clean (s : Server Vec) (hn : s.Noted renderLlmChunk)
    (h : s.NoOrphans renderLlmChunk) (rs : List (Request Vec)) :
    (∀ n, (run (Server.step renderLlmChunk) s (rs.take n)).NoOrphans renderLlmChunk) ↔
      Along (Server.step renderLlmChunk) (Server.Clean renderLlmChunk) s rs :=
  good_run_iff (server_noted_step renderLlmChunk) (server_noOrphans_step renderLlmChunk) hn h

end Server

def emptyTables : Watched Unit := ⟨⟨fun _ => none, fun _ => none⟩, fun _ => none⟩

def emptyServer : Server Unit := ⟨emptyTables, emptyTables⟩

theorem emptyTables_noted {Def : Type} (k : Kind Def) : k.Noted emptyTables where
  rows _ _ := rfl
  current _ _ _ h := by simp [emptyTables] at h

theorem emptyTables_noOrphans {Def : Type} (k : Kind Def) : k.NoOrphans emptyTables := by
  intro key h
  simp [emptyTables] at h

def tomeSource : Text := "domain tome from books@main \x7b field title: string \x7d".toList

theorem tomeSource_parsed : Domain.parseDomain tomeSource = .ok (Domain.titled "tome".toList) := by
  refine Domain.parseDomain_ok.mpr ⟨(Domain.lex tomeSource).toOption.getD [], ?_, ?_⟩
  · decide
  · decide

theorem declared_of_parsed (render : Domain.DomainDef → Text) {source : Text} {d : Domain.DomainDef}
    (h : Domain.parseDomain source = .ok d) : (domainKind render).declared source = some d.name := by
  simp [Kind.declared, domainKind, h, Except.toOption]

def saveDomain (id source : Text) : Request Unit := ⟨.domain, .save id source fun _ => some ()⟩

def deleteDomain (id : Text) : Request Unit := ⟨.domain, .delete id⟩

theorem emptyServer_noted (render : Domain.DomainDef → Text) : emptyServer.Noted render :=
  ⟨emptyTables_noted _, emptyTables_noted _⟩

theorem emptyServer_noOrphans (render : Domain.DomainDef → Text) : emptyServer.NoOrphans render :=
  ⟨emptyTables_noOrphans _, emptyTables_noOrphans _⟩

section Samples
variable {render : Domain.DomainDef → Text} {id name source : Text}

/-- No row of an empty table has a name yet. -/
theorem clean_first (r : Request Unit) : emptyServer.Clean render r := by
  unfold Server.Clean
  split
  · intro name hname
    simp [emptyServer, emptyTables] at hname
  · intro name hname
    simp [emptyServer, emptyTables] at hname

theorem saved_lastName (h : (domainKind render).declared source = some name) :
    (Server.step render emptyServer (saveDomain id source)).domain.lastName =
      Function.update (fun _ => none) id (some name) := by
  simp [Server.step, saveDomain, Kind.step, Kind.noteName, emptyServer, emptyTables, h]

theorem saved_chunk (h : (domainKind render).declared source = some name) :
    ((Server.step render emptyServer (saveDomain id source)).domain.tables.chunks name).isSome := by
  obtain ⟨d, hd, hname⟩ := Option.map_eq_some_iff.mp h
  simp [Server.step, saveDomain, Kind.step, Kind.handle, Kind.reembed, hd, hname, Tables.upsert]

/-- A second command on the row just saved has to settle the name saved with it. -/
theorem clean_second (h : (domainKind render).declared source = some name) (c : Command Unit) :
    (Server.step render emptyServer (saveDomain c.id source)).Clean render ⟨.domain, c⟩ ↔
      (domainKind render).Settles name c := by
  have hlast : (Server.step render emptyServer (saveDomain c.id source)).domain.lastName =
      Function.update (fun _ => none) c.id (some name) := saved_lastName h
  constructor
  · intro hclean
    have hname : (Server.step render emptyServer (saveDomain c.id source)).domain.lastName c.id = some name := by
      rw [hlast, Function.update_self]
    rcases hclean name hname (saved_chunk h) with hs | ⟨other, hother, hname'⟩
    · exact hs
    · rw [hlast, Function.update_of_ne hother] at hname'
      cases hname'
  · intro hs name' hname' _
    rw [hlast, Function.update_self] at hname'
    exact .inl (Option.some.inj hname' ▸ hs)

theorem orphan_of_unsettled (h : (domainKind render).declared source = some name) (c : Command Unit)
    (hs : ¬(domainKind render).Settles name c) :
    ¬(run (Server.step render) emptyServer [saveDomain c.id source, ⟨.domain, c⟩]).NoOrphans render := by
  have hnoted := emptyServer_noted render
  have hfirst := (server_noOrphans_step render _ (saveDomain c.id source) hnoted
    (emptyServer_noOrphans render)).mpr (clean_first _)
  intro hall
  exact hs ((clean_second h c).mp ((server_noOrphans_step render _ _
    (server_noted_step render _ _ hnoted) hfirst).mp hall))

end Samples

def ownName : List (Request Unit) :=
  [saveDomain "book".toList Domain.bookSource, deleteDomain "book".toList]

/-- A domain that is stored under its own name can be deleted again. -/
theorem no_orphans_under_own_name :
    Along (Server.step fun _ => []) (Server.Clean fun _ => []) emptyServer ownName ∧
      ∀ n, (run (Server.step fun _ => []) emptyServer (ownName.take n)).NoOrphans fun _ => [] := by
  have hdeclared := declared_of_parsed (fun _ => []) Domain.bookSource_parsed
  have hsecond := (clean_second hdeclared (.delete "book".toList)).mpr rfl
  refine ⟨⟨clean_first _, hsecond, trivial⟩, ?_⟩
  exact (no_orphans_iff_clean (fun _ => []) emptyServer (emptyServer_noted _)
    (emptyServer_noOrphans _) _).mpr ⟨clean_first _, hsecond, trivial⟩

/-- Deleting a row of another name, or saving another name in it, leaves the chunk behind. -/
theorem orphans_left_behind :
    ¬∃ render : Domain.DomainDef → Text,
      (run (Server.step render) emptyServer
        [saveDomain "b1".toList Domain.bookSource, deleteDomain "b1".toList]).NoOrphans render ∨
      (run (Server.step render) emptyServer
        [saveDomain "b1".toList Domain.bookSource, saveDomain "b1".toList tomeSource]).NoOrphans render := by
  rintro ⟨render, hdeleted | hrenamed⟩
  · have hs : ¬(domainKind render).Settles (Domain.titled "book".toList).name (.delete "b1".toList : Command Unit) :=
      show "b1".toList ≠ "book".toList by decide
    exact orphan_of_unsettled (declared_of_parsed render Domain.bookSource_parsed) (.delete "b1".toList) hs hdeleted
  · have hs : ¬(domainKind render).Settles (Domain.titled "book".toList).name
        (.save "b1".toList tomeSource fun _ => some ()) := by
      simp only [Kind.Settles, declared_of_parsed render tomeSource_parsed]
      decide
    exact orphan_of_unsettled (declared_of_parsed render Domain.bookSource_parsed)
      (.save "b1".toList tomeSource fun _ => some ()) hs hrenamed

end Onisin.Ai
