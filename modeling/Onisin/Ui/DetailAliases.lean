import Onisin.Ui.DetailSave

/-!
A view over several domains. The form's state keeps the values of each of them under its alias,
and a save goes by the names behind the aliases.
-/

set_option autoImplicit false

namespace Onisin.Ui
open Lib Domain Gql

/-- The state of a form, which holds every path once. -/
structure FormState where
  state : ViewState
  nodup : (state.values.map Prod.fst).Nodup

def FormState.empty : FormState := ⟨.empty, List.nodup_nil⟩

def FormState.set (s : FormState) (bindPath value : Text) : FormState where
  state := s.state.set bindPath value
  nodup := by
    rw [ViewState.set]
    split
    · exact s.nodup
    · exact Dict.nodup_put s.nodup bindPath value

/-- Of the aliases that a view gives its domains the first, or the name of the form's domain. -/
def primaryAlias (aliases : List Alias) (contextName : Alias) : Alias := aliases.headD contextName

/-! What a save should send. -/

/-- A blank or zero id is not sent. -/
def sentId (id : Option Text) : Option Text := if isEmptyId id then none else id

def isReadOnly (d : DomainDef) (name : Text) : Bool := (lastField d name).any DomainFieldDef.readOnly

/-- The request has the id of the primary record and its values, but for the readonly ones. -/
structure WritesPrimary (d : DomainDef) (a : Alias) (s : ViewState) : Prop where
  id : (doSave d s).id = sentId (s.values.lookup (joinPath a.text "id".toList))
  set : ∀ f v, (doSave d s).set.lookup f = some v ↔
    s.values.lookup (joinPath a.text f) = some v ∧ f ≠ "id".toList ∧ isReadOnly d f = false

/-! When it does. -/

/-- Of the entries with this name behind the alias the one that is listed last. -/
def lastNamed (s : ViewState) (name : Text) : Option (Text × Text) :=
  s.snapshot.enumerate.reverse.find? fun e => flatKey e.1 = name

/-- The last entry of a name has the primary record's value, and no object takes the one name. -/
structure PrimaryDecides (d : DomainDef) (a : Alias) (s : ViewState) : Prop where
  id : ∀ e, lastNamed s "id".toList = some e →
    sentId (some e.2) = sentId (s.values.lookup (joinPath a.text "id".toList))
  set : ∀ name e, lastNamed s name = some e → name ≠ "id".toList → isReadOnly d name = false →
    name ≠ "__proto__".toList → s.values.lookup (joinPath a.text name) = some e.2
  proto : isReadOnly d "__proto__".toList = false →
    s.values.lookup (joinPath a.text "__proto__".toList) = none

section Save
variable (d : DomainDef) (a : Alias) (s : FormState)

theorem lookup_flat (s : ViewState) {name : Text} (hname : name ≠ "__proto__".toList) :
    (buildEvent s).lookup name = (lastNamed s name).map Prod.snd := by
  have hkey : ∀ e ∈ s.snapshot.enumerate.reverse,
      ownProperty (flatKey e.1) = some name ↔ decide (flatKey e.1 = name) = true := by
    intro e _
    rw [ownProperty_some, decide_eq_true_eq]
    exact and_iff_left hname
  rw [buildEvent, assignAll, Dict.lookup_putAll, ← List.filterMap_reverse, List.lookup_nil, Option.or_none]
  exact Dict.lookup_filterMap_find (g := fun key => ownProperty (flatKey key))
    (p := fun key => decide (flatKey key = name)) hkey

/-- What the primary record has is listed, if not last. -/
theorem lastNamed_isSome {name v : Text} (h : s.state.values.lookup (joinPath a.text name) = some v) :
    (lastNamed s.state name).isSome = true := by
  have hsnapshot : s.state.snapshot.lookup (joinPath a.text name) = some v := by
    rw [ViewState.snapshot, lookup_assignAll (fun _ _ h => (ownProperty_some.mp h).1) s.nodup,
      if_pos (ownProperty_some.mpr ⟨rfl, joinPath_ne_proto a name⟩), h]
  have hsome : (s.state.snapshot.lookup (joinPath a.text name)).isSome = true := by
    rw [hsnapshot]
    rfl
  obtain ⟨e, he, hkey⟩ := List.mem_map.mp (Dict.lookup_isSome_iff.mp hsome)
  rw [lastNamed, List.find?_isSome]
  refine ⟨e, List.mem_reverse.mpr ((Dict.enumerate_perm _).mem_iff.mpr he), ?_⟩
  rw [hkey, flatKey_joinPath]
  exact decide_eq_true rfl

theorem lookup_primary_none {name : Text} (h : lastNamed s.state name = none) :
    s.state.values.lookup (joinPath a.text name) = none := by
  cases hv : s.state.values.lookup (joinPath a.text name) with
  | none => rfl
  | some v =>
    have hsome := lastNamed_isSome a s hv
    rw [h] at hsome
    cases hsome

theorem doSave_sentId (s : ViewState) :
    (doSave d s).id = sentId ((lastNamed s "id".toList).map Prod.snd) := by
  rw [doSave_id, sentId, lookup_flat s (by decide)]
  cases isEmptyId ((lastNamed s "id".toList).map Prod.snd) <;> rfl

theorem lookup_sent (s : ViewState) (f : Text) : (doSave d s).set.lookup f =
    if sentKey d f = some f then (lastNamed s f).map Prod.snd else none := by
  rw [lookup_doSave]
  split
  · next hsent => exact lookup_flat s (sentKey_some.mp hsent).2.2.2
  · rfl

variable {d a s}

theorem primaryDecides_of_writes (h : WritesPrimary d a s.state) : PrimaryDecides d a s.state where
  id e he := by
    rw [← h.id, doSave_sentId, he]
    rfl
  set name e he hid hread hproto := by
    have hsent : (doSave d s.state).set.lookup name = some e.2 := by
      rw [lookup_sent, if_pos (sentKey_some.mpr ⟨rfl, hid, hread, hproto⟩), he]
      rfl
    exact ((h.set name e.2).mp hsent).1
  proto hread := by
    have hnone : (doSave d s.state).set.lookup "__proto__".toList = none := by
      rw [lookup_sent, if_neg fun hsent => (sentKey_some.mp hsent).2.2.2 rfl]
    cases hv : s.state.values.lookup (joinPath a.text "__proto__".toList) with
    | none => rfl
    | some v =>
      rw [(h.set _ v).mpr ⟨hv, by decide, hread⟩] at hnone
      cases hnone

theorem writes_of_primaryDecides (h : PrimaryDecides d a s.state) : WritesPrimary d a s.state where
  id := by
    rw [doSave_sentId]
    cases hlast : lastNamed s.state "id".toList with
    | none => rw [lookup_primary_none a s hlast, Option.map_none]
    | some e => exact h.id e hlast
  set f v := by
    rw [lookup_sent]
    split
    · next hsent =>
      obtain ⟨-, hid, hread, hproto⟩ := sentKey_some.mp hsent
      rw [and_iff_left (⟨hid, hread⟩ : f ≠ "id".toList ∧ isReadOnly d f = false)]
      cases hlast : lastNamed s.state f with
      | none => rw [lookup_primary_none a s hlast, Option.map_none]
      | some e => rw [h.set f e hlast hid hread hproto, Option.map_some]
    · next hsent =>
      -- a name that is neither the id nor readonly is left out only if no object takes it
      refine iff_of_false nofun ?_
      rintro ⟨hv, hid, hread⟩
      have hproto : f = "__proto__".toList := by
        by_contra hne
        exact hsent (sentKey_some.mpr ⟨rfl, hid, hread, hne⟩)
      rw [hproto] at hv hread
      rw [h.proto hread] at hv
      cases hv

end Save

/-- A save writes the primary record if and only if its values are the last ones listed. -/
theorem writesPrimary_iff (d : DomainDef) (aliases : List Alias) (contextName : Alias) (s : FormState) :
    WritesPrimary d (primaryAlias aliases contextName) s.state ↔
      PrimaryDecides d (primaryAlias aliases contextName) s.state :=
  ⟨primaryDecides_of_writes, writes_of_primaryDecides⟩

def addressAlias : Alias := ⟨['a'], nofun, by decide⟩

/-- A person and an address, each with a name. -/
def personAndAddress : FormState :=
  ((FormState.empty.set ['p', '.', 'i', 'd'] ['7']).set ['p', '.', 'n'] ['A', 'd', 'a']).set
    ['a', '.', 'n'] ['H', 'o', 'm', 'e']

/-- The name of the address is saved as that of the person. -/
theorem other_alias_saved : ¬WritesPrimary personFields
    (primaryAlias [personAlias, addressAlias] personAlias) personAndAddress.state := by
  intro h
  have hsaved : (doSave personFields personAndAddress.state).set.lookup ['n'] =
      some ['H', 'o', 'm', 'e'] := by decide
  have hprimary : personAndAddress.state.values.lookup (joinPath personAlias.text ['n']) =
      some ['A', 'd', 'a'] := by decide
  have hvalue := ((h.set ['n'] ['H', 'o', 'm', 'e']).mp hsaved).1
  exact absurd (hprimary.symm.trans hvalue) (by decide)

end Onisin.Ui
