import Mathlib.Data.List.Nodup
import Onisin.Lib.Runs
import Onisin.Ui.Tabs

/-!
What every action leaves of the workspace: groups with tabs in them, one of a kind at most, and an
active tab that is open. The last of these hangs on two actions that go to a tab of a group
without asking whether the tab is still there.
-/

set_option autoImplicit false

namespace Onisin.Ui
open Lib

/-- The one tab that a group of this kind can have. -/
def soleTab : GroupKind → Option Text
  | .history => some chatHistoryId
  | .dev => some devId
  | _ => none

structure Grouped (groups : List TabGroup) : Prop where
  kinds : (groups.map TabGroup.kind).Nodup
  sole : ∀ g ∈ groups, ∀ t ∈ g.tabs, ∀ id, soleTab g.kind = some id → t.id = id

structure Shaped (groups : List TabGroup) : Prop extends Grouped groups where
  ne_nil : groups ≠ []
  tabs_ne_nil : ∀ g ∈ groups, g.tabs ≠ []

def ActiveOpen (snap : TabsSnapshot) : Prop :=
  ∃ id, snap.activeId = some id ∧ isOpen snap.groups id = true

variable {groups : List TabGroup} {snap : TabsSnapshot} {kind : GroupKind} {id : Text} {tab : TabRecord}

theorem isOpen_iff : isOpen groups id = true ↔ ∃ g ∈ groups, ∃ t ∈ g.tabs, t.id = id := by
  simp [isOpen]

theorem hasGroup_iff : hasGroup groups kind = true ↔ ∃ g ∈ groups, g.kind = kind := by
  simp [hasGroup]

theorem kind_ne_of_hasGroup (h : ¬hasGroup groups kind = true) : ∀ g ∈ groups, g.kind ≠ kind :=
  fun g hg hkind => h (hasGroup_iff.mpr ⟨g, hg, hkind⟩)

/-! What is done to the groups. -/

theorem Grouped.filter (h : Grouped groups) (p : TabGroup → Bool) : Grouped (groups.filter p) where
  kinds := h.kinds.sublist (List.filter_sublist.map _)
  sole g hg := h.sole g (List.mem_filter.mp hg).1

theorem Grouped.snoc (h : Grouped groups) {new : TabGroup} (hfresh : ∀ g ∈ groups, g.kind ≠ new.kind)
    (hsole : ∀ t ∈ new.tabs, ∀ id, soleTab new.kind = some id → t.id = id) :
    Grouped (groups ++ [new]) where
  kinds := by
    rw [List.map_append, List.map_singleton]
    refine List.nodup_append'.mpr ⟨h.kinds, List.nodup_singleton _, ?_⟩
    intro kind hkind hnew
    obtain ⟨g, hg, rfl⟩ := List.mem_map.mp hkind
    exact hfresh g hg (List.mem_singleton.mp hnew)
  sole g hg := by
    rcases List.mem_append.mp hg with hg | hg
    · exact h.sole g hg
    · rw [List.mem_singleton.mp hg]
      exact hsole

theorem addTab_kinds : (addTab kind tab groups).map TabGroup.kind = groups.map TabGroup.kind := by
  rw [addTab, List.map_map]
  refine List.map_congr_left fun g _ => ?_
  simp only [Function.comp_apply]
  split <;> rfl

theorem Grouped.addTab (h : Grouped groups) (hkind : soleTab kind = none) :
    Grouped (Ui.addTab kind tab groups) where
  kinds := by
    rw [addTab_kinds]
    exact h.kinds
  sole g hg := by
    obtain ⟨g', hg', rfl⟩ := List.mem_map.mp hg
    by_cases hmem : g'.kind = kind
    · intro t _ id hsole
      simp [hmem, hkind] at hsole
    · simpa [hmem] using h.sole g' hg'

theorem isOpen_addTab (h : hasGroup groups kind = true) : isOpen (addTab kind tab groups) tab.id = true := by
  obtain ⟨g, hg, hkind⟩ := hasGroup_iff.mp h
  have hmem : (if g.kind = kind then { g with tabs := g.tabs ++ [tab] } else g) ∈ addTab kind tab groups :=
    List.mem_map_of_mem hg
  rw [if_pos hkind] at hmem
  exact isOpen_iff.mpr ⟨_, hmem, tab, by simp, rfl⟩

theorem isOpen_snoc {new : TabGroup} (h : tab ∈ new.tabs) : isOpen (groups ++ [new]) tab.id = true :=
  isOpen_iff.mpr ⟨new, by simp, tab, h, rfl⟩

/-- Groups that may have any tabs. -/
theorem sole_of_none {new : TabGroup} (h : soleTab new.kind = none) :
    ∀ t ∈ new.tabs, ∀ id, soleTab new.kind = some id → t.id = id := by
  intro t _ id hid
  rw [h] at hid
  cases hid

theorem Grouped.withoutWelcome (h : Grouped groups) {new : TabGroup}
    (hfresh : ¬hasGroup groups new.kind = true)
    (hsole : ∀ t ∈ new.tabs, ∀ id, soleTab new.kind = some id → t.id = id) :
    Grouped (withoutKind .welcome groups ++ [new]) :=
  (h.filter _).snoc (fun g hg => kind_ne_of_hasGroup hfresh g (List.mem_filter.mp hg).1) hsole

/-! The repairing step. -/

theorem welcome_shaped : Shaped welcomeSnapshot.groups where
  kinds := List.nodup_singleton _
  sole g hg t _ id hsole := by
    rw [List.mem_singleton.mp hg] at hsole
    cases hsole
  ne_nil := List.cons_ne_nil _ _
  tabs_ne_nil g hg := by
    rw [List.mem_singleton.mp hg]
    exact List.cons_ne_nil _ _

theorem welcome_activeOpen : ActiveOpen welcomeSnapshot := ⟨welcomeId, rfl, by decide⟩

/-- The groups that have tabs. -/
def nonEmptyGroups (groups : List TabGroup) : List TabGroup := groups.filter fun g => !g.tabs.isEmpty

theorem mem_nonEmptyGroups {g : TabGroup} : g ∈ nonEmptyGroups groups ↔ g ∈ groups ∧ g.tabs ≠ [] := by
  simp [nonEmptyGroups]

theorem nonEmptyGroups_shaped (h : Grouped groups) (hne : nonEmptyGroups groups ≠ []) :
    Shaped (nonEmptyGroups groups) where
  toGrouped := h.filter _
  ne_nil := hne
  tabs_ne_nil _ hg := (mem_nonEmptyGroups.mp hg).2

/-- A snapshot without empty groups stays as it is. -/
theorem ensureWelcome_of_tabs (h : ∀ g ∈ snap.groups, g.tabs ≠ []) (hne : snap.groups ≠ []) :
    ensureWelcome snap = snap := by
  have hall : snap.groups.filter (fun g => !g.tabs.isEmpty) = snap.groups := by
    refine List.filter_eq_self.mpr fun g hg => ?_
    simpa using h g hg
  simp [ensureWelcome, hall, hne]

theorem ensureWelcome_groups (hne : nonEmptyGroups snap.groups ≠ []) :
    (ensureWelcome snap).groups = nonEmptyGroups snap.groups := by
  rw [ensureWelcome, ← nonEmptyGroups]
  split
  · rename_i hempty
    exact absurd (List.isEmpty_iff.mp hempty) hne
  split
  · rename_i hlen
    exact (List.filter_eq_self.mpr (List.length_filter_eq_length_iff.mp hlen)).symm
  · rfl

theorem ensureWelcome_empty (h : nonEmptyGroups snap.groups = []) :
    ensureWelcome snap = welcomeSnapshot := by
  rw [ensureWelcome, ← nonEmptyGroups, h]
  rfl

theorem shaped_setState (h : Grouped snap.groups) : Shaped (setState snap).groups := by
  by_cases hne : nonEmptyGroups snap.groups = []
  · rw [setState, ensureWelcome_empty hne]
    exact welcome_shaped
  · rw [setState, ensureWelcome_groups hne]
    exact nonEmptyGroups_shaped h hne

theorem isOpen_nonEmptyGroups : isOpen (nonEmptyGroups groups) id = isOpen groups id := by
  rw [Bool.eq_iff_iff, isOpen_iff, isOpen_iff]
  constructor
  · rintro ⟨g, hg, hopen⟩
    exact ⟨g, (mem_nonEmptyGroups.mp hg).1, hopen⟩
  · rintro ⟨g, hg, t, ht, hid⟩
    exact ⟨g, mem_nonEmptyGroups.mpr ⟨hg, List.ne_nil_of_mem ht⟩, t, ht, hid⟩

theorem firstTab_open (h : Shaped groups) : ∃ id, firstTab groups = some id ∧ isOpen groups id = true := by
  obtain ⟨g, rest, hgroups⟩ := List.exists_cons_of_ne_nil h.ne_nil
  obtain ⟨t, ts, htabs⟩ := List.exists_cons_of_ne_nil (h.tabs_ne_nil g (by simp [hgroups]))
  refine ⟨t.id, by simp [firstTab, hgroups, htabs], ?_⟩
  exact isOpen_iff.mpr ⟨g, by simp [hgroups], t, by simp [htabs], rfl⟩

/-- An open tab stays open through the repair, and stays active. -/
theorem activeOpen_setState (h : ActiveOpen snap) : ActiveOpen (setState snap) := by
  obtain ⟨id, hactive, hopen⟩ := h
  have hkept : isOpen (nonEmptyGroups snap.groups) id = true := isOpen_nonEmptyGroups.trans hopen
  have hne : nonEmptyGroups snap.groups ≠ [] := by
    obtain ⟨g, hg, -⟩ := isOpen_iff.mp hkept
    exact List.ne_nil_of_mem hg
  have hgroups := ensureWelcome_groups hne
  refine ⟨id, ?_, by rw [setState, hgroups]; exact hkept⟩
  have hstill : (nonEmptyGroups snap.groups).any (fun g => g.tabs.any fun t => some t.id = snap.activeId) = true := by
    simpa only [isOpen, hactive, Option.some.injEq] using hkept
  rw [setState, ensureWelcome, ← nonEmptyGroups]
  split
  · rename_i hempty
    exact absurd (List.isEmpty_iff.mp hempty) hne
  split
  · exact hactive
  · dsimp only
    rw [if_pos hstill]
    exact hactive

structure Sound (snap : TabsSnapshot) : Prop where
  shaped : Shaped snap.groups
  active : ActiveOpen snap

theorem sound_setState (h : Grouped snap.groups) (hactive : ActiveOpen snap) : Sound (setState snap) :=
  ⟨shaped_setState h, activeOpen_setState hactive⟩

/-! The actions. -/

theorem focusOr_sound {open_ : TabsSnapshot → TabsSnapshot} (h : Grouped snap.groups)
    (hopen : ¬isOpen snap.groups id = true → Sound (open_ snap)) : Sound (focusOr id open_ snap) := by
  unfold focusOr
  split
  · rename_i hid
    exact sound_setState h ⟨id, rfl, hid⟩
  · rename_i hid
    exact hopen hid

theorem openInGroup_sound (h : Grouped snap.groups) {new : TabGroup} (htab : tab ∈ new.tabs)
    (hsole : soleTab new.kind = none) : Sound (openInGroup new tab snap) := by
  unfold openInGroup
  split
  · rename_i hgroup
    exact sound_setState (h.addTab hsole) ⟨tab.id, rfl, isOpen_addTab hgroup⟩
  · rename_i hgroup
    exact sound_setState (h.withoutWelcome hgroup (sole_of_none hsole)) ⟨tab.id, rfl, isOpen_snoc htab⟩

theorem placeResult_grouped (h : Grouped groups) : Grouped (placeResult tab groups) := by
  unfold placeResult
  dsimp only
  split
  · exact (h.filter _).addTab rfl
  · rename_i hgroup
    exact (h.filter _).snoc (kind_ne_of_hasGroup hgroup) (sole_of_none rfl)

theorem placeResult_open : isOpen (placeResult tab groups) tab.id = true := by
  unfold placeResult
  dsimp only
  split
  · rename_i hgroup
    exact isOpen_addTab hgroup
  · exact isOpen_snoc (List.mem_singleton_self _)

theorem addResult_sound (h : Grouped snap.groups) (tab : TabRecord) : Sound (addResult tab snap) :=
  have hopen : isOpen (placeResult { tab with groupId := resultsId } snap.groups) tab.id = true :=
    placeResult_open
  sound_setState (placeResult_grouped h) ⟨tab.id, rfl, hopen⟩

theorem openStreamDetail_sound (h : Grouped snap.groups) (mapping sourceTable streamId : Text) :
    Sound (openStreamDetail mapping sourceTable streamId snap) := by
  unfold openStreamDetail
  exact focusOr_sound h fun _ => sound_setState (placeResult_grouped h) ⟨_, rfl, placeResult_open⟩

theorem openSettingsTab_sound (h : Grouped snap.groups) (tab : TabRecord) : Sound (openSettingsTab tab snap) :=
  focusOr_sound h fun _ => openInGroup_sound h (List.mem_singleton_self _) rfl

theorem openDocs_sound (h : Grouped snap.groups) : Sound (openDocs snap) := by
  have hfirst : docsGroup.tabs.head?.map TabRecord.id = some "doc:index".toList := by decide
  refine sound_setState ((h.filter _).snoc ?_ (sole_of_none rfl)) ⟨"doc:index".toList, hfirst, ?_⟩
  · intro g hg
    have hkept := (List.mem_filter.mp hg).2
    simp only [decide_eq_true_eq] at hkept
    exact hkept.2.1
  · obtain ⟨t, ht, hid⟩ := Option.map_eq_some_iff.mp hfirst
    exact isOpen_iff.mpr ⟨docsGroup, by simp, t, List.mem_of_mem_head? ht, hid⟩

theorem openDev_sound (h : Shaped snap.groups) : Sound (openDev snap) := by
  refine focusOr_sound h.toGrouped fun hclosed => ?_
  have hnone : ¬hasGroup snap.groups devGroup.kind = true := by
    intro hgroup
    obtain ⟨g, hg, hkind⟩ := hasGroup_iff.mp hgroup
    obtain ⟨t, ts, htabs⟩ := List.exists_cons_of_ne_nil (h.tabs_ne_nil g hg)
    have ht : t ∈ g.tabs := by simp [htabs]
    exact hclosed (isOpen_iff.mpr ⟨g, hg, t, ht, h.sole g hg t ht devId (hkind ▸ rfl)⟩)
  refine sound_setState (h.withoutWelcome hnone ?_) ⟨devId, rfl, ?_⟩
  · intro t ht id hid
    rw [List.mem_singleton.mp ht]
    exact Option.some.inj hid
  · exact isOpen_iff.mpr ⟨devGroup, by simp, _, List.mem_singleton_self _, rfl⟩

theorem setActive_sound (h : Sound snap) (id : Text) : Sound (setActive id snap) := by
  unfold setActive
  split
  · rename_i hid
    exact sound_setState h.shaped.toGrouped ⟨id, rfl, hid⟩
  · exact h

theorem isOpen_mapTabs {f : TabRecord → TabRecord} (hf : ∀ t, (f t).id = t.id) :
    isOpen (mapTabs f groups) id = isOpen groups id := by
  simp [isOpen, mapTabs, List.any_map, Function.comp_def, hf]

theorem Grouped.mapTabs (h : Grouped groups) {f : TabRecord → TabRecord} (hf : ∀ t, (f t).id = t.id) :
    Grouped (Ui.mapTabs f groups) where
  kinds := by
    rw [Ui.mapTabs, List.map_map]
    exact h.kinds
  sole g hg t ht id hid := by
    obtain ⟨g', hg', rfl⟩ := List.mem_map.mp hg
    obtain ⟨t', ht', rfl⟩ := List.mem_map.mp ht
    exact (hf t').trans (h.sole g' hg' t' ht' id hid)

theorem updatePipelineRunTab_sound (h : Sound snap) (tabId : Text) (update : RunUpdate) :
    Sound (updatePipelineRunTab tabId update snap) := by
  have hid : ∀ t : TabRecord,
      (if t.id = tabId then { t with payload := updateRun update t.payload } else t).id = t.id := by
    intro t
    split <;> rfl
  obtain ⟨id, hactive, hopen⟩ := h.active
  exact sound_setState (h.shaped.toGrouped.mapTabs hid) ⟨id, hactive, (isOpen_mapTabs hid).trans hopen⟩

/-! Closing a tab. -/

theorem Grouped.removeTab (h : Grouped groups) (id : Text) : Grouped (Ui.removeTab id groups) := by
  refine Grouped.filter ⟨?_, ?_⟩ _
  · rw [List.map_map]
    exact h.kinds
  · intro g hg t ht
    obtain ⟨g', hg', rfl⟩ := List.mem_map.mp hg
    exact h.sole g' hg' t (List.mem_filter.mp ht).1

theorem removeTab_tabs (g : TabGroup) (hg : g ∈ removeTab id groups) : g.tabs ≠ [] := by
  have hkept := (List.mem_filter.mp hg).2
  simpa using hkept

/-- Closing a tab leaves open what has another id. -/
theorem isOpen_removeTab {other : Text} :
    isOpen (removeTab id groups) other = true ↔ isOpen groups other = true ∧ other ≠ id := by
  rw [isOpen_iff, isOpen_iff]
  constructor
  · rintro ⟨g, hg, t, ht, rfl⟩
    obtain ⟨g', hg', rfl⟩ := List.mem_map.mp (List.mem_filter.mp hg).1
    obtain ⟨ht, hne⟩ := List.mem_filter.mp ht
    exact ⟨⟨g', hg', t, ht, rfl⟩, by simpa using hne⟩
  · rintro ⟨⟨g, hg, t, ht, rfl⟩, hne⟩
    have hkept : t ∈ g.tabs.filter fun t => t.id ≠ id := List.mem_filter.mpr ⟨ht, by simpa using hne⟩
    refine ⟨{ g with tabs := g.tabs.filter fun t => t.id ≠ id }, ?_, t, hkept, rfl⟩
    refine List.mem_filter.mpr ⟨List.mem_map_of_mem (f := fun g : TabGroup => { g with tabs := g.tabs.filter fun t => t.id ≠ id }) hg, ?_⟩
    simpa using List.ne_nil_of_mem hkept

theorem isOpen_of_mem_flatIds (h : id ∈ flatIds groups) : isOpen groups id = true := by
  obtain ⟨g, hg, hid⟩ := List.mem_flatMap.mp h
  obtain ⟨t, ht, rfl⟩ := List.mem_map.mp hid
  exact isOpen_iff.mpr ⟨g, hg, t, ht, rfl⟩

theorem nearestSurvivor_spec {next : Text} (h : nearestSurvivor groups id = some next) :
    isOpen groups next = true ∧ next ≠ id := by
  have hfound : ∀ l : List Text, l.find? (· ≠ id) = some next → (∀ x ∈ l, x ∈ flatIds groups) →
      isOpen groups next = true ∧ next ≠ id := by
    intro l hfind hl
    refine ⟨isOpen_of_mem_flatIds (hl next (List.mem_of_find?_eq_some hfind)), ?_⟩
    simpa using List.find?_some hfind
  unfold nearestSurvivor at h
  dsimp only at h
  split at h
  · cases h
  rename_i idx _
  split at h
  · rename_i c rest hafter
    exact hfound _ (hafter.trans h) fun x hx => List.mem_of_mem_drop hx
  · exact hfound _ h fun x hx => List.mem_of_mem_take (List.mem_reverse.mp hx)

theorem closeTab_sound (h : Sound snap) (id : Text) : Sound (closeTab id snap) := by
  have hgrouped := h.shaped.toGrouped.removeTab id
  by_cases hnil : removeTab id snap.groups = []
  · have hwelcome : closeTab id snap = welcomeSnapshot := by
      unfold closeTab
      dsimp only
      rw [hnil]
      exact ensureWelcome_empty rfl
    rw [hwelcome]
    exact ⟨welcome_shaped, welcome_activeOpen⟩
  · have hshaped : Shaped (removeTab id snap.groups) := ⟨hgrouped, hnil, removeTab_tabs⟩
    refine sound_setState hgrouped ?_
    obtain ⟨active, hactive, hopen⟩ := h.active
    by_cases hclosed : snap.activeId = some id
    · rw [if_pos hclosed]
      cases hnext : nearestSurvivor snap.groups id with
      | some next => exact ⟨next, rfl, isOpen_removeTab.mpr (nearestSurvivor_spec hnext)⟩
      | none => exact firstTab_open hshaped
    · rw [if_neg hclosed]
      have hne : active ≠ id := by
        rintro rfl
        exact hclosed hactive
      exact ⟨active, hactive, isOpen_removeTab.mpr ⟨hopen, hne⟩⟩

/-! Going to a tab of a group. -/

theorem focusGroup_grouped (h : Grouped snap.groups) {group : TabGroup}
    (hsole : ∀ t ∈ group.tabs, ∀ id, soleTab group.kind = some id → t.id = id) :
    Shaped (focusGroup group id snap).groups := by
  unfold focusGroup
  split
  · exact shaped_setState h
  · rename_i hgroup
    exact shaped_setState (h.withoutWelcome hgroup hsole)

/-- The tab gone to is open if the group was not there, and else only if it was open already. -/
theorem focusGroup_active (h : Shaped snap.groups) {group : TabGroup} (htab : tab ∈ group.tabs) :
    ActiveOpen (focusGroup group tab.id snap) ↔
      (hasGroup snap.groups group.kind = true → isOpen snap.groups tab.id = true) := by
  unfold focusGroup
  split
  · rename_i hgroup
    have hsame : setState { snap with activeId := some tab.id } = { snap with activeId := some tab.id } :=
      ensureWelcome_of_tabs h.tabs_ne_nil h.ne_nil
    rw [hsame]
    constructor
    · rintro ⟨id, hid, hopen⟩ _
      cases hid
      exact hopen
    · exact fun hopen => ⟨tab.id, rfl, hopen hgroup⟩
  · rename_i hgroup
    exact iff_of_true (activeOpen_setState ⟨tab.id, rfl, isOpen_snoc htab⟩) fun hopen => absurd hopen hgroup

theorem history_open (h : Shaped snap.groups) (hgroup : hasGroup snap.groups .history = true) :
    isOpen snap.groups chatHistoryId = true := by
  obtain ⟨g, hg, hkind⟩ := hasGroup_iff.mp hgroup
  obtain ⟨t, ts, htabs⟩ := List.exists_cons_of_ne_nil (h.tabs_ne_nil g hg)
  have ht : t ∈ g.tabs := by simp [htabs]
  exact isOpen_iff.mpr ⟨g, hg, t, ht, h.sole g hg t ht chatHistoryId (hkind ▸ rfl)⟩

theorem openSettings_active (h : Shaped snap.groups) (landOn : Option Panel) :
    ActiveOpen (openSettings landOn snap) ↔
      (hasGroup snap.groups .settings = true → isOpen snap.groups (landOn.getD .connection).tabId = true) := by
  unfold openSettings
  have hmem : ∃ t ∈ settingsGroup.tabs, t.id = (landOn.getD .connection).tabId := by
    cases landOn.getD .connection with
    | connection => exact ⟨_, .head _, rfl⟩
    | finetuning => exact ⟨_, .tail _ (.head _), rfl⟩
    | logs => exact ⟨_, .tail _ (.tail _ (.head _)), rfl⟩
    | permissions => exact ⟨_, .tail _ (.tail _ (.tail _ (.head _))), rfl⟩
  obtain ⟨t, ht, hid⟩ := hmem
  rw [← hid]
  exact focusGroup_active h ht

theorem openActivityList_active (h : Shaped snap.groups) :
    ActiveOpen (openActivityList snap) ↔
      (hasGroup snap.groups .activity = true → isOpen snap.groups activityListId = true) :=
  have htab : ⟨activityListId, activityId, .activityList⟩ ∈ activityGroup.tabs := .head _
  focusGroup_active h htab

theorem openChatHistory_sound (h : Shaped snap.groups) : Sound (openChatHistory snap) where
  shaped := focusGroup_grouped h.toGrouped fun t ht id hid => by
    rw [List.mem_singleton.mp ht]
    exact Option.some.inj hid
  active :=
    have htab : ⟨chatHistoryId, "history".toList, .chatHistory⟩ ∈ historyGroup.tabs := .head _
    (focusGroup_active h htab).mpr (history_open h)

/-! Runs. -/

/-- A tab that is gone to for the sake of its group is there, if the group is. -/
def Lands (snap : TabsSnapshot) : TabAction → Prop
  | .openSettings landOn => hasGroup snap.groups .settings = true →
      isOpen snap.groups (landOn.getD .connection).tabId = true
  | .openActivityList => hasGroup snap.groups .activity = true →
      isOpen snap.groups activityListId = true
  | _ => True

/-- What a step leaves of the shape, and under which condition the active tab is open. -/
structure Leaves (snap next : TabsSnapshot) (lands : Prop) : Prop where
  shaped : Shaped next.groups
  active : ActiveOpen snap → (ActiveOpen next ↔ lands)

theorem Sound.leaves {next : TabsSnapshot} (h : Sound next) : Leaves snap next True :=
  ⟨h.shaped, fun _ => iff_of_true h.active trivial⟩

theorem leaves_of_sound {next : TabsSnapshot} (hs : Shaped next.groups) (h : ActiveOpen snap → Sound next) :
    Leaves snap next True :=
  ⟨hs, fun hactive => iff_of_true (h hactive).active trivial⟩

theorem updatePipelineRunTab_shaped (h : Grouped snap.groups) (tabId : Text) (update : RunUpdate) :
    Shaped (updatePipelineRunTab tabId update snap).groups := by
  refine shaped_setState (h.mapTabs fun t => ?_)
  split <;> rfl

theorem setActive_shaped (h : Shaped snap.groups) (id : Text) : Shaped (setActive id snap).groups := by
  unfold setActive
  split
  · exact shaped_setState h.toGrouped
  · exact h

theorem step_leaves (h : Shaped snap.groups) (a : TabAction) : Leaves snap (snap.step a) (Lands snap a) := by
  have hg := h.toGrouped
  cases a with
  | showWelcome => exact (sound_setState welcome_shaped.toGrouped welcome_activeOpen).leaves
  | openSettings landOn =>
    exact ⟨focusGroup_grouped hg (sole_of_none rfl), fun _ => openSettings_active h landOn⟩
  | openActivityList => exact ⟨focusGroup_grouped hg (sole_of_none rfl), fun _ => openActivityList_active h⟩
  | openActivityDetail turnId =>
    exact (focusOr_sound hg fun _ => openInGroup_sound hg (List.mem_append_right _ (.head _)) rfl).leaves
  | openStreamManager => exact (openSettingsTab_sound hg _).leaves
  | openStreamDetail mapping sourceTable streamId =>
    exact (openStreamDetail_sound hg mapping sourceTable streamId).leaves
  | openNewEvent => exact (openSettingsTab_sound hg _).leaves
  | openTranslate => exact (openSettingsTab_sound hg _).leaves
  | openChatHistory => exact (openChatHistory_sound h).leaves
  | openDocs => exact (openDocs_sound hg).leaves
  | addResult tab => exact (addResult_sound hg _).leaves
  | addGraphqlResult contextName query data viewName now => exact (addResult_sound hg _).leaves
  | addEventResult mapping streamId question answer hits model now => exact (addResult_sound hg _).leaves
  | addAskResult question answer model now => exact (addResult_sound hg _).leaves
  | addDslDetail contextName viewName data id now =>
    exact (focusOr_sound hg fun _ => addResult_sound hg _).leaves
  | openPipelineList => exact (focusOr_sound hg fun _ => addResult_sound hg _).leaves
  | openPipelineRun pipelineName now => exact (addResult_sound hg _).leaves
  | updatePipelineRunTab tabId update =>
    exact leaves_of_sound (updatePipelineRunTab_shaped hg tabId update) fun hactive =>
      updatePipelineRunTab_sound ⟨h, hactive⟩ tabId update
  | openDev => exact (openDev_sound h).leaves
  | setActive id =>
    exact leaves_of_sound (setActive_shaped h id) fun hactive => setActive_sound ⟨h, hactive⟩ id
  | closeTab id =>
    exact leaves_of_sound (shaped_setState (hg.removeTab id)) fun hactive => closeTab_sound ⟨h, hactive⟩ id

/-- What the rail shows: a tab at least, no empty group, one group of a kind at most, and an
active tab that is open. -/
structure WellFormed (snap : TabsSnapshot) : Prop where
  some_tab : ∃ g ∈ snap.groups, g.tabs ≠ []
  no_empty : ∀ g ∈ snap.groups, g.tabs ≠ []
  one_of_kind : ∀ kind, (snap.groups.filter fun g => g.kind = kind).length ≤ 1
  active : ∃ id, snap.activeId = some id ∧ ∃ g ∈ snap.groups, ∃ t ∈ g.tabs, t.id = id

theorem wellFormed_iff (h : Shaped snap.groups) : WellFormed snap ↔ ActiveOpen snap := by
  constructor
  · rintro hw
    obtain ⟨id, hactive, hopen⟩ := hw.active
    exact ⟨id, hactive, isOpen_iff.mpr hopen⟩
  · rintro ⟨id, hactive, hopen⟩
    refine ⟨?_, h.tabs_ne_nil, fun kind => ?_, id, hactive, isOpen_iff.mp hopen⟩
    · obtain ⟨g, rest, hgroups⟩ := List.exists_cons_of_ne_nil h.ne_nil
      have hg : g ∈ snap.groups := by simp [hgroups]
      exact ⟨g, hg, h.tabs_ne_nil g hg⟩
    · have hcount := List.nodup_iff_count_le_one.mp h.kinds kind
      rw [List.count, List.countP_map, List.countP_eq_length_filter] at hcount
      exact hcount

/-- The runs in which every snapshot is well formed are those in which no action goes to a closed
tab of an open group. -/
theorem tabs_wellFormed_iff (acts : List TabAction) :
    (∀ n, WellFormed (run TabsSnapshot.step computeInitial (acts.take n))) ↔
      Along TabsSnapshot.step Lands computeInitial acts := by
  have hshaped : ∀ snap a, Shaped snap.groups → Shaped (TabsSnapshot.step snap a).groups :=
    fun _ a h => (step_leaves h a).shaped
  have hruns : (∀ n, ActiveOpen (run TabsSnapshot.step computeInitial (acts.take n))) ↔
      Along TabsSnapshot.step Lands computeInitial acts :=
    good_run_iff hshaped (fun _ a h => (step_leaves h a).active) welcome_shaped welcome_activeOpen
  rw [← hruns]
  exact forall_congr' fun n => wellFormed_iff (run_keeps hshaped welcome_shaped _)

/-- Closing a panel of the settings and going back to it makes a tab active that is not open;
so does closing the list of the activity behind a turn. -/
theorem closed_tab_active :
    ¬WellFormed (run TabsSnapshot.step computeInitial
        [.openSettings none, .closeTab Panel.connection.tabId, .openSettings none]) ∧
      ¬WellFormed (run TabsSnapshot.step computeInitial
        [.openActivityDetail ['1'], .closeTab activityListId, .openActivityList]) := by
  have hsettings : ¬isOpen (run TabsSnapshot.step computeInitial
      [.openSettings none, .closeTab Panel.connection.tabId, .openSettings none]).groups
      Panel.connection.tabId = true := by decide
  have hactivity : ¬isOpen (run TabsSnapshot.step computeInitial
      [.openActivityDetail ['1'], .closeTab activityListId, .openActivityList]).groups
      activityListId = true := by decide
  constructor
  · intro hw
    obtain ⟨id, hactive, hopen⟩ := hw.active
    cases hactive
    exact hsettings (isOpen_iff.mpr hopen)
  · intro hw
    obtain ⟨id, hactive, hopen⟩ := hw.active
    cases hactive
    exact hactivity (isOpen_iff.mpr hopen)

end Onisin.Ui
