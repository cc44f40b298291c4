import Mathlib.Algebra.Ring.Nat
import Mathlib.Data.List.Flatten
import Onisin.Ui.TabNames
import Onisin.Ui.TabsClose

/-!
Which tab an action goes to. Ids are joined with colons or stamped with the clock, so they can
meet: a step leaves the ids distinct exactly when no name it adds meets that of a tab it keeps.
-/

set_option autoImplicit false

namespace Onisin.Ui
open Lib

/-! What a step adds, and to which groups. -/

/-- The groups that stay and the names of the tabs added to them. -/
abbrev Added := List TabGroup × List TabName

/-- The names of a group that always looks the same. -/
def fixedNames (group : TabGroup) : List TabName := group.tabs.map fun t => .other t.id

def addsGroup (group : TabGroup) (snap : TabsSnapshot) : Option Added :=
  if hasGroup snap.groups group.kind then none
  else some (withoutKind .welcome snap.groups, fixedNames group)

/-- A tab in its group, which is opened with `others` in front of it. -/
def addsInGroup (kind : GroupKind) (others : List TabName) (name : TabName) (snap : TabsSnapshot) : Added :=
  if hasGroup snap.groups kind then (snap.groups, [name])
  else (withoutKind .welcome snap.groups, others ++ [name])

/-- The groups that do not give way to a new result. -/
def lasting (groups : List TabGroup) : List TabGroup := groups.filter fun g => !g.displaceOnNewActivity

def addsResult (name : TabName) (snap : TabsSnapshot) : Added := (lasting snap.groups, [name])

def addsInNew (name : TabName) (snap : TabsSnapshot) : Added := (withoutKind .welcome snap.groups, [name])

def unlessOpen (name : TabName) (adds : TabName → TabsSnapshot → Added) (snap : TabsSnapshot) : Option Added :=
  if isOpen snap.groups name.id then none else some (adds name snap)

def addsSettingsTab (tabId : Text) : TabsSnapshot → Option Added :=
  unlessOpen (.other tabId) (addsInGroup .settings [])

/-- What the action adds to the workspace, if it opens anything. -/
def TabAction.adds (snap : TabsSnapshot) : TabAction → Option Added
  | .openSettings _ => addsGroup settingsGroup snap
  | .openActivityList => addsGroup activityGroup snap
  | .openChatHistory => addsGroup historyGroup snap
  | .openActivityDetail turnId =>
    unlessOpen (.activityDetail turnId) (addsInGroup .activity (fixedNames activityGroup)) snap
  | .openStreamManager => addsSettingsTab "settings:streams".toList snap
  | .openNewEvent => addsSettingsTab "settings:new-event".toList snap
  | .openTranslate => addsSettingsTab "settings:translate".toList snap
  | .openDocs =>
    some (snap.groups.filter fun g => g.kind ≠ .welcome ∧ g.kind ≠ .docs ∧ !g.displaceOnDocsOpen,
      fixedNames docsGroup)
  | .openStreamDetail mapping _ streamId => unlessOpen (.streamDetail mapping streamId) addsResult snap
  | .addResult tab => some (addsResult (.other tab.id) snap)
  | .addGraphqlResult contextName _ _ _ now => some (addsResult (.graphqlResult contextName now) snap)
  | .addEventResult mapping streamId _ _ _ _ now =>
    let stream := if streamId.isEmpty then "all".toList else streamId
    some (addsResult (.eventResult mapping stream now) snap)
  | .addAskResult _ _ _ now => some (addsResult (.askResult now) snap)
  | .addDslDetail _ viewName _ id now => unlessOpen (detailName viewName id now) addsResult snap
  | .openPipelineList => unlessOpen (.other "pipeline:list".toList) addsResult snap
  | .openPipelineRun pipelineName now => some (addsResult (.pipelineRun pipelineName now) snap)
  | .openDev => unlessOpen (.other devId) addsInNew snap
  | .showWelcome | .updatePipelineRunTab _ _ | .setActive _ | .closeTab _ => none

def Distinct (groups : List TabGroup) : Prop := (flatIds groups).Nodup

/-- None of the names added meets that of a tab that stays. -/
def Free : Option Added → Prop
  | none => True
  | some (kept, names) => ∀ n ∈ names, ∀ n' : TabName, n'.id ∈ flatIds kept → ¬ n.Meets n'

/-- The ids after a step: those kept, in some order, and those added. -/
def Adds (snap next : TabsSnapshot) : Option Added → Prop
  | none => Distinct snap.groups → Distinct next.groups
  | some (kept, names) =>
    (flatIds next.groups).Perm (flatIds kept ++ names.map TabName.id) ∧ kept.Sublist snap.groups ∧
      (names.map TabName.id).Nodup

variable {groups : List TabGroup} {snap next : TabsSnapshot} {kind : GroupKind} {id : Text}
  {tab : TabRecord} {name : TabName}

theorem flatIds_sublist {kept : List TabGroup} (h : kept.Sublist groups) :
    (flatIds kept).Sublist (flatIds groups) := h.flatMap fun g => g.tabs.map TabRecord.id

/-- A step keeps the ids distinct exactly when those it adds are free. -/
theorem Adds.distinct_iff {b : Option Added} (h : Adds snap next b) (hd : Distinct snap.groups) :
    Distinct next.groups ↔ Free b := by
  cases b with
  | none => exact iff_of_true (h hd) trivial
  | some b =>
    obtain ⟨kept, names⟩ := b
    obtain ⟨hperm, hkept, hids⟩ := h
    rw [Distinct, hperm.nodup_iff, List.nodup_append]
    have hk : (flatIds kept).Nodup := hd.sublist (flatIds_sublist hkept)
    constructor
    · rintro ⟨-, -, hne⟩ n hn n' hmem hmeets
      exact hne n'.id hmem n.id (List.mem_map_of_mem hn) ((n.id_eq_iff n').mpr hmeets).symm
    · intro hfree
      refine ⟨hk, hids, ?_⟩
      rintro x hx y hy rfl
      obtain ⟨n, hn, rfl⟩ := List.mem_map.mp hy
      exact hfree n hn n hx ((n.id_eq_iff n).mp rfl)

/-! The repair and the groups. -/

theorem flatIds_append (groups more : List TabGroup) :
    flatIds (groups ++ more) = flatIds groups ++ flatIds more := List.flatMap_append

theorem flatIds_nonEmptyGroups (groups : List TabGroup) :
    flatIds (nonEmptyGroups groups) = flatIds groups := by
  induction groups with
  | nil => rfl
  | cons g groups ih =>
    rw [nonEmptyGroups, List.filter_cons]
    cases htabs : g.tabs with
    | nil =>
      rw [if_neg (by simp), flatIds_cons, htabs, ← nonEmptyGroups, ih]
      rfl
    | cons t ts =>
      rw [if_pos (by simp), flatIds_cons, flatIds_cons, ← nonEmptyGroups, ih]

theorem nonEmptyGroups_of_open (h : isOpen groups id = true) : nonEmptyGroups groups ≠ [] := by
  obtain ⟨g, hg, -⟩ := isOpen_iff.mp (isOpen_nonEmptyGroups.trans h)
  exact List.ne_nil_of_mem hg

theorem flatIds_setState {active : Option Text} (h : isOpen groups id = true) :
    flatIds (setState ⟨groups, active⟩).groups = flatIds groups := by
  rw [setState, ensureWelcome_groups (nonEmptyGroups_of_open h), flatIds_nonEmptyGroups]

theorem distinct_setState (h : Distinct snap.groups) : Distinct (setState snap).groups := by
  by_cases hne : nonEmptyGroups snap.groups = []
  · rw [setState, ensureWelcome_empty hne]
    exact List.nodup_singleton _
  · rw [Distinct, setState, ensureWelcome_groups hne, flatIds_nonEmptyGroups]
    exact h

theorem addTab_of_none (h : ∀ g ∈ groups, g.kind ≠ kind) : addTab kind tab groups = groups :=
  (List.map_congr_left fun g hg => if_neg (h g hg)).trans (List.map_id groups)

/-- One group has the kind, so the tab is added once. -/
theorem flatIds_addTab (hkinds : (groups.map TabGroup.kind).Nodup) (h : hasGroup groups kind = true) :
    (flatIds (addTab kind tab groups)).Perm (flatIds groups ++ [tab.id]) := by
  induction groups with
  | nil => cases h
  | cons g groups ih =>
    rw [List.map_cons, List.nodup_cons] at hkinds
    rw [addTab, List.map_cons, flatIds_cons, flatIds_cons, ← addTab]
    by_cases hg : g.kind = kind
    · have hrest : addTab kind tab groups = groups := by
        refine addTab_of_none fun g' hg' heq => hkinds.1 ?_
        rw [hg, ← heq]
        exact List.mem_map_of_mem hg'
      rw [if_pos hg, hrest, List.map_append, List.append_assoc, List.append_assoc]
      exact List.perm_append_comm.append_left _
    · have hrest : hasGroup groups kind = true := by
        obtain ⟨g', hg', hk⟩ := hasGroup_iff.mp h
        rcases List.mem_cons.mp hg' with rfl | hg'
        · exact absurd hk hg
        · exact hasGroup_iff.mpr ⟨g', hg', hk⟩
      rw [if_neg hg, List.append_assoc]
      exact (ih hkinds.2 hrest).append_left _

/-! What the actions add. -/

theorem adds_focus (snap : TabsSnapshot) (active : Option Text) :
    Adds snap (setState { snap with activeId := active }) none := by
  intro h
  exact distinct_setState h

theorem adds_snoc {kept : List TabGroup} {new : TabGroup} {names : List TabName} {active : Option Text}
    (hkept : kept.Sublist snap.groups) (htab : tab ∈ new.tabs)
    (hnames : new.tabs.map TabRecord.id = names.map TabName.id) (hids : (names.map TabName.id).Nodup) :
    Adds snap (setState ⟨kept ++ [new], active⟩) (some (kept, names)) := by
  have hopen : isOpen (kept ++ [new]) tab.id = true := isOpen_snoc htab
  refine ⟨?_, hkept, hids⟩
  rw [flatIds_setState hopen, flatIds_append, ← hnames]
  simp [flatIds]

theorem adds_addTab {kept : List TabGroup} {active : Option Text} (hkept : kept.Sublist snap.groups)
    (hkinds : (kept.map TabGroup.kind).Nodup) (h : hasGroup kept kind = true) (hname : name.id = tab.id) :
    Adds snap (setState ⟨addTab kind tab kept, active⟩) (some (kept, [name])) := by
  have hopen : isOpen (addTab kind tab kept) tab.id = true := isOpen_addTab h
  refine ⟨?_, hkept, List.nodup_singleton _⟩
  rw [flatIds_setState hopen, List.map_singleton, hname]
  exact flatIds_addTab hkinds h

theorem ids_fixedNames (group : TabGroup) :
    (fixedNames group).map TabName.id = group.tabs.map TabRecord.id := List.map_map ..

theorem adds_focusGroup {group : TabGroup} {target : Text} (htab : tab ∈ group.tabs)
    (hids : (group.tabs.map TabRecord.id).Nodup) :
    Adds snap (focusGroup group target snap) (addsGroup group snap) := by
  have hnames := ids_fixedNames group
  unfold focusGroup addsGroup
  split
  · exact adds_focus snap _
  · exact adds_snoc List.filter_sublist htab hnames.symm (hnames ▸ hids)

theorem adds_focusOr {open_ : TabsSnapshot → TabsSnapshot} {adds : TabName → TabsSnapshot → Added}
    (hname : name.id = id) (h : Adds snap (open_ snap) (some (adds name snap))) :
    Adds snap (focusOr id open_ snap) (unlessOpen name adds snap) := by
  unfold focusOr unlessOpen
  rw [hname]
  split
  · exact adds_focus snap _
  · exact h

theorem adds_openInGroup (hg : Grouped snap.groups) {new : TabGroup} {others : List TabName}
    (htab : tab ∈ new.tabs) (hname : name.id = tab.id)
    (hnames : new.tabs.map TabRecord.id = (others ++ [name]).map TabName.id)
    (hids : ((others ++ [name]).map TabName.id).Nodup) :
    Adds snap (openInGroup new tab snap) (some (addsInGroup new.kind others name snap)) := by
  unfold openInGroup addsInGroup
  split
  · rename_i h
    exact adds_addTab (List.Sublist.refl _) hg.kinds h hname
  · exact adds_snoc List.filter_sublist htab hnames hids

theorem adds_placeResult (hg : Grouped snap.groups) (tab : TabRecord) (active : Option Text)
    (hname : name.id = tab.id) :
    Adds snap (setState ⟨placeResult tab snap.groups, active⟩) (some (addsResult name snap)) := by
  have hids : [tab.id] = [name].map TabName.id := by rw [List.map_singleton, hname]
  unfold placeResult addsResult
  dsimp only
  rw [← lasting]
  split
  · rename_i h
    exact adds_addTab List.filter_sublist (hg.filter _).kinds h hname
  · exact adds_snoc List.filter_sublist (List.mem_singleton_self tab) hids (List.nodup_singleton _)

theorem adds_addResult (hg : Grouped snap.groups) (tab : TabRecord) (hname : name.id = tab.id) :
    Adds snap (addResult tab snap) (some (addsResult name snap)) :=
  adds_placeResult hg { tab with groupId := resultsId } _ hname

theorem adds_openSettingsTab (hg : Grouped snap.groups) (tab : TabRecord) :
    Adds snap (openSettingsTab tab snap) (addsSettingsTab tab.id snap) := by
  have hname : (TabName.other tab.id).id = tab.id := rfl
  refine adds_focusOr hname ?_
  have htab : tab ∈ ({ settingsGroup with tabs := [tab] } : TabGroup).tabs :=
    List.mem_singleton_self tab
  exact adds_openInGroup hg htab hname rfl (List.nodup_singleton _)

theorem adds_openActivityDetail (hg : Grouped snap.groups) (turnId : Text) :
    Adds snap (openActivityDetail turnId snap) ((TabAction.openActivityDetail turnId).adds snap) := by
  have hne : activityListId ≠ "activity:detail:".toList ++ turnId := by
    intro h
    have hstart := congrArg (List.take 10) h
    rw [List.take_append_of_le_length (by decide)] at hstart
    exact absurd hstart (by decide)
  have hids : ([activityListId, "activity:detail:".toList ++ turnId] : List Text).Nodup := by
    rw [List.nodup_cons, List.mem_singleton]
    exact ⟨hne, List.nodup_singleton _⟩
  exact adds_focusOr rfl (adds_openInGroup hg (List.mem_append_right _ (.head _)) rfl rfl hids)

theorem adds_updatePipelineRunTab (tabId : Text) (update : RunUpdate) :
    Adds snap (updatePipelineRunTab tabId update snap) none := by
  intro h
  refine distinct_setState ?_
  have hsame : ∀ groups : List TabGroup, flatIds (mapTabs (fun t => if t.id = tabId then
      { t with payload := updateRun update t.payload } else t) groups) = flatIds groups := by
    intro groups
    induction groups with
    | nil => rfl
    | cons g groups ih =>
      rw [mapTabs, List.map_cons, flatIds_cons, flatIds_cons, ← mapTabs, ih, List.map_map]
      congr 1
      refine List.map_congr_left fun t _ => ?_
      simp only [Function.comp]
      split <;> rfl
  rw [Distinct, hsame]
  exact h

theorem adds_step (h : Grouped snap.groups) (a : TabAction) :
    Adds snap (snap.step a) (a.adds snap) := by
  cases a with
  | showWelcome => exact fun _ => distinct_setState (List.nodup_singleton welcomeId)
  | openSettings landOn => exact adds_focusGroup (.head _) (by decide)
  | openActivityList => exact adds_focusGroup (.head _) (by decide)
  | openActivityDetail turnId => exact adds_openActivityDetail h turnId
  | openStreamManager => exact adds_openSettingsTab h _
  | openStreamDetail mapping sourceTable streamId => exact adds_focusOr rfl (adds_placeResult h _ _ rfl)
  | openNewEvent => exact adds_openSettingsTab h _
  | openTranslate => exact adds_openSettingsTab h _
  | openChatHistory => exact adds_focusGroup (.head _) (by decide)
  | openDocs =>
    have htab : ⟨"doc:index".toList, "docs".toList, .doc "index".toList⟩ ∈ docsGroup.tabs := .head _
    exact adds_snoc List.filter_sublist htab rfl (by decide)
  | addResult tab => exact adds_addResult h _ rfl
  | addGraphqlResult contextName query data viewName now => exact adds_addResult h _ rfl
  | addEventResult mapping streamId question answer hits model now => exact adds_addResult h _ rfl
  | addAskResult question answer model now => exact adds_addResult h _ rfl
  | addDslDetail contextName viewName data id now =>
    exact adds_focusOr (detailName_id ..) (adds_addResult h _ (detailName_id ..))
  | openPipelineList => exact adds_focusOr rfl (adds_addResult h _ rfl)
  | openPipelineRun pipelineName now => exact adds_addResult h _ rfl
  | updatePipelineRunTab tabId update => exact adds_updatePipelineRunTab tabId update
  | openDev =>
    have htab : ⟨devId, "dev".toList, .dev⟩ ∈ devGroup.tabs := .head _
    have hopen : Adds snap (setState ⟨withoutKind .welcome snap.groups ++ [devGroup], some devId⟩)
        (some (addsInNew (.other devId) snap)) :=
      adds_snoc List.filter_sublist htab rfl (List.nodup_singleton _)
    exact adds_focusOr rfl hopen
  | setActive id =>
    intro hd
    show Distinct (Ui.setActive id snap).groups
    unfold Ui.setActive
    split
    · exact adds_focus snap _ hd
    · exact hd
  | closeTab id =>
    intro hd
    refine distinct_setState ?_
    rw [Distinct, flatIds_removeTab]
    exact hd.sublist List.filter_sublist

/-! The results. -/

/-- Results never give way to new ones. -/
def ResultsLast (groups : List TabGroup) : Prop :=
  ∀ g ∈ groups, g.kind = .results → g.displaceOnNewActivity = false

def resultTabs (groups : List TabGroup) : Nat :=
  ((groups.filter fun g => g.kind = .results).map fun g => g.tabs.length).sum

theorem ResultsLast.filter (h : ResultsLast groups) (p : TabGroup → Bool) :
    ResultsLast (groups.filter p) :=
  fun g hg => h g (List.mem_filter.mp hg).1

theorem ResultsLast.snoc (h : ResultsLast groups) {new : TabGroup}
    (hnew : new.kind = .results → new.displaceOnNewActivity = false) :
    ResultsLast (groups ++ [new]) := by
  intro g hg
  rcases List.mem_append.mp hg with hg | hg
  · exact h g hg
  · rw [List.mem_singleton.mp hg]
    exact hnew

/-- Only the tabs of the groups change. -/
theorem ResultsLast.map (h : ResultsLast groups) {f : TabGroup → TabGroup}
    (hf : ∀ g, (f g).kind = g.kind ∧ (f g).displaceOnNewActivity = g.displaceOnNewActivity) :
    ResultsLast (groups.map f) := by
  intro g hg
  obtain ⟨g', hg', rfl⟩ := List.mem_map.mp hg
  rw [(hf g').1, (hf g').2]
  exact h g' hg'

theorem ResultsLast.addTab (h : ResultsLast groups) : ResultsLast (Ui.addTab kind tab groups) := by
  refine h.map fun g => ?_
  split
  · exact ⟨rfl, rfl⟩
  · exact ⟨rfl, rfl⟩

theorem ResultsLast.setState {active : Option Text} (h : ResultsLast groups) :
    ResultsLast (Ui.setState ⟨groups, active⟩).groups := by
  by_cases hne : nonEmptyGroups groups = []
  · rw [Ui.setState, ensureWelcome_empty hne]
    intro g hg hkind
    rw [List.mem_singleton.mp hg] at hkind
    cases hkind
  · rw [Ui.setState, ensureWelcome_groups hne]
    exact h.filter _

theorem ResultsLast.focusGroup (h : ResultsLast snap.groups) {group : TabGroup} {target : Text}
    (hnew : group.kind = .results → group.displaceOnNewActivity = false) :
    ResultsLast (Ui.focusGroup group target snap).groups := by
  unfold Ui.focusGroup
  split
  · exact h.setState
  · exact ((h.filter _).snoc hnew).setState

theorem ResultsLast.focusOr (h : ResultsLast snap.groups) {open_ : TabsSnapshot → TabsSnapshot}
    (hopen : ResultsLast (open_ snap).groups) : ResultsLast (Ui.focusOr id open_ snap).groups := by
  unfold Ui.focusOr
  split
  · exact h.setState
  · exact hopen

theorem ResultsLast.openInGroup (h : ResultsLast snap.groups) {new : TabGroup}
    (hnew : new.kind = .results → new.displaceOnNewActivity = false) :
    ResultsLast (Ui.openInGroup new tab snap).groups := by
  unfold Ui.openInGroup
  split
  · exact h.addTab.setState
  · exact ((h.filter _).snoc hnew).setState

theorem ResultsLast.placeResult (h : ResultsLast groups) (tab : TabRecord) :
    ResultsLast (Ui.placeResult tab groups) := by
  unfold Ui.placeResult
  dsimp only
  split
  · exact (h.filter _).addTab
  · exact (h.filter _).snoc fun _ => rfl

theorem ResultsLast.addResult (h : ResultsLast snap.groups) (tab : TabRecord) :
    ResultsLast (Ui.addResult tab snap).groups := (h.placeResult _).setState

theorem resultsLast_step (h : ResultsLast snap.groups) (a : TabAction) :
    ResultsLast (snap.step a).groups := by
  cases a with
  | showWelcome =>
    refine ResultsLast.setState fun g hg hkind => ?_
    rw [List.mem_singleton.mp hg] at hkind
    cases hkind
  | openSettings landOn => exact h.focusGroup nofun
  | openActivityList => exact h.focusGroup nofun
  | openActivityDetail turnId => exact h.focusOr (h.openInGroup fun hkind => by cases hkind)
  | openStreamManager => exact h.focusOr (h.openInGroup nofun)
  | openStreamDetail mapping sourceTable streamId => exact h.focusOr (h.placeResult _).setState
  | openNewEvent => exact h.focusOr (h.openInGroup nofun)
  | openTranslate => exact h.focusOr (h.openInGroup nofun)
  | openChatHistory => exact h.focusGroup nofun
  | openDocs => exact ((h.filter _).snoc fun hkind => by cases hkind).setState
  | addResult tab => exact h.addResult _
  | addGraphqlResult contextName query data viewName now => exact h.addResult _
  | addEventResult mapping streamId question answer hits model now => exact h.addResult _
  | addAskResult question answer model now => exact h.addResult _
  | addDslDetail contextName viewName data id now => exact h.focusOr (h.addResult _)
  | openPipelineList => exact h.focusOr (h.addResult _)
  | openPipelineRun pipelineName now => exact h.addResult _
  | updatePipelineRunTab tabId update =>
    refine ResultsLast.setState (h.map fun g => ?_)
    exact ⟨rfl, rfl⟩
  | openDev => exact h.focusOr ((h.filter _).snoc fun hkind => by cases hkind).setState
  | setActive id =>
    show ResultsLast (Ui.setActive id snap).groups
    unfold Ui.setActive
    split
    · exact h.setState
    · exact h
  | closeTab id =>
    refine ResultsLast.setState ((h.map fun g => ?_).filter _)
    exact ⟨rfl, rfl⟩

/-! How many results there are. -/

theorem resultTabs_cons (g : TabGroup) (groups : List TabGroup) :
    resultTabs (g :: groups) =
      (if g.kind = .results then g.tabs.length else 0) + resultTabs groups := by
  unfold resultTabs
  by_cases h : g.kind = .results
  · simp [h]
  · simp [h]

theorem resultTabs_of_none (h : ∀ g ∈ groups, g.kind ≠ .results) : resultTabs groups = 0 := by
  induction groups with
  | nil => rfl
  | cons g groups ih =>
    rw [resultTabs_cons, if_neg (h g List.mem_cons_self),
      ih fun g' hg' => h g' (List.mem_cons_of_mem _ hg')]

theorem resultTabs_nonEmptyGroups (groups : List TabGroup) :
    resultTabs (nonEmptyGroups groups) = resultTabs groups := by
  induction groups with
  | nil => rfl
  | cons g groups ih =>
    rw [nonEmptyGroups, List.filter_cons]
    cases htabs : g.tabs with
    | nil =>
      rw [if_neg (by simp), resultTabs_cons, htabs, ← nonEmptyGroups, ih]
      simp
    | cons t ts => rw [if_pos (by simp), resultTabs_cons, resultTabs_cons, ← nonEmptyGroups, ih]

theorem resultTabs_setState {active : Option Text} (h : isOpen groups id = true) :
    resultTabs (setState ⟨groups, active⟩).groups = resultTabs groups := by
  rw [setState, ensureWelcome_groups (nonEmptyGroups_of_open h), resultTabs_nonEmptyGroups]

theorem resultTabs_addTab (hkinds : (groups.map TabGroup.kind).Nodup)
    (h : hasGroup groups .results = true) :
    resultTabs (addTab .results tab groups) = resultTabs groups + 1 := by
  induction groups with
  | nil => cases h
  | cons g groups ih =>
    rw [List.map_cons, List.nodup_cons] at hkinds
    rw [addTab, List.map_cons, resultTabs_cons, resultTabs_cons, ← addTab]
    by_cases hg : g.kind = .results
    · have hrest : ∀ g' ∈ groups, g'.kind ≠ .results := by
        intro g' hg' heq
        refine hkinds.1 ?_
        rw [hg, ← heq]
        exact List.mem_map_of_mem hg'
      rw [if_pos hg, if_pos hg, if_pos hg, addTab_of_none hrest, List.length_append,
        List.length_singleton]
      omega
    · have hrest : hasGroup groups .results = true := by
        obtain ⟨g', hg', hk⟩ := hasGroup_iff.mp h
        rcases List.mem_cons.mp hg' with rfl | hg'
        · exact absurd hk hg
        · exact hasGroup_iff.mpr ⟨g', hg', hk⟩
      rw [if_neg hg, if_neg hg, ih hkinds.2 hrest]
      omega

theorem resultTabs_lasting (h : ResultsLast groups) :
    resultTabs (lasting groups) = resultTabs groups := by
  unfold resultTabs lasting
  rw [List.filter_filter]
  congr 2
  refine List.filter_congr fun g hg => ?_
  by_cases hk : g.kind = .results
  · simp [hk, h g hg hk]
  · simp [hk]

/-- A result adds a tab to the results. -/
theorem resultTabs_placeResult (hg : Grouped groups) (h : ResultsLast groups) (tab : TabRecord)
    (active : Option Text) :
    resultTabs (setState ⟨placeResult tab groups, active⟩).groups = resultTabs groups + 1 := by
  rw [resultTabs_setState placeResult_open, ← resultTabs_lasting h]
  unfold placeResult
  dsimp only
  rw [← lasting]
  split
  · rename_i hgroup
    exact resultTabs_addTab (hg.filter _).kinds hgroup
  · rename_i hgroup
    have hnone := kind_ne_of_hasGroup hgroup
    rw [resultTabs_of_none hnone, resultTabs, List.filter_append, List.map_append, List.sum_append,
      ← resultTabs, resultTabs_of_none hnone]
    rfl

/-! What an action promises of the tab it goes to. -/

/-- The tab is not the detail of another stream. -/
def TabPayload.OfStream (mapping streamId : Text) : TabPayload → Prop
  | .streamDetail mapping' _ streamId' => mapping' = mapping ∧ streamId' = streamId
  | _ => True

/-- The tab is not the detail of another record. -/
def TabPayload.OfRecord (viewName : Text) (id : Option RecordId) : TabPayload → Prop
  | .dslDetail _ viewName' _ id' => viewName' = viewName ∧ id' = id
  | _ => True

def ActiveShows (P : TabPayload → Prop) (snap : TabsSnapshot) : Prop :=
  ∀ g ∈ snap.groups, ∀ t ∈ g.tabs, some t.id = snap.activeId → P t.payload

def OneMoreResult (snap next : TabsSnapshot) : Prop :=
  resultTabs next.groups = resultTabs snap.groups + 1

/-- A detail goes to no tab of another pair; a call that is to open a fresh tab adds one. -/
def Promised (snap next : TabsSnapshot) : TabAction → Prop
  | .openStreamDetail mapping _ streamId => ActiveShows (·.OfStream mapping streamId) next
  | .addDslDetail _ viewName _ id _ =>
    if RecordId.isNew id then OneMoreResult snap next else ActiveShows (·.OfRecord viewName id) next
  | .addGraphqlResult _ _ _ _ _ => OneMoreResult snap next
  | .addEventResult _ _ _ _ _ _ _ => OneMoreResult snap next
  | .addAskResult _ _ _ _ => OneMoreResult snap next
  | .openPipelineRun _ _ => OneMoreResult snap next
  | _ => True

/-- All open ids are distinct after the step, and the call keeps its promise. -/
def Identified (snap : TabsSnapshot) (a : TabAction) : Prop :=
  Distinct (snap.step a).groups ∧ Promised snap (snap.step a) a

/-- The tabs whose names meet this one show what they are to. -/
def NameShows (n : TabName) (P : TabPayload → Prop) (groups : List TabGroup) : Prop :=
  ∀ g ∈ groups, ∀ t ∈ g.tabs, ∀ n' : TabName, n'.id = t.id → n.Meets n' → P t.payload

/-- No name that is added meets that of a tab that stays. Of the tabs open, one whose name meets
that of a detail is not of another pair, and none meets a new record. -/
def Clear (snap : TabsSnapshot) (a : TabAction) : Prop :=
  Free (a.adds snap) ∧
    match a with
    | .openStreamDetail mapping _ streamId =>
      NameShows (.streamDetail mapping streamId) (·.OfStream mapping streamId) snap.groups
    | .addDslDetail _ viewName _ id now =>
      if RecordId.isNew id then Free (some (snap.groups, [.newDetail viewName now]))
      else NameShows (detailName viewName id now) (·.OfRecord viewName id) snap.groups
    | _ => True

/-! Where an action lands. -/

theorem focus_eq (h : Shaped snap.groups) (active : Option Text) :
    setState { snap with activeId := active } = { snap with activeId := active } :=
  ensureWelcome_of_tabs h.tabs_ne_nil h.ne_nil

/-- The tabs of the groups with a result placed are the new one and some that were there. -/
theorem mem_placeResult {g : TabGroup} {t : TabRecord} (hg : g ∈ placeResult tab groups)
    (ht : t ∈ g.tabs) : t = tab ∨ ∃ g' ∈ groups, t ∈ g'.tabs := by
  unfold placeResult at hg
  dsimp only at hg
  split at hg
  · obtain ⟨g', hg', rfl⟩ := List.mem_map.mp hg
    have hmem := (List.mem_filter.mp hg').1
    split at ht
    · rcases List.mem_append.mp ht with ht | ht
      · exact Or.inr ⟨g', hmem, ht⟩
      · exact Or.inl (List.mem_singleton.mp ht)
    · exact Or.inr ⟨g', hmem, ht⟩
  · rcases List.mem_append.mp hg with hg | hg
    · exact Or.inr ⟨g, (List.mem_filter.mp hg).1, ht⟩
    · rw [List.mem_singleton.mp hg] at ht
      exact Or.inl (List.mem_singleton.mp ht)

theorem placeResult_tabs (h : Shaped groups) : ∀ g ∈ placeResult tab groups, g.tabs ≠ [] := by
  intro g hg
  unfold placeResult at hg
  dsimp only at hg
  split at hg
  · obtain ⟨g', hg', rfl⟩ := List.mem_map.mp hg
    have hne := h.tabs_ne_nil g' (List.mem_filter.mp hg').1
    split
    · simp
    · exact hne
  · rcases List.mem_append.mp hg with hg | hg
    · exact h.tabs_ne_nil g (List.mem_filter.mp hg).1
    · rw [List.mem_singleton.mp hg]
      exact List.cons_ne_nil _ _

theorem place_eq (h : Shaped snap.groups) (tab : TabRecord) :
    setState ⟨placeResult tab snap.groups, some tab.id⟩ =
      ⟨placeResult tab snap.groups, some tab.id⟩ := by
  refine ensureWelcome_of_tabs (placeResult_tabs h) ?_
  have hopen : isOpen (placeResult tab snap.groups) tab.id = true := placeResult_open
  obtain ⟨g, hg, -⟩ := isOpen_iff.mp hopen
  exact List.ne_nil_of_mem hg

/-- A tab that was not open shows what it is opened for. -/
theorem placed_shows (h : Shaped snap.groups) {P : TabPayload → Prop} (hP : P tab.payload)
    (hclosed : isOpen snap.groups tab.id = false) :
    ActiveShows P (setState ⟨placeResult tab snap.groups, some tab.id⟩) := by
  rw [place_eq h]
  intro g hg t ht hactive
  rcases mem_placeResult hg ht with rfl | ⟨g', hg', ht'⟩
  · exact hP
  · rw [isOpen_iff.mpr ⟨g', hg', t, ht', Option.some.inj hactive⟩] at hclosed
    cases hclosed

/-- Going to a detail keeps to its pair exactly when the open tabs that meet it are of that pair. -/
theorem focusOr_shows (h : Shaped snap.groups) {P : TabPayload → Prop}
    {open_ : TabsSnapshot → TabsSnapshot} (hname : name.id = id)
    (hopen : isOpen snap.groups id = false → ActiveShows P (open_ snap)) :
    ActiveShows P (focusOr id open_ snap) ↔ NameShows name P snap.groups := by
  unfold focusOr
  split
  · rw [focus_eq h]
    constructor
    · intro hs g hg t ht n' hn' hmeets
      have hid : name.id = n'.id := (name.id_eq_iff n').mpr hmeets
      exact hs g hg t ht (congrArg some (by rw [← hn', ← hid, hname]))
    · intro hs g hg t ht hactive
      have hid : name.id = t.id := hname.trans (Option.some.inj hactive).symm
      exact hs g hg t ht name hid ((name.id_eq_iff name).mp rfl)
  · rename_i hclosed
    rw [Bool.not_eq_true] at hclosed
    refine iff_of_true (hopen hclosed) fun g hg t ht n' hn' hmeets => ?_
    have hid : t.id = id := by rw [← hn', ← (name.id_eq_iff n').mpr hmeets, hname]
    rw [isOpen_iff.mpr ⟨g, hg, t, ht, hid⟩] at hclosed
    cases hclosed

theorem addResult_more (h : Shaped snap.groups) (hlast : ResultsLast snap.groups) (tab : TabRecord) :
    OneMoreResult snap (addResult tab snap) := resultTabs_placeResult h.toGrouped hlast _ _

/-- A name is free of the open tabs exactly when its tab is not open. -/
theorem free_iff_closed (groups : List TabGroup) (name : TabName) :
    Free (some (groups, [name])) ↔ isOpen groups name.id = false := by
  rw [← Bool.not_eq_true, isOpen_iff_mem_flatIds]
  constructor
  · intro hfree hmem
    exact hfree name (List.mem_singleton_self _) name hmem ((name.id_eq_iff name).mp rfl)
  · intro hclosed n hn n' hmem hmeets
    rw [List.mem_singleton.mp hn] at hmeets
    exact hclosed ((name.id_eq_iff n').mpr hmeets ▸ hmem)

theorem focusOr_more (h : Shaped snap.groups) (hlast : ResultsLast snap.groups) (tab : TabRecord)
    (hname : name.id = tab.id) :
    OneMoreResult snap (focusOr tab.id (addResult tab) snap) ↔ Free (some (snap.groups, [name])) := by
  rw [free_iff_closed, hname]
  unfold focusOr
  split
  · rename_i hopen
    rw [focus_eq h, hopen]
    exact iff_of_false (Nat.ne_of_lt (Nat.lt_succ_self _)) fun h => by cases h
  · rename_i hclosed
    exact iff_of_true (addResult_more h hlast tab) (by simpa using hclosed)

/-! Runs. -/

structure Orderly (snap : TabsSnapshot) : Prop where
  shaped : Shaped snap.groups
  resultsLast : ResultsLast snap.groups
  distinct : Distinct snap.groups

theorem orderly_initial : Orderly computeInitial where
  shaped := welcome_shaped
  resultsLast g hg hkind := by
    rw [List.mem_singleton.mp hg] at hkind
    cases hkind
  distinct := List.nodup_singleton _

theorem identified_iff (h : Orderly snap) (a : TabAction) : Identified snap a ↔ Clear snap a := by
  refine and_congr ((adds_step h.shaped.toGrouped a).distinct_iff h.distinct) ?_
  cases a with
  | openStreamDetail mapping sourceTable streamId =>
    exact focusOr_shows h.shaped rfl (placed_shows h.shaped ⟨rfl, rfl⟩)
  | addDslDetail contextName viewName data id now =>
    by_cases hnew : RecordId.isNew id = true
    · simp only [Promised, if_pos hnew]
      exact focusOr_more h.shaped h.resultsLast _ (detailName_new hnew now ▸ detailName_id ..)
    · simp only [Promised, if_neg hnew]
      exact focusOr_shows h.shaped (detailName_id ..) (placed_shows h.shaped ⟨rfl, rfl⟩)
  | addGraphqlResult contextName query data viewName now =>
    exact iff_of_true (addResult_more h.shaped h.resultsLast _) trivial
  | addEventResult mapping streamId question answer hits model now =>
    exact iff_of_true (addResult_more h.shaped h.resultsLast _) trivial
  | addAskResult question answer model now =>
    exact iff_of_true (addResult_more h.shaped h.resultsLast _) trivial
  | openPipelineRun pipelineName now =>
    exact iff_of_true (addResult_more h.shaped h.resultsLast _) trivial
  | showWelcome => exact Iff.rfl
  | openSettings landOn => exact Iff.rfl
  | openActivityList => exact Iff.rfl
  | openActivityDetail turnId => exact Iff.rfl
  | openStreamManager => exact Iff.rfl
  | openNewEvent => exact Iff.rfl
  | openTranslate => exact Iff.rfl
  | openChatHistory => exact Iff.rfl
  | openDocs => exact Iff.rfl
  | addResult tab => exact Iff.rfl
  | openPipelineList => exact Iff.rfl
  | updatePipelineRunTab tabId update => exact Iff.rfl
  | openDev => exact Iff.rfl
  | setActive id => exact Iff.rfl
  | closeTab id => exact Iff.rfl

theorem orderly_step (h : Orderly snap) {a : TabAction} (hi : Identified snap a) :
    Orderly (snap.step a) :=
  ⟨(step_leaves h.shaped a).shaped, resultsLast_step h.resultsLast a, hi.1⟩

/-- The runs in which tabs keep their identity at every step are those whose every step is clear. -/
theorem tab_identity_iff (acts : List TabAction) :
    Along TabsSnapshot.step Identified computeInitial acts ↔
      Along TabsSnapshot.step Clear computeInitial acts := by
  have hstep : ∀ snap a, Orderly snap → Identified snap a → Orderly (TabsSnapshot.step snap a) :=
    fun _ _ h hi => orderly_step h hi
  have hiff : ∀ snap a, Orderly snap → (Identified snap a ↔ Clear snap a) :=
    fun _ a h => identified_iff h a
  exact along_congr hstep hiff orderly_initial acts

/-- In one millisecond two answers get one id and a second draft is not opened; a colon in the
name of a mapping makes the streams of two mappings share a tab. -/
theorem tabs_meet :
    ¬ Along TabsSnapshot.step Identified computeInitial
        [.addAskResult ['q'] ['a'] ['m'] 7, .addAskResult ['r'] ['b'] ['m'] 7] ∧
      ¬ Along TabsSnapshot.step Identified computeInitial
        [.addDslDetail ['c'] ['v'] [] none 7, .addDslDetail ['c'] ['v'] [] none 7] ∧
      ¬ Along TabsSnapshot.step Identified computeInitial
        [.openStreamDetail ['a', ':', 'b'] ['t'] ['c'],
          .openStreamDetail ['a'] ['t'] ['b', ':', 'c']] := by
  refine ⟨fun h => ?_, fun h => ?_, fun h => ?_⟩
  · have hdistinct : (flatIds _).Nodup := h.2.1.1
    exact absurd hdistinct (by decide)
  · have hmore : resultTabs _ = resultTabs _ + 1 := h.2.1.2
    exact absurd hmore (by decide)
  · have hshown := h.2.1.2 _ (.head _) _ (.head _) rfl
    exact absurd hshown.1 (by decide)

end Onisin.Ui
