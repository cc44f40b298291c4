import Onisin.Lib.Json

/-!
The tabs of the workspace, in groups. Every action of the user rebuilds the groups and chooses the
active tab; whatever comes of it passes through one repairing step.
-/

set_option autoImplicit false

namespace Onisin.Ui
open Lib

inductive GroupKind where
  | welcome
  | docs
  | results
  | settings
  | history
  | activity
  | dev
  deriving DecidableEq, Repr

inductive RunStatus where
  | idle
  | running
  | done
  | error
  deriving DecidableEq, Repr

/-- The id of a record, as the row has it. -/
inductive RecordId where
  | text (s : Text)
  | number (n : Number)
  deriving DecidableEq, Repr

def RecordId.toText : RecordId → Text
  | .text s => s
  | .number n => n.toText

inductive TabPayload where
  | welcome
  | doc (topicId : Text)
  | graphqlResult (contextName query : Text) (data : Json) (viewName : Option Text)
  | eventResult (mapping streamId question answer : Text) (hits : List Json) (model : Text)
  | askResult (question answer model : Text)
  | dslDetail (contextName viewName : Text) (data : List (Text × Json)) (id : Option RecordId)
  | settingsConnection
  | settingsFinetuning
  | settingsLogs
  | settingsPermissions
  | chatHistory
  | activityList
  | activityDetail (turnId : Text)
  | streamManager
  | newEvent
  | translate
  | pipelineList
  | pipelineRun (pipelineName : Text) (status : RunStatus) (output : Text) (error runId : Option Text)
  | streamDetail (mapping sourceTable streamId : Text)
  | dev

structure TabRecord where
  id : Text
  groupId : Text
  payload : TabPayload

structure TabGroup where
  id : Text
  kind : GroupKind
  tabs : List TabRecord
  displaceOnNewActivity : Bool
  displaceOnDocsOpen : Bool

structure TabsSnapshot where
  groups : List TabGroup
  activeId : Option Text

/-! The groups as they are first built. -/

def welcomeId : Text := "welcome".toList

def welcomeGroup : TabGroup :=
  ⟨welcomeId, .welcome, [⟨welcomeId, welcomeId, .welcome⟩], true, true⟩

def docTopics : List Text :=
  ["index".toList, "architecture".toList, "agent-design".toList, "settings".toList,
    "finetuning".toList, "shortcuts".toList]

/-- The topics that have a text bundled. -/
def docsContent : List Text :=
  ["agent-design".toList, "architecture".toList, "finetuning".toList, "index".toList,
    "settings".toList, "shortcuts".toList]

def docsGroup : TabGroup :=
  let topics := docTopics.filter fun t => docsContent.contains t
  ⟨"docs".toList, .docs, topics.map fun t => ⟨"doc:".toList ++ t, "docs".toList, .doc t⟩, true, false⟩

/-- A panel of the settings. -/
inductive Panel where
  | connection
  | finetuning
  | logs
  | permissions
  deriving DecidableEq, Repr

def Panel.tabId : Panel → Text
  | .connection => "settings:connection".toList
  | .finetuning => "settings:finetuning".toList
  | .logs => "settings:logs".toList
  | .permissions => "settings:permissions".toList

def settingsId : Text := "settings".toList

def settingsGroup : TabGroup :=
  ⟨settingsId, .settings,
    [⟨Panel.connection.tabId, settingsId, .settingsConnection⟩,
      ⟨Panel.finetuning.tabId, settingsId, .settingsFinetuning⟩,
      ⟨Panel.logs.tabId, settingsId, .settingsLogs⟩,
      ⟨Panel.permissions.tabId, settingsId, .settingsPermissions⟩], false, false⟩

def activityId : Text := "activity".toList

def activityListId : Text := "activity:list".toList

def activityGroup : TabGroup :=
  ⟨activityId, .activity, [⟨activityListId, activityId, .activityList⟩], false, false⟩

def chatHistoryId : Text := "history:chats".toList

def historyGroup : TabGroup :=
  ⟨"history".toList, .history, [⟨chatHistoryId, "history".toList, .chatHistory⟩], false, false⟩

def devId : Text := "dev:agent".toList

def devGroup : TabGroup :=
  ⟨"dev".toList, .dev, [⟨devId, "dev".toList, .dev⟩], false, false⟩

def resultsGroup (tab : TabRecord) : TabGroup :=
  ⟨"results".toList, .results, [tab], false, true⟩

/-! The state. -/

def welcomeSnapshot : TabsSnapshot := ⟨[welcomeGroup], some welcomeId⟩

def computeInitial : TabsSnapshot := welcomeSnapshot

/-- The ids of the tabs, in the order of the rail. -/
def flatIds (groups : List TabGroup) : List Text := groups.flatMap fun g => g.tabs.map TabRecord.id

def isOpen (groups : List TabGroup) (id : Text) : Bool :=
  groups.any fun g => g.tabs.any fun t => t.id = id

def hasGroup (groups : List TabGroup) (kind : GroupKind) : Bool := groups.any fun g => g.kind = kind

/-- The id of the first tab of the first group. -/
def firstTab (groups : List TabGroup) : Option Text :=
  groups.head?.bind fun g => g.tabs.head?.map TabRecord.id

/-- Groups without tabs go, and with the last of them Welcome comes back. -/
def ensureWelcome (snap : TabsSnapshot) : TabsSnapshot :=
  let nonEmpty := snap.groups.filter fun g => !g.tabs.isEmpty
  if nonEmpty.isEmpty then welcomeSnapshot
  else if nonEmpty.length = snap.groups.length then snap
  else
    let stillActive := nonEmpty.any fun g => g.tabs.any fun t => some t.id = snap.activeId
    ⟨nonEmpty, if stillActive then snap.activeId else firstTab nonEmpty⟩

def setState (next : TabsSnapshot) : TabsSnapshot := ensureWelcome next

/-! The actions of the user. -/

def showWelcome (_ : TabsSnapshot) : TabsSnapshot := setState welcomeSnapshot

def withoutKind (kind : GroupKind) (groups : List TabGroup) : List TabGroup :=
  groups.filter fun g => g.kind ≠ kind

/-- Goes to a tab of a group that is opened if it is not there yet. Whether the tab itself is
still in the group is not asked. -/
def focusGroup (group : TabGroup) (targetTabId : Text) (snap : TabsSnapshot) : TabsSnapshot :=
  if hasGroup snap.groups group.kind then setState { snap with activeId := some targetTabId }
  else setState ⟨withoutKind .welcome snap.groups ++ [group], some targetTabId⟩

def openSettings (landOn : Option Panel) : TabsSnapshot → TabsSnapshot :=
  focusGroup settingsGroup (landOn.getD .connection).tabId

def openActivityList : TabsSnapshot → TabsSnapshot := focusGroup activityGroup activityListId

def openChatHistory : TabsSnapshot → TabsSnapshot := focusGroup historyGroup chatHistoryId

/-- Goes to the tab if it is open; otherwise `open_` opens it. -/
def focusOr (tabId : Text) (open_ : TabsSnapshot → TabsSnapshot) (snap : TabsSnapshot) : TabsSnapshot :=
  if isOpen snap.groups tabId then setState { snap with activeId := some tabId } else open_ snap

def addTab (kind : GroupKind) (tab : TabRecord) (groups : List TabGroup) : List TabGroup :=
  groups.map fun g => if g.kind = kind then { g with tabs := g.tabs ++ [tab] } else g

/-- Adds a tab to its group, or opens the group, as `new`, with the tab in it. -/
def openInGroup (new : TabGroup) (tab : TabRecord) (snap : TabsSnapshot) : TabsSnapshot :=
  if hasGroup snap.groups new.kind then setState ⟨addTab new.kind tab snap.groups, some tab.id⟩
  else setState ⟨withoutKind .welcome snap.groups ++ [new], some tab.id⟩

def openActivityDetail (turnId : Text) : TabsSnapshot → TabsSnapshot :=
  let tab : TabRecord := ⟨"activity:detail:".toList ++ turnId, activityId, .activityDetail turnId⟩
  focusOr tab.id (openInGroup { activityGroup with tabs := activityGroup.tabs ++ [tab] } tab)

/-- A tab of the settings that is not one of its panels. -/
def openSettingsTab (tab : TabRecord) : TabsSnapshot → TabsSnapshot :=
  focusOr tab.id (openInGroup { settingsGroup with tabs := [tab] } tab)

def openStreamManager : TabsSnapshot → TabsSnapshot :=
  openSettingsTab ⟨"settings:streams".toList, settingsId, .streamManager⟩

def openNewEvent : TabsSnapshot → TabsSnapshot :=
  openSettingsTab ⟨"settings:new-event".toList, settingsId, .newEvent⟩

def openTranslate : TabsSnapshot → TabsSnapshot :=
  openSettingsTab ⟨"settings:translate".toList, settingsId, .translate⟩

def openDocs (snap : TabsSnapshot) : TabsSnapshot :=
  let kept := snap.groups.filter fun g => g.kind ≠ .welcome ∧ g.kind ≠ .docs ∧ !g.displaceOnDocsOpen
  setState ⟨kept ++ [docsGroup], docsGroup.tabs.head?.map TabRecord.id⟩

def resultsId : Text := "results".toList

/-- The groups with the tab among the results, without those that give way to a new result. -/
def placeResult (tab : TabRecord) (groups : List TabGroup) : List TabGroup :=
  let kept := groups.filter fun g => !g.displaceOnNewActivity
  if hasGroup kept .results then addTab .results tab kept else kept ++ [resultsGroup tab]

/-- Whatever group the tab names, it is placed among the results. -/
def addResult (tab : TabRecord) (snap : TabsSnapshot) : TabsSnapshot :=
  let placed := { tab with groupId := resultsId }
  setState ⟨placeResult placed snap.groups, some placed.id⟩

def openStreamDetail (mapping sourceTable streamId : Text) : TabsSnapshot → TabsSnapshot :=
  let tab : TabRecord :=
    ⟨"stream:".toList ++ mapping ++ [':'] ++ streamId, resultsId, .streamDetail mapping sourceTable streamId⟩
  focusOr tab.id fun snap => setState ⟨placeResult tab snap.groups, some tab.id⟩

/-- `Date.now()` as it is written in an id. -/
def stamp (now : Nat) : Text := (toString now).toList

def addGraphqlResult (contextName query : Text) (data : Json) (viewName : Option Text) (now : Nat) :
    TabsSnapshot → TabsSnapshot :=
  addResult ⟨"result:".toList ++ contextName ++ [':'] ++ stamp now, resultsId,
    .graphqlResult contextName query data viewName⟩

def addEventResult (mapping streamId question answer : Text) (hits : List Json) (model : Text)
    (now : Nat) : TabsSnapshot → TabsSnapshot :=
  let stream := if streamId.isEmpty then "all".toList else streamId
  addResult ⟨"event:".toList ++ mapping ++ [':'] ++ stream ++ [':'] ++ stamp now, resultsId,
    .eventResult mapping streamId question answer hits model⟩

def addAskResult (question answer model : Text) (now : Nat) : TabsSnapshot → TabsSnapshot :=
  addResult ⟨"ask:".toList ++ stamp now, resultsId, .askResult question answer model⟩

/-- An id that is missing, empty or zero is that of a record to be made. -/
def RecordId.isNew : Option RecordId → Bool
  | none => true
  | some id => id = .text [] ∨ id = .number (.int 0)

def detailIdPart (id : Option RecordId) (now : Nat) : Text :=
  if RecordId.isNew id then "new-".toList ++ stamp now else (id.map RecordId.toText).getD []

def addDslDetail (contextName viewName : Text) (data : List (Text × Json)) (id : Option RecordId)
    (now : Nat) : TabsSnapshot → TabsSnapshot :=
  let tab : TabRecord :=
    ⟨"detail:".toList ++ viewName ++ [':'] ++ detailIdPart id now, resultsId,
      .dslDetail contextName viewName data id⟩
  focusOr tab.id (addResult tab)

def openPipelineList : TabsSnapshot → TabsSnapshot :=
  let tab : TabRecord := ⟨"pipeline:list".toList, resultsId, .pipelineList⟩
  focusOr tab.id (addResult tab)

def openPipelineRun (pipelineName : Text) (now : Nat) : TabsSnapshot → TabsSnapshot :=
  addResult ⟨"pipeline:run:".toList ++ pipelineName ++ [':'] ++ stamp now, resultsId,
    .pipelineRun pipelineName .idle [] none none⟩

structure RunUpdate where
  status : RunStatus
  output : Option Text
  error : Option Text
  runId : Option Text

def updateRun (update : RunUpdate) : TabPayload → TabPayload
  | .pipelineRun pipelineName _ output _ runId =>
    .pipelineRun pipelineName update.status (update.output.getD output) update.error
      (update.runId.or runId)
  | payload => payload

def mapTabs (f : TabRecord → TabRecord) (groups : List TabGroup) : List TabGroup :=
  groups.map fun g => { g with tabs := g.tabs.map f }

def updatePipelineRunTab (tabId : Text) (update : RunUpdate) (snap : TabsSnapshot) : TabsSnapshot :=
  let updateTab (t : TabRecord) : TabRecord :=
    if t.id = tabId then { t with payload := updateRun update t.payload } else t
  setState { snap with groups := mapTabs updateTab snap.groups }

def openDev : TabsSnapshot → TabsSnapshot :=
  focusOr devId fun snap =>
    setState ⟨withoutKind .welcome snap.groups ++ [devGroup], some devId⟩

def setActive (id : Text) (snap : TabsSnapshot) : TabsSnapshot :=
  if isOpen snap.groups id then setState { snap with activeId := some id } else snap

/-- The next tab in the rail, or else the one before; an empty id is taken for none. -/
def nearestSurvivor (groups : List TabGroup) (removedId : Text) : Option Text :=
  let flat := flatIds groups
  match flat.idxOf? removedId with
  | none => none
  | some idx =>
    match (flat.drop (idx + 1)).find? (· ≠ removedId) with
    | some (c :: rest) => some (c :: rest)
    | _ => (flat.take idx).reverse.find? (· ≠ removedId)

def removeTab (id : Text) (groups : List TabGroup) : List TabGroup :=
  (groups.map fun g => { g with tabs := g.tabs.filter fun t => t.id ≠ id }).filter fun g => !g.tabs.isEmpty

def closeTab (id : Text) (snap : TabsSnapshot) : TabsSnapshot :=
  let groups := removeTab id snap.groups
  let nextActive :=
    if snap.activeId = some id then (nearestSurvivor snap.groups id).or (firstTab groups)
    else snap.activeId
  setState ⟨groups, nextActive⟩

/-- A call of one of the store's mutators, with the clock where it is read. -/
inductive TabAction where
  | showWelcome
  | openSettings (landOn : Option Panel)
  | openActivityList
  | openActivityDetail (turnId : Text)
  | openStreamManager
  | openStreamDetail (mapping sourceTable streamId : Text)
  | openNewEvent
  | openTranslate
  | openChatHistory
  | openDocs
  | addResult (tab : TabRecord)
  | addGraphqlResult (contextName query : Text) (data : Json) (viewName : Option Text) (now : Nat)
  | addEventResult (mapping streamId question answer : Text) (hits : List Json) (model : Text) (now : Nat)
  | addAskResult (question answer model : Text) (now : Nat)
  | addDslDetail (contextName viewName : Text) (data : List (Text × Json)) (id : Option RecordId) (now : Nat)
  | openPipelineList
  | openPipelineRun (pipelineName : Text) (now : Nat)
  | updatePipelineRunTab (tabId : Text) (update : RunUpdate)
  | openDev
  | setActive (id : Text)
  | closeTab (id : Text)

def TabsSnapshot.step (snap : TabsSnapshot) : TabAction → TabsSnapshot
  | .showWelcome => Ui.showWelcome snap
  | .openSettings landOn => Ui.openSettings landOn snap
  | .openActivityList => Ui.openActivityList snap
  | .openActivityDetail turnId => Ui.openActivityDetail turnId snap
  | .openStreamManager => Ui.openStreamManager snap
  | .openStreamDetail mapping sourceTable streamId =>
    Ui.openStreamDetail mapping sourceTable streamId snap
  | .openNewEvent => Ui.openNewEvent snap
  | .openTranslate => Ui.openTranslate snap
  | .openChatHistory => Ui.openChatHistory snap
  | .openDocs => Ui.openDocs snap
  | .addResult tab => Ui.addResult tab snap
  | .addGraphqlResult contextName query data viewName now =>
    Ui.addGraphqlResult contextName query data viewName now snap
  | .addEventResult mapping streamId question answer hits model now =>
    Ui.addEventResult mapping streamId question answer hits model now snap
  | .addAskResult question answer model now => Ui.addAskResult question answer model now snap
  | .addDslDetail contextName viewName data id now =>
    Ui.addDslDetail contextName viewName data id now snap
  | .openPipelineList => Ui.openPipelineList snap
  | .openPipelineRun pipelineName now => Ui.openPipelineRun pipelineName now snap
  | .updatePipelineRunTab tabId update => Ui.updatePipelineRunTab tabId update snap
  | .openDev => Ui.openDev snap
  | .setActive id => Ui.setActive id snap
  | .closeTab id => Ui.closeTab id snap

end Onisin.Ui
