import Onisin.Ui.TabsInvariant

/-!
Closing a tab, seen on the rail: the tabs of all groups in a row. What is left are the tabs
before it and after it; the groups keep theirs.
-/

set_option autoImplicit false

namespace Onisin.Ui
open Lib

/-- The group without the tab; it goes with it if the tab was the last one there. -/
def TabGroup.without (id : Text) (g : TabGroup) : Option TabGroup :=
  let tabs := g.tabs.filter fun t => t.id ≠ id
  if tabs = [] ∧ g.tabs.any (fun t => t.id = id) then none else some { g with tabs := tabs }

def remaining (id : Text) (groups : List TabGroup) : List TabGroup := groups.filterMap (·.without id)

/-- What closing a tab with `before` and `after` around it in the rail is to leave: the other tabs
in their groups, and a neighbour active if the tab was; Welcome if there are no others. -/
structure ClosedBetween (id : Text) (before after : List Text) (snap next : TabsSnapshot) : Prop where
  welcome : before ++ after = [] → next = welcomeSnapshot
  rail : before ++ after ≠ [] → flatIds next.groups = before ++ after
  groups : before ++ after ≠ [] → next.groups = remaining id snap.groups
  active : before ++ after ≠ [] → next.activeId =
    if snap.activeId = some id then after.head?.or before.getLast? else snap.activeId

/-- Closing is exact: an unknown id changes nothing, of an open tab nothing else is taken, and the
neighbour that becomes active is named. -/
structure ClosesExactly (id : Text) (snap : TabsSnapshot) : Prop where
  unknown : isOpen snap.groups id = false → closeTab id snap = snap
  between : ∀ before after, flatIds snap.groups = before ++ id :: after →
    ClosedBetween id before after snap (closeTab id snap)

/-- Behind the tab stands one whose id is empty, and some tab stands before it. -/
def NextUnnamed (id : Text) (groups : List TabGroup) : Prop :=
  ∃ before after, before ≠ [] ∧ flatIds groups = before ++ id :: [] :: after

variable {groups : List TabGroup} {snap : TabsSnapshot} {id : Text} {before after : List Text}

/-! The rail. -/

theorem flatIds_cons (g : TabGroup) (groups : List TabGroup) :
    flatIds (g :: groups) = g.tabs.map TabRecord.id ++ flatIds groups := rfl

theorem isOpen_iff_mem_flatIds : isOpen groups id = true ↔ id ∈ flatIds groups := by
  refine ⟨fun h => ?_, isOpen_of_mem_flatIds⟩
  obtain ⟨g, hg, t, ht, rfl⟩ := isOpen_iff.mp h
  exact List.mem_flatMap.mpr ⟨g, hg, List.mem_map_of_mem ht⟩

theorem removeTab_cons (id : Text) (g : TabGroup) (groups : List TabGroup) :
    removeTab id (g :: groups) =
      if (g.tabs.filter fun t => t.id ≠ id) = [] then removeTab id groups
      else { g with tabs := g.tabs.filter fun t => t.id ≠ id } :: removeTab id groups := by
  unfold removeTab
  rw [List.map_cons, List.filter_cons]
  by_cases h : (g.tabs.filter fun t => t.id ≠ id) = []
  · simp only [h, List.isEmpty_nil, Bool.not_true, Bool.false_eq_true, if_false, if_true]
  · simp only [if_neg h, List.isEmpty_iff.not.mpr h, Bool.not_false, if_true]

/-- The rail loses the tab and nothing else. -/
theorem flatIds_removeTab (id : Text) (groups : List TabGroup) :
    flatIds (removeTab id groups) = (flatIds groups).filter (· ≠ id) := by
  induction groups with
  | nil => rfl
  | cons g groups ih =>
    have hmap : (g.tabs.map TabRecord.id).filter (· ≠ id) =
        (g.tabs.filter fun t => t.id ≠ id).map TabRecord.id := List.filter_map
    rw [flatIds_cons, List.filter_append, hmap, ← ih, removeTab_cons]
    split
    · rename_i hnil
      rw [hnil]
      rfl
    · rfl

/-- With a tab in every group, only the closed one's group can go. -/
theorem removeTab_eq_remaining (htabs : ∀ g ∈ groups, g.tabs ≠ []) :
    removeTab id groups = remaining id groups := by
  induction groups with
  | nil => rfl
  | cons g groups ih =>
    have hrest := ih fun g' hg' => htabs g' (List.mem_cons_of_mem _ hg')
    rw [removeTab_cons, hrest, remaining, remaining]
    by_cases hnil : (g.tabs.filter fun t => t.id ≠ id) = []
    · have hown : g.tabs.any (fun t => t.id = id) = true := by
        obtain ⟨t, ts, hg⟩ := List.exists_cons_of_ne_nil (htabs g List.mem_cons_self)
        have ht : t.id = id := by simpa using List.filter_eq_nil_iff.mp hnil t (by rw [hg]; simp)
        exact List.any_eq_true.mpr ⟨t, by rw [hg]; simp, by simpa using ht⟩
      have hgone : g.without id = none := if_pos ⟨hnil, hown⟩
      rw [if_pos hnil, List.filterMap_cons_none hgone]
    · have hkept : g.without id = some { g with tabs := g.tabs.filter fun t => t.id ≠ id } :=
        if_neg fun h => hnil h.1
      rw [if_neg hnil, List.filterMap_cons_some hkept]

/-- Closing a tab that is not open leaves the groups. -/
theorem removeTab_of_closed (htabs : ∀ g ∈ groups, g.tabs ≠ []) (h : id ∉ flatIds groups) :
    removeTab id groups = groups := by
  induction groups with
  | nil => rfl
  | cons g groups ih =>
    rw [flatIds_cons, List.mem_append, not_or] at h
    have hall : (g.tabs.filter fun t => t.id ≠ id) = g.tabs := by
      refine List.filter_eq_self.mpr fun t ht => ?_
      have hne : t.id ≠ id := fun heq => h.1 (heq ▸ List.mem_map_of_mem ht)
      simpa using hne
    rw [removeTab_cons, hall, if_neg (htabs g List.mem_cons_self),
      ih (fun g' hg' => htabs g' (List.mem_cons_of_mem _ hg')) h.2]

/-- The first tab is the first of the rail. -/
theorem firstTab_eq_head (htabs : ∀ g ∈ groups, g.tabs ≠ []) :
    firstTab groups = (flatIds groups).head? := by
  cases groups with
  | nil => rfl
  | cons g groups =>
    obtain ⟨t, ts, hg⟩ := List.exists_cons_of_ne_nil (htabs g List.mem_cons_self)
    simp [firstTab, flatIds_cons, hg]

theorem filter_between (hnodup : (before ++ id :: after).Nodup) :
    (before ++ id :: after).filter (· ≠ id) = before ++ after := by
  have hmem := List.nodup_middle.mp hnodup
  rw [List.nodup_cons, List.mem_append, not_or] at hmem
  have hself : ∀ l : List Text, id ∉ l → l.filter (· ≠ id) = l := by
    intro l hl
    refine List.filter_eq_self.mpr fun x hx => ?_
    have hne : x ≠ id := fun heq => hl (heq ▸ hx)
    simpa using hne
  rw [List.filter_append, List.filter_cons_of_neg (by simp), hself _ hmem.1.1, hself _ hmem.1.2]

/-! The tab that becomes active. -/

/-- Of the tabs in the rail the next one survives, else the one before; but a next one whose id is
empty is passed over. -/
theorem nearestSurvivor_between (hrail : flatIds groups = before ++ id :: after)
    (hnodup : (before ++ id :: after).Nodup) :
    nearestSurvivor groups id =
      if after.head? = some [] then before.getLast? else after.head?.or before.getLast? := by
  have hmem := List.nodup_middle.mp hnodup
  rw [List.nodup_cons, List.mem_append, not_or] at hmem
  have hfirst : ∀ l : List Text, id ∉ l → l.find? (· ≠ id) = l.head? := by
    intro l hl
    cases l with
    | nil => rfl
    | cons x l =>
      have hx : x ≠ id := fun heq => hl (heq ▸ List.mem_cons_self)
      simp [hx]
  have hidx : (before ++ id :: after).idxOf? id = some before.length := by
    rw [List.idxOf?, List.findIdx?_append, List.findIdx?_eq_none_iff.mpr]
    · simp [List.findIdx?_cons]
    · intro x hx
      have hne : x ≠ id := fun heq => hmem.1.1 (heq ▸ hx)
      simpa using hne
  unfold nearestSurvivor
  rw [hrail]
  simp only [hidx]
  have hdrop : (before ++ id :: after).drop (before.length + 1) = after := by simp
  have htake : (before ++ id :: after).take before.length = before := by simp
  rw [hdrop, htake, hfirst after hmem.1.2, hfirst before.reverse (by simpa using hmem.1.1),
    List.head?_reverse]
  cases after with
  | nil => rfl
  | cons x after =>
    cases x with
    | nil => simp
    | cons c rest => simp

/-! Closing. -/

theorem removeTab_nil_iff : removeTab id groups = [] ↔ flatIds (removeTab id groups) = [] := by
  constructor
  · intro h
    rw [h]
    rfl
  · intro h
    cases hr : removeTab id groups with
    | nil => rfl
    | cons g rest =>
      have hg : g ∈ removeTab id groups := by rw [hr]; exact List.mem_cons_self
      rw [hr, flatIds_cons, List.append_eq_nil_iff, List.map_eq_nil_iff] at h
      exact absurd h.1 (removeTab_tabs g hg)

/-- What is chosen for the active tab passes through the repair as it is, if a tab is left. -/
theorem closeTab_eq (hleft : removeTab id snap.groups ≠ []) :
    closeTab id snap = ⟨removeTab id snap.groups,
      if snap.activeId = some id then
        (nearestSurvivor snap.groups id).or (firstTab (removeTab id snap.groups))
      else snap.activeId⟩ :=
  ensureWelcome_of_tabs removeTab_tabs hleft

theorem closeTab_unknown (hactive : ActiveOpen snap) (htabs : ∀ g ∈ snap.groups, g.tabs ≠ [])
    (h : isOpen snap.groups id = false) : closeTab id snap = snap := by
  have hclosed : id ∉ flatIds snap.groups := by
    rw [← isOpen_iff_mem_flatIds, h]
    exact Bool.false_ne_true
  have hsame := removeTab_of_closed htabs hclosed
  obtain ⟨active, hid, hopen⟩ := hactive
  have hleft : removeTab id snap.groups ≠ [] := by
    rw [hsame]
    obtain ⟨g, hg, -⟩ := isOpen_iff.mp hopen
    exact List.ne_nil_of_mem hg
  have hother : snap.activeId ≠ some id := by
    rw [hid]
    rintro ⟨⟩
    rw [hopen] at h
    cases h
  rw [closeTab_eq hleft, hsame, if_neg hother]

section Between
variable (hrail : flatIds snap.groups = before ++ id :: after) (hnodup : (flatIds snap.groups).Nodup)
include hrail hnodup

theorem flatIds_closed : flatIds (removeTab id snap.groups) = before ++ after := by
  rw [flatIds_removeTab, hrail, filter_between (hrail ▸ hnodup)]

theorem closeTab_last (hnil : before ++ after = []) : closeTab id snap = welcomeSnapshot := by
  have hempty : removeTab id snap.groups = [] :=
    removeTab_nil_iff.mpr ((flatIds_closed hrail hnodup).trans hnil)
  unfold closeTab
  dsimp only
  rw [hempty]
  exact ensureWelcome_empty rfl

theorem removeTab_ne_nil (hne : before ++ after ≠ []) : removeTab id snap.groups ≠ [] :=
  fun h => hne (flatIds_closed hrail hnodup ▸ removeTab_nil_iff.mp h)

/-- The tab that takes over: the next one, or else the one before, which also takes over from a
next one whose id is empty. -/
theorem closeTab_activeId (hne : before ++ after ≠ []) (hown : snap.activeId = some id) :
    (closeTab id snap).activeId =
      if after.head? = some [] ∧ before ≠ [] then before.getLast? else after.head?.or before.getLast? := by
  have hleft := removeTab_ne_nil hrail hnodup hne
  have hclose : (closeTab id snap).activeId =
      (nearestSurvivor snap.groups id).or (firstTab (removeTab id snap.groups)) := by
    rw [closeTab_eq hleft, if_pos hown]
  rw [hclose, nearestSurvivor_between hrail (hrail ▸ hnodup), firstTab_eq_head removeTab_tabs,
    flatIds_closed hrail hnodup]
  rcases List.eq_nil_or_concat before with rfl | ⟨init, last, rfl⟩
  · cases after with
    | nil => simp
    | cons x after => by_cases hx : x = [] <;> simp [hx]
  · cases after with
    | nil => simp
    | cons x after => by_cases hx : x = [] <;> simp [hx]

theorem closeTab_between (htabs : ∀ g ∈ snap.groups, g.tabs ≠ [])
    (hnamed : ¬(snap.activeId = some id ∧ NextUnnamed id snap.groups)) :
    ClosedBetween id before after snap (closeTab id snap) := by
  by_cases hnil : before ++ after = []
  · exact ⟨fun _ => closeTab_last hrail hnodup hnil, fun h => absurd hnil h, fun h => absurd hnil h,
      fun h => absurd hnil h⟩
  · have hclose : closeTab id snap = _ := closeTab_eq (removeTab_ne_nil hrail hnodup hnil)
    refine ⟨fun h => absurd h hnil, fun _ => ?_, fun _ => ?_, fun _ => ?_⟩
    · rw [hclose]
      exact flatIds_closed hrail hnodup
    · rw [hclose]
      exact removeTab_eq_remaining htabs
    · by_cases hown : snap.activeId = some id
      · rw [if_pos hown, closeTab_activeId hrail hnodup hnil hown, if_neg]
        rintro ⟨hhead, hbefore⟩
        obtain ⟨rest, rfl⟩ : ∃ rest, after = [] :: rest := by
          cases after with
          | nil => cases hhead
          | cons x rest => exact ⟨rest, by rw [Option.some.inj hhead]⟩
        exact hnamed ⟨hown, before, rest, hbefore, hrail⟩
      · rw [if_neg hown, hclose]
        exact if_neg hown

end Between

/-- An open tab stands somewhere in the rail. -/
theorem exists_between (h : id ∈ flatIds groups) :
    ∃ before after, flatIds groups = before ++ id :: after := List.append_of_mem h

/-- A group that is empty already does not go with another tab. -/
theorem mem_remaining_of_empty {g : TabGroup} (hg : g ∈ groups) (hempty : g.tabs = []) :
    g ∈ remaining id groups := by
  refine List.mem_filterMap.mpr ⟨g, hg, ?_⟩
  obtain ⟨gid, kind, tabs, onActivity, onDocs⟩ := g
  obtain rfl : tabs = [] := hempty
  rfl

theorem ClosesExactly.tabs_ne_nil (h : ClosesExactly id snap) (hnodup : (flatIds snap.groups).Nodup)
    (hother : ∃ other ∈ flatIds snap.groups, other ≠ id) : ∀ g ∈ snap.groups, g.tabs ≠ [] := by
  obtain ⟨other, hmem, hne⟩ := hother
  have hkept : other ∈ flatIds (removeTab id snap.groups) := by
    rw [flatIds_removeTab]
    exact List.mem_filter.mpr ⟨hmem, by simpa using hne⟩
  have hleft : removeTab id snap.groups ≠ [] := by
    intro hnil
    rw [hnil] at hkept
    cases hkept
  intro g hg hempty
  cases hopen : isOpen snap.groups id with
  | false =>
    have hsame : removeTab id snap.groups = snap.groups :=
      (congrArg TabsSnapshot.groups (closeTab_eq hleft)).symm.trans
        (congrArg TabsSnapshot.groups (h.unknown hopen))
    exact removeTab_tabs g (hsame.symm ▸ hg) hempty
  | true =>
    obtain ⟨before, after, hrail⟩ := exists_between (isOpen_iff_mem_flatIds.mp hopen)
    have hrest : before ++ after ≠ [] := by
      rw [flatIds_closed hrail hnodup] at hkept
      exact List.ne_nil_of_mem hkept
    have hgroups : removeTab id snap.groups = remaining id snap.groups :=
      (congrArg TabsSnapshot.groups (closeTab_eq hleft)).symm.trans
        ((h.between before after hrail).groups hrest)
    exact removeTab_tabs g (hgroups.symm ▸ mem_remaining_of_empty hg hempty) hempty

theorem ClosesExactly.named (h : ClosesExactly id snap) (hnodup : (flatIds snap.groups).Nodup) :
    ¬(snap.activeId = some id ∧ NextUnnamed id snap.groups) := by
  rintro ⟨hown, before, after, hbefore, hrail⟩
  have hrest : before ++ [] :: after ≠ [] := by simp
  have hactive := (h.between before ([] :: after) hrail).active hrest
  rw [closeTab_activeId hrail hnodup hrest hown, if_pos ⟨rfl, hbefore⟩, if_pos hown] at hactive
  -- then the empty id would be that of a tab before and of one behind
  have hlast : [] ∈ before := List.mem_of_getLast? hactive
  rw [hrail, List.nodup_append'] at hnodup
  exact hnodup.2.2 hlast (by simp)

/-- Closing is exact, for any id, on a snapshot with distinct ids and an open active tab, if and
only if no other tab is open, or every group has a tab and no tab with an empty id is the next
one to an active tab that has one before it too. -/
theorem closeTab_exact_iff (hnodup : (flatIds snap.groups).Nodup) (hactive : ActiveOpen snap) :
    ClosesExactly id snap ↔ (∀ other ∈ flatIds snap.groups, other = id) ∨
      ((∀ g ∈ snap.groups, g.tabs ≠ []) ∧ ¬(snap.activeId = some id ∧ NextUnnamed id snap.groups)) := by
  constructor
  · intro h
    by_cases hother : ∃ other ∈ flatIds snap.groups, other ≠ id
    · exact .inr ⟨h.tabs_ne_nil hnodup hother, h.named hnodup⟩
    · push Not at hother
      exact .inl hother
  · rintro (halone | ⟨htabs, hnamed⟩)
    · constructor
      · intro hclosed
        obtain ⟨active, -, hopen⟩ := hactive
        rw [halone active (isOpen_iff_mem_flatIds.mp hopen), hclosed] at hopen
        cases hopen
      · intro before after hrail
        have hmem := List.nodup_middle.mp (hrail ▸ hnodup)
        have hnil : before ++ after = [] := by
          refine List.eq_nil_iff_forall_not_mem.mpr fun other hother => ?_
          have hid : other = id := by
            refine halone other ?_
            rw [hrail]
            rcases List.mem_append.mp hother with hbefore | hafter
            · exact List.mem_append_left _ hbefore
            · exact List.mem_append_right _ (List.mem_cons_of_mem _ hafter)
          exact (List.nodup_cons.mp hmem).1 (hid ▸ hother)
        exact ⟨fun _ => closeTab_last hrail hnodup hnil, fun h => absurd hnil h, fun h => absurd hnil h,
          fun h => absurd hnil h⟩
    · exact ⟨closeTab_unknown hactive htabs,
        fun before after hrail => closeTab_between hrail hnodup htabs hnamed⟩

/-- Two results and the activity, the second result active. -/
def threeTabs : TabsSnapshot :=
  ⟨[{ resultsGroup ⟨['a'], resultsId, .pipelineList⟩ with
      tabs := [⟨['a'], resultsId, .pipelineList⟩, ⟨['b'], resultsId, .pipelineList⟩] },
    activityGroup], some ['b']⟩

theorem closeTab_exact_three : ClosesExactly ['b'] threeTabs := by
  refine (closeTab_exact_iff (by decide) ⟨['b'], rfl, by decide⟩).mpr (.inr ⟨by decide, ?_⟩)
  rintro ⟨-, before, after, -, hrail⟩
  have hmem : [] ∈ flatIds threeTabs.groups := by
    rw [hrail]
    simp
  exact absurd hmem (by decide)

/-- Three results, the last of them without a name, and the second one active. -/
def unnamedLast : TabsSnapshot :=
  run TabsSnapshot.step computeInitial [.addResult ⟨['p'], resultsId, .pipelineList⟩,
    .addResult ⟨['q'], resultsId, .pipelineList⟩, .addResult ⟨[], resultsId, .pipelineList⟩,
    .setActive ['q']]

/-- The next tab is passed over for the one before. -/
theorem closeTab_skips_unnamed :
    ¬ ∀ (id : Text) (snap : TabsSnapshot), (flatIds snap.groups).Nodup → ActiveOpen snap →
      ClosesExactly id snap := by
  intro hall
  have hexact := hall ['q'] unnamedLast (by decide) ⟨['q'], rfl, by decide⟩
  have hactive := (hexact.between [['p']] [[]] (by decide)).active (by decide)
  exact absurd hactive (by decide)

end Onisin.Ui
