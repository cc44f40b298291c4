import Onisin.Lib.Path

/-!
The sandbox of the file tools. A path is made absolute and `.` and `..` are taken out of it as
text; it may be used if the result lies inside a registered root, component by component.
-/

set_option autoImplicit false

namespace Onisin.Bench
open Lib

/-- `currentDir` is `none` where the process has no working directory. -/
def workingDir (currentDir : Option Text) : Text := currentDir.getD []

def normalizeStep (out : List Component) (comp : Component) : List Component :=
  match comp with
  | .curDir => out
  | .parentDir =>
    -- pops a real segment, but never climbs past the root
    match out.getLast? with
    | some (.normal _) => out.dropLast
    | _ => out ++ [.parentDir]
  | other => out ++ [other]

def normalizeAbs (currentDir : Option Text) (p : Text) : Text :=
  let abs := if isAbsolute p then p else pathPush (workingDir currentDir) p
  collectPath ((components abs).foldl normalizeStep [])

structure RootRegistry where
  roots : List Text
  deriving DecidableEq, Repr

def withoutNul (p : Text) : Text := p.filter (· ≠ Char.ofNat 0)

def RootRegistry.check (reg : RootRegistry) (currentDir : Option Text) (p label : Text) : Except Text Text :=
  let abs := normalizeAbs currentDir (withoutNul p)
  if reg.roots.any (pathStartsWith abs) then .ok abs
  else .error (label ++ " escapes allowed roots: ".toList ++ p)

def RootRegistry.resolve (reg : RootRegistry) (currentDir : Option Text) (path : Text) : Except Text Text :=
  reg.check currentDir path "path".toList

def RootRegistry.resolveCwd (reg : RootRegistry) (currentDir : Option Text) (cwd : Text) : Except Text Text :=
  reg.check currentDir cwd "cwd".toList

/-- `isDir` tells which paths are those of existing directories. -/
def buildRootRegistry (isDir : Text → Bool) (currentDir : Option Text) (paths : List Text) : RootRegistry :=
  ⟨(paths.map (normalizeAbs currentDir)).filter isDir⟩

/-! Normalising. -/

/-- The components that normalising has put down: every `..` that is kept stands right behind
the root. -/
def settled (k : Nat) (names : List Text) : List Component :=
  .rootDir :: (List.replicate k .parentDir ++ names.map .normal)

theorem normalizeStep_name (k : Nat) (names : List Text) (name : Text) :
    normalizeStep (settled k names) (.normal name) = settled k (names ++ [name]) := by
  simp [normalizeStep, settled]

theorem normalizeStep_parent_name (k : Nat) (names : List Text) (name : Text) :
    normalizeStep (settled k (names ++ [name])) .parentDir = settled k names := by
  have hsnoc : settled k (names ++ [name]) = settled k names ++ [.normal name] := by simp [settled]
  rw [hsnoc, normalizeStep, List.getLast?_concat]
  exact List.dropLast_concat

theorem normalizeStep_parent_top (k : Nat) : normalizeStep (settled k []) .parentDir = settled (k + 1) [] := by
  have hsnoc : settled (k + 1) [] = settled k [] ++ [.parentDir] := by
    simp [settled, List.replicate_succ']
  have hlast : ∀ name, (settled k []).getLast? ≠ some (.normal name) := by
    intro name h
    have hmem := List.mem_of_getLast? h
    simp [settled] at hmem
  rw [hsnoc, normalizeStep]
  generalize hl : (settled k []).getLast? = last at hlast
  cases last with
  | none => rfl
  | some c =>
    cases c with
    | normal name => exact absurd rfl (hlast name)
    | _ => rfl

/-- What is put down, and where a walk of the same components is unless it has been at the top. -/
def Walked (out : List Component) (place : Location) : Prop :=
  ∃ k names, out = settled k names ∧ (∀ s ∈ names, ProperName s) ∧ (k = 0 → place = names)

theorem Walked.step {out : List Component} {place : Location} (h : Walked out place) {c : Component}
    (hc : c.Inner) : Walked (normalizeStep out c) (place.step c) := by
  obtain ⟨k, names, rfl, hnames, hplace⟩ := h
  cases c with
  | rootDir => exact hc.elim
  | curDir => exact hc.elim
  | normal name =>
    refine ⟨k, names ++ [name], normalizeStep_name k names name, ?_, ?_⟩
    · intro s hs
      obtain hs | hs := List.mem_append.mp hs
      · exact hnames s hs
      · exact List.mem_singleton.mp hs ▸ hc
    · intro hk
      rw [hplace hk]
      rfl
  | parentDir =>
    cases names using List.reverseRecOn with
    | nil => exact ⟨k + 1, [], normalizeStep_parent_top k, hnames, fun hk => by omega⟩
    | append_singleton names name =>
      refine ⟨k, names, normalizeStep_parent_name k names name,
        fun s hs => hnames s (List.mem_append_left _ hs), ?_⟩
      intro hk
      rw [hplace hk]
      exact List.dropLast_concat

theorem Walked.run {out : List Component} {place : Location} (h : Walked out place) {cs : List Component}
    (hcs : ∀ c ∈ cs, c.Inner) : Walked (cs.foldl normalizeStep out) (cs.foldl Location.step place) := by
  induction cs generalizing out place with
  | nil => exact h
  | cons c cs ih =>
    exact ih (h.step (hcs c List.mem_cons_self)) fun c hc => hcs c (List.mem_cons_of_mem _ hc)

theorem walked_top : Walked (settled 0 []) [] := ⟨0, [], rfl, fun _ h => (by cases h), fun _ => rfl⟩

theorem settled_inner {k : Nat} {names : List Text} (h : ∀ s ∈ names, ProperName s) :
    ∀ c ∈ List.replicate k Component.parentDir ++ names.map .normal, c.Inner := by
  intro c hc
  obtain hc | hc := List.mem_append.mp hc
  · rw [List.eq_of_mem_replicate hc]
    trivial
  · obtain ⟨s, hs, rfl⟩ := List.mem_map.mp hc
    exact h s hs

theorem normalizeAbs_eq (currentDir : Option Text) (p : Text) :
    normalizeAbs currentDir p =
      collectPath ((components (pathPush (workingDir currentDir) p)).foldl normalizeStep []) := by
  rw [normalizeAbs]
  split
  · next habs => rw [push_absolute habs]
  · rfl

/-- A path that comes out absolute is settled, and if no `..` is kept it is the place that the
path leads to. -/
theorem normalizeAbs_absolute {currentDir : Option Text} {p : Text}
    (h : isAbsolute (pathPush (workingDir currentDir) p) = true) :
    ∃ k names, components (normalizeAbs currentDir p) = settled k names ∧
      normalizeAbs currentDir p = collectPath (settled k names) ∧ (∀ s ∈ names, ProperName s) ∧
      (k = 0 → resolvePath (workingDir currentDir) p = names) := by
  have hinner : ∀ c ∈ pathBody (pathPush (workingDir currentDir) p), c.Inner :=
    fun c hc => inner_of_mem_pathBody hc
  obtain ⟨k, names, hout, hnames, hplace⟩ := walked_top.run hinner
  have hpath : normalizeAbs currentDir p = collectPath (settled k names) := by
    rw [normalizeAbs_eq, components, if_pos h, ← hout]
    rfl
  refine ⟨k, names, ?_, hpath, hnames, ?_⟩
  · rw [hpath]
    exact components_collectPath (settled_inner hnames)
  · intro hk
    rw [resolvePath_eq]
    exact hplace hk

theorem normalizeStep_relative {out : List Component} (hout : ∀ c ∈ out, c.Inner) {c : Component}
    (hc : c = .curDir ∨ c.Inner) : ∀ d ∈ normalizeStep out c, d.Inner := by
  have hsnoc : ∀ e : Component, e.Inner → ∀ d ∈ out ++ [e], d.Inner := by
    intro e he d hd
    obtain hd | hd := List.mem_append.mp hd
    · exact hout d hd
    · exact List.mem_singleton.mp hd ▸ he
  cases c with
  | rootDir => exact (hc.resolve_left (by rintro ⟨⟩)).elim
  | curDir => exact hout
  | normal name => exact hsnoc _ (hc.resolve_left (by rintro ⟨⟩))
  | parentDir =>
    rw [normalizeStep]
    split
    · exact fun d hd => hout d (List.dropLast_subset _ hd)
    · exact hsnoc .parentDir trivial

/-- Without an absolute working directory a relative path stays relative. -/
theorem normalizeAbs_relative {currentDir : Option Text} {p : Text}
    (h : isAbsolute (pathPush (workingDir currentDir) p) = false) :
    isAbsolute (normalizeAbs currentDir p) = false := by
  rw [normalizeAbs_eq]
  have hcomps : ∀ c ∈ components (pathPush (workingDir currentDir) p), c = .curDir ∨ c.Inner := by
    intro c hc
    rw [components, if_neg (by simp [h])] at hc
    split at hc
    · exact (List.mem_cons.mp hc).imp_right inner_of_mem_pathBody
    · exact .inr (inner_of_mem_pathBody hc)
  refine isAbsolute_collectPath ?_
  generalize components (pathPush (workingDir currentDir) p) = cs at hcomps
  have hnil : ∀ c ∈ ([] : List Component), c.Inner := fun c hc => by cases hc
  generalize ([] : List Component) = out at hnil
  induction cs generalizing out with
  | nil => exact hnil
  | cons c cs ih =>
    exact ih (fun c hc => hcomps c (List.mem_cons_of_mem _ hc)) _
      (normalizeStep_relative hnil (hcomps c List.mem_cons_self))

/-- Normalising again changes nothing. -/
theorem normalizeAbs_idem {currentDir : Option Text} {p : Text}
    (h : isAbsolute (normalizeAbs currentDir p) = true) (currentDir' : Option Text) :
    normalizeAbs currentDir' (normalizeAbs currentDir p) = normalizeAbs currentDir p := by
  have habs : isAbsolute (pathPush (workingDir currentDir) p) = true := by
    by_contra hrel
    have := normalizeAbs_relative (by simpa using hrel)
    simp [this] at h
  obtain ⟨k, names, hcomps, hpath, -, -⟩ := normalizeAbs_absolute habs
  have htops : ∀ j m, (List.replicate j Component.parentDir).foldl normalizeStep (settled m []) =
      settled (m + j) [] := by
    intro j
    induction j with
    | zero => exact fun m => rfl
    | succ j ih =>
      intro m
      rw [List.replicate_succ, List.foldl_cons, normalizeStep_parent_top, ih, Nat.add_right_comm]
      rfl
  have hnames : ∀ rest done, (rest.map Component.normal).foldl normalizeStep (settled k done) =
      settled k (done ++ rest) := by
    intro rest
    induction rest with
    | nil => exact fun done => by rw [List.append_nil]; rfl
    | cons name rest ih =>
      intro done
      rw [List.map_cons, List.foldl_cons, normalizeStep_name, ih, List.append_assoc, List.singleton_append]
  rw [normalizeAbs_eq, push_absolute h, hcomps, hpath]
  have htop : normalizeStep [] .rootDir = settled 0 [] := rfl
  rw [settled, List.foldl_cons, htop, List.foldl_append, htops, Nat.zero_add, hnames, List.nil_append]
  rfl

/-! Containment. -/

/-- A directory to keep paths in. -/
structure ProperRoot (r : Text) : Prop where
  absolute : isAbsolute r = true
  normalised : ∀ currentDir, normalizeAbs currentDir r = r
  no_parent : .parentDir ∉ components r
  not_top : r ≠ ['/']

/-- The roots that are registered are normalised. -/
theorem buildRootRegistry_normalised {isDir : Text → Bool} {currentDir : Option Text} {paths : List Text}
    {r : Text} (hr : r ∈ (buildRootRegistry isDir currentDir paths).roots) (habs : isAbsolute r = true)
    (currentDir' : Option Text) : normalizeAbs currentDir' r = r := by
  obtain ⟨p, -, rfl⟩ := List.mem_map.mp (List.mem_filter.mp hr).1
  exact normalizeAbs_idem habs currentDir'

theorem ProperRoot.components_eq {r : Text} (h : ProperRoot r) :
    ∃ name rest, components r = .rootDir :: .normal name :: rest := by
  have hcomps : components r = .rootDir :: pathBody r := by rw [components, if_pos h.absolute]
  cases hbody : pathBody r with
  | nil =>
    have htop : normalizeAbs none r = ['/'] := by
      rw [normalizeAbs, if_pos h.absolute, hcomps, hbody]
      rfl
    exact absurd ((h.normalised none).symm.trans htop) h.not_top
  | cons c rest =>
    have hmem : c ∈ pathBody r := hbody ▸ List.mem_cons_self
    cases c with
    | rootDir => exact (inner_of_mem_pathBody hmem).elim
    | curDir => exact (inner_of_mem_pathBody hmem).elim
    | parentDir => exact absurd (hcomps ▸ List.mem_cons_of_mem _ hmem) h.no_parent
    | normal name => exact ⟨name, rest, by rw [hcomps, hbody]⟩

/-- What normalising gives inside a root: no `..` has been kept. -/
theorem inside_root {r : Text} (hr : ProperRoot r) {currentDir : Option Text} {p : Text}
    (h : pathStartsWith (normalizeAbs currentDir p) r = true) :
    let place := resolvePath (workingDir currentDir) p
    normalizeAbs currentDir p = Location.path place ∧ place ≠ [] ∧ ∀ s ∈ place, ProperName s := by
  obtain ⟨name, rest, hroot⟩ := hr.components_eq
  have hinside : components r <+: components (normalizeAbs currentDir p) := List.isPrefixOf_iff_prefix.mp h
  rw [hroot] at hinside
  have habs : isAbsolute (pathPush (workingDir currentDir) p) = true := by
    by_contra hrel
    exact rootDir_not_mem_of_relative (normalizeAbs_relative (by simpa using hrel))
      (hinside.subset List.mem_cons_self)
  obtain ⟨k, names, hcomps, hpath, hnames, hplace⟩ := normalizeAbs_absolute habs
  rw [hcomps, settled, List.cons_prefix_cons] at hinside
  obtain ⟨tail, htail⟩ := hinside.2
  cases k with
  | succ k =>
    rw [List.replicate_succ, List.cons_append] at htail
    cases htail
  | zero =>
    rw [hplace rfl, hpath]
    refine ⟨collectPath_names hnames, ?_, hnames⟩
    rintro rfl
    cases htail

/-- A path that passes the check has no `.` and no `..` in it, lies inside a root, and is the
place where the path without its NUL characters leads from the working directory. -/
theorem check_sound {reg : RootRegistry} (hreg : ∀ r ∈ reg.roots, ProperRoot r) {currentDir : Option Text}
    {p label abs : Text} (h : reg.check currentDir p label = .ok abs) :
    (∀ s ∈ segments abs, s ≠ ['.'] ∧ s ≠ ['.', '.']) ∧
      (∃ r ∈ reg.roots, components r <+: components abs) ∧
      abs = Location.path (resolvePath (workingDir currentDir) (withoutNul p)) := by
  rw [RootRegistry.check] at h
  split at h
  · next hany =>
    obtain rfl := Except.ok.inj h
    obtain ⟨r, hr, hstart⟩ := List.any_eq_true.mp hany
    obtain ⟨hpath, hne, hnames⟩ := inside_root (hreg r hr) hstart
    refine ⟨?_, ⟨r, hr, List.isPrefixOf_iff_prefix.mp hstart⟩, hpath⟩
    intro s hs
    rw [hpath, segments_path hne hnames] at hs
    obtain rfl | hs := List.mem_cons.mp hs
    · exact ⟨by decide, by decide⟩
    · exact ⟨(hnames s hs).ne_dot, (hnames s hs).ne_dots⟩
  · cases h

def repoRegistry : RootRegistry := ⟨["/srv/repo".toList]⟩

/-- Up out of the root and into it again, with a NUL at the end. -/
def roundabout : Text := "./../repo//a/../b/.".toList ++ [Char.ofNat 0]

theorem repoRegistry_proper : ∀ r ∈ repoRegistry.roots, ProperRoot r := by
  intro r hr
  obtain rfl := List.mem_singleton.mp hr
  exact ⟨rfl, fun _ => rfl, by decide, by decide⟩

theorem check_sound_roundabout :
    repoRegistry.check (some "/srv/repo".toList) roundabout "path".toList = .ok "/srv/repo/b".toList ∧
      (∀ s ∈ segments "/srv/repo/b".toList, s ≠ ['.'] ∧ s ≠ ['.', '.']) ∧
      (∃ r ∈ repoRegistry.roots, components r <+: components "/srv/repo/b".toList) ∧
      "/srv/repo/b".toList =
        Location.path (resolvePath (workingDir (some "/srv/repo".toList)) (withoutNul roundabout)) := by
  have hok : repoRegistry.check (some "/srv/repo".toList) roundabout "path".toList =
      .ok "/srv/repo/b".toList := by decide
  exact ⟨hok, check_sound repoRegistry_proper hok⟩

end Onisin.Bench
