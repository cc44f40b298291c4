import Onisin.Lib.Text
import Mathlib.Data.List.Induction

/-!
Unix paths as Rust's standard library reads them, and the lexical meaning of a path: the place
it names when each `..` goes one directory up and the directory above the top is the top.
-/

set_option autoImplicit false

namespace Onisin.Lib

inductive Component where
  | rootDir
  | curDir
  | parentDir
  | normal (name : Text)
  deriving DecidableEq, Repr

def Component.text : Component → Text
  | .rootDir => ['/']
  | .curDir => ['.']
  | .parentDir => ['.', '.']
  | .normal name => name

def segments (p : Text) : List Text := p.splitOn '/'

def isAbsolute (p : Text) : Bool := p.head? == some '/'

/-- What a segment contributes: repeated separators and `.` contribute nothing. -/
def segmentComponent (s : Text) : Option Component :=
  if s = [] ∨ s = ['.'] then none
  else if s = ['.', '.'] then some .parentDir
  else some (.normal s)

/-- The components of a path behind its root. -/
def pathBody (p : Text) : List Component := (segments p).filterMap segmentComponent

/-- A `.` is a component only in front of a relative path. -/
def components (p : Text) : List Component :=
  if isAbsolute p then .rootDir :: pathBody p
  else if (segments p).head? = some ['.'] then .curDir :: pathBody p
  else pathBody p

/-- `PathBuf::push`: an absolute path replaces what it is pushed on. -/
def pathPush (p s : Text) : Text :=
  if isAbsolute s then s
  else if p = [] ∨ p.getLast? = some '/' then p ++ s
  else p ++ '/' :: s

/-- A path collected from components. -/
def collectPath (cs : List Component) : Text := cs.foldl (fun p c => pathPush p c.text) []

def pathStartsWith (p base : Text) : Bool := (components base).isPrefixOf (components p)

/-! Segments. -/

theorem not_mem_of_mem_segments {p s : Text} (h : s ∈ segments p) : '/' ∉ s := by
  induction p generalizing s with
  | nil =>
    obtain rfl := List.mem_singleton.mp h
    exact List.not_mem_nil
  | cons c p ih =>
    rw [segments, List.splitOn_cons_eq_if_modifyHead] at h
    split at h
    · obtain rfl | h := List.mem_cons.mp h
      · exact List.not_mem_nil
      · exact ih h
    · next hc =>
      obtain ⟨first, rest, hsplit⟩ := List.exists_cons_of_ne_nil (List.splitOn_ne_nil '/' p)
      rw [hsplit] at h
      have hfirst : first ∈ segments p := by rw [segments, hsplit]; exact List.mem_cons_self
      have hrest : ∀ s ∈ rest, s ∈ segments p := fun s hs => by
        rw [segments, hsplit]; exact List.mem_cons_of_mem _ hs
      obtain rfl | h := List.mem_cons.mp h
      · rw [List.mem_cons, not_or]
        exact ⟨fun hslash => hc (beq_iff_eq.mpr hslash.symm), ih hfirst⟩
      · exact ih (hrest s h)

/-- A segment that is the name of something. -/
structure ProperName (s : Text) : Prop where
  ne_nil : s ≠ []
  ne_dot : s ≠ ['.']
  ne_dots : s ≠ ['.', '.']
  slash : '/' ∉ s

theorem ProperName.relative {s : Text} (h : ProperName s) : isAbsolute s = false := by
  cases s with
  | nil => rfl
  | cons c s =>
    have hc : c ≠ '/' := fun hc => h.slash (hc ▸ List.mem_cons_self)
    simp [isAbsolute, hc]

theorem segmentComponent_name {s : Text} (h : ProperName s) : segmentComponent s = some (.normal s) := by
  rw [segmentComponent, if_neg (not_or.mpr ⟨h.ne_nil, h.ne_dot⟩), if_neg h.ne_dots]

/-- A component behind the root. -/
def Component.Inner : Component → Prop
  | .parentDir => True
  | .normal name => ProperName name
  | _ => False

theorem inner_of_mem_pathBody {p : Text} {c : Component} (h : c ∈ pathBody p) : c.Inner := by
  obtain ⟨s, hs, hc⟩ := List.mem_filterMap.mp h
  rw [segmentComponent] at hc
  split at hc
  · cases hc
  · next hempty =>
    split at hc
    · cases hc
      exact trivial
    · next hdots =>
      cases hc
      obtain ⟨hnil, hdot⟩ := not_or.mp hempty
      exact ⟨hnil, hdot, hdots, not_mem_of_mem_segments hs⟩

theorem Component.Inner.relative {c : Component} (h : c.Inner) : isAbsolute c.text = false := by
  cases c with
  | rootDir => exact h.elim
  | curDir => exact h.elim
  | parentDir => rfl
  | normal name => exact ProperName.relative h

theorem Component.Inner.pathBody {c : Component} (h : c.Inner) : pathBody c.text = [c] := by
  cases c with
  | rootDir => exact h.elim
  | curDir => exact h.elim
  | parentDir => rfl
  | normal name =>
    have hname : ProperName name := h
    rw [Lib.pathBody, segments, Component.text, List.splitOn_eq_singleton hname.slash,
      List.filterMap_cons_some (segmentComponent_name hname), List.filterMap_nil]

/-! Pushing. -/

theorem pathBody_nil : pathBody [] = [] := rfl

theorem pathBody_slash (p s : Text) : pathBody (p ++ '/' :: s) = pathBody p ++ pathBody s := by
  rw [pathBody, segments, List.splitOn_append_cons_self, List.filterMap_append]
  rfl

theorem pathBody_push (p : Text) {s : Text} (hs : isAbsolute s = false) :
    pathBody (pathPush p s) = pathBody p ++ pathBody s := by
  rw [pathPush, if_neg (by simp [hs])]
  split
  · next hend =>
    obtain rfl | hend := hend
    · rfl
    · obtain ⟨q, rfl⟩ := List.getLast?_eq_some_iff.mp hend
      rw [List.append_assoc, List.singleton_append, pathBody_slash, pathBody_slash, pathBody_nil,
        List.append_nil]
  · exact pathBody_slash p s

theorem isAbsolute_push (p : Text) {s : Text} (hs : isAbsolute s = false) :
    isAbsolute (pathPush p s) = isAbsolute p := by
  rw [pathPush, if_neg (by simp [hs])]
  cases p with
  | nil => exact hs
  | cons c p => split <;> rfl

theorem push_absolute {s : Text} (hs : isAbsolute s = true) (p : Text) : pathPush p s = s := if_pos hs

/-! Collecting. -/

theorem collectPath_snoc (cs : List Component) (c : Component) :
    collectPath (cs ++ [c]) = pathPush (collectPath cs) c.text := by
  rw [collectPath, List.foldl_append]
  rfl

theorem isAbsolute_collectPath {cs : List Component} (h : ∀ c ∈ cs, c.Inner) :
    isAbsolute (collectPath cs) = false := by
  induction cs using List.reverseRecOn with
  | nil => rfl
  | append_singleton cs c ih =>
    have hc := h c (List.mem_append_right cs List.mem_cons_self)
    rw [collectPath_snoc, isAbsolute_push _ hc.relative]
    exact ih fun c hc => h c (List.mem_append_left _ hc)

/-- Collecting the components of an absolute path loses nothing. -/
theorem components_collectPath {cs : List Component} (h : ∀ c ∈ cs, c.Inner) :
    components (collectPath (.rootDir :: cs)) = .rootDir :: cs := by
  suffices hboth : isAbsolute (collectPath (.rootDir :: cs)) = true ∧
      pathBody (collectPath (.rootDir :: cs)) = cs by
    rw [components, if_pos hboth.1, hboth.2]
  induction cs using List.reverseRecOn with
  | nil => exact ⟨rfl, rfl⟩
  | append_singleton cs c ih =>
    have hc := h c (List.mem_append_right cs List.mem_cons_self)
    obtain ⟨habs, hbody⟩ := ih fun c hc => h c (List.mem_append_left _ hc)
    rw [← List.cons_append, collectPath_snoc]
    exact ⟨(isAbsolute_push _ hc.relative).trans habs,
      (pathBody_push _ hc.relative).trans (by rw [hbody, hc.pathBody])⟩

theorem rootDir_not_mem_of_relative {p : Text} (hp : isAbsolute p = false) : .rootDir ∉ components p := by
  have hbody : Component.rootDir ∉ pathBody p := fun h => inner_of_mem_pathBody h
  rw [components, if_neg (by simp [hp])]
  split
  · rw [List.mem_cons, not_or]
    refine ⟨?_, hbody⟩
    rintro ⟨⟩
  · exact hbody

/-! The place that a path names. -/

/-- The names of the directories from the top down. -/
abbrev Location := List Text

def Location.move (place : Location) (s : Text) : Location :=
  if s = [] ∨ s = ['.'] then place
  else if s = ['.', '.'] then place.dropLast
  else place ++ [s]

def Location.follow (place : Location) (p : Text) : Location := (segments p).foldl Location.move place

/-- Where `p` leads from the working directory `cwd`. -/
def resolvePath (cwd p : Text) : Location :=
  if isAbsolute p then Location.follow [] p else Location.follow (Location.follow [] cwd) p

/-- The absolute path of a place, without anything superfluous. -/
def Location.path (place : Location) : Text :=
  if place = [] then ['/'] else place.flatMap fun name => '/' :: name

theorem Location.path_append_name (place : Location) {name : Text} (hat : ∀ s ∈ place, ProperName s)
    (hname : ProperName name) : Location.path (place ++ [name]) = pathPush (Location.path place) name := by
  have hpath : Location.path (place ++ [name]) = (place.flatMap fun s => '/' :: s) ++ '/' :: name := by
    rw [Location.path, if_neg (List.append_ne_nil_of_right_ne_nil _ (List.cons_ne_nil _ _)),
      List.flatMap_append, List.flatMap_singleton]
  rw [hpath, pathPush, if_neg (by simp [hname.relative])]
  cases place using List.reverseRecOn with
  | nil => rfl
  | append_singleton place last =>
    -- the last name does not end in a separator, so one is put behind it
    have hlast := hat last (List.mem_append_right _ List.mem_cons_self)
    have hne : place ++ [last] ≠ [] := List.append_ne_nil_of_right_ne_nil _ (List.cons_ne_nil _ _)
    obtain ⟨c, hc⟩ := Option.ne_none_iff_exists'.mp fun h => hlast.ne_nil (List.getLast?_eq_none_iff.mp h)
    have hend : ((place ++ [last]).flatMap fun s => '/' :: s).getLast? = some c := by
      rw [List.flatMap_append, List.flatMap_singleton, List.getLast?_append_cons,
        List.getLast?_cons, hc]
      rfl
    have hslash : c ≠ '/' := fun h => hlast.slash (h ▸ List.mem_of_getLast? hc)
    rw [Location.path, if_neg hne, if_neg]
    rw [hend]
    rintro (h | h)
    · rw [h] at hend
      cases hend
    · exact hslash (Option.some.inj h)

/-- The path of a place is collected from its names. -/
theorem collectPath_names {names : List Text} (h : ∀ s ∈ names, ProperName s) :
    collectPath (.rootDir :: names.map .normal) = Location.path names := by
  induction names using List.reverseRecOn with
  | nil => rfl
  | append_singleton names name ih =>
    have hinit : ∀ s ∈ names, ProperName s := fun s hs => h s (List.mem_append_left _ hs)
    rw [List.map_append, List.map_singleton, ← List.cons_append, collectPath_snoc, ih hinit,
      Location.path_append_name names hinit (h name (List.mem_append_right _ List.mem_cons_self))]
    rfl

theorem segments_path {names : List Text} (hne : names ≠ []) (h : ∀ s ∈ names, ProperName s) :
    segments (Location.path names) = [] :: names := by
  have hslash : ∀ names : List Text, (∀ s ∈ names, ProperName s) →
      segments (names.flatMap fun s => '/' :: s) = [] :: names := by
    intro names h
    induction names using List.reverseRecOn with
    | nil => rfl
    | append_singleton names name ih =>
      rw [List.flatMap_append, List.flatMap_singleton, segments, List.splitOn_append_cons_self,
        List.splitOn_eq_singleton (h name (List.mem_append_right _ List.mem_cons_self)).slash]
      exact congrArg (· ++ [name]) (ih fun s hs => h s (List.mem_append_left _ hs))
  rw [Location.path, if_neg hne]
  exact hslash names h

/-- One step on a component moves as the segment it comes from. -/
def Location.step (place : Location) : Component → Location
  | .parentDir => place.dropLast
  | .normal name => place ++ [name]
  | _ => place

theorem follow_eq (place : Location) (p : Text) : Location.follow place p = (pathBody p).foldl Location.step place := by
  rw [Location.follow, pathBody, List.foldl_filterMap]
  refine congrArg (fun f => List.foldl f place (segments p)) (funext fun place => funext fun s => ?_)
  rw [Location.move, segmentComponent]
  split
  · rfl
  · split <;> rfl

/-- A path leads from the working directory where the joined path leads from the top. -/
theorem resolvePath_eq (cwd p : Text) :
    resolvePath cwd p = (pathBody (pathPush cwd p)).foldl Location.step [] := by
  rw [resolvePath]
  split
  · next habs => rw [push_absolute habs, follow_eq]
  · next hrel => rw [follow_eq, follow_eq, pathBody_push _ (by simpa using hrel), List.foldl_append]

end Onisin.Lib
