import Onisin.Lib.DepthFirst
import Onisin.Lib.Incremental
import Onisin.Lib.Path
import Onisin.Lib.Text

/-!
The profiles of a process supervisor. A profile lists processes and includes other profiles, and
the includes may overlap or run in circles.
-/

set_option autoImplicit false

namespace Onisin.Run
open Lib

/-- A YAML document. The entries of a mapping stand in the order of the document. -/
inductive Value where
  | null
  | bool (b : Bool)
  | number (literal : Text)
  | string (s : Text)
  | sequence (items : List Value)
  | mapping (entries : List (Value × Value))
  | tagged (tag : Text) (value : Value)

abbrev Mapping := List (Value × Value)

def Value.untag : Value → Value
  | .tagged _ value => value.untag
  | v => v

def Value.asStr (v : Value) : Option Text :=
  match v.untag with
  | .string s => some s
  | _ => none

def Value.asBool (v : Value) : Option Bool :=
  match v.untag with
  | .bool b => some b
  | _ => none

def Value.asSequence (v : Value) : Option (List Value) :=
  match v.untag with
  | .sequence items => some items
  | _ => none

def Value.asMapping (v : Value) : Option Mapping :=
  match v.untag with
  | .mapping entries => some entries
  | _ => none

/-- A key under a tag is not found by its text. -/
def Value.isKey (key : Text) : Value → Bool
  | .string s => s == key
  | _ => false

def Mapping.get (m : Mapping) (key : Text) : Option Value := (m.find? fun e => e.1.isKey key).map (·.2)

def Value.get (v : Value) (key : Text) : Option Value := v.asMapping.bind fun m => m.get key

def okOr {α : Type} (message : Text) : Option α → Except Text α
  | some a => .ok a
  | none => .error message

/-! A process. -/

structure ProcSpec where
  name : Text
  argv : List Text
  cwd : Option Text
  env : List (Text × Text)
  autostart : Bool
  deriving DecidableEq, Repr

def procError (name : Text) (what : String) : Text :=
  "proc '".toList ++ name ++ "': ".toList ++ what.toList

def shellArgv (shell : Text) : List Text := ["/bin/sh".toList, "-c".toList, shell]

def resolveCwd (cwd root : Text) : Text := if isAbsolute cwd then cwd else pathPush root cwd

def parseArgv (name : Text) : Option Value → Option Value → Except Text (List Text)
  | some s, none => (okOr (procError name "shell must be a string") s.asStr).map shellArgv
  | none, some c => do
    let seq ← okOr (procError name "cmd must be an array") c.asSequence
    seq.mapM fun v => okOr (procError name "cmd entries must be strings") v.asStr
  | some _, some _ => .error (procError name "set exactly one of shell or cmd")
  | none, none => .error (procError name "missing shell or cmd")

/-- A variable whose value is no string is left out. -/
def parseEnvEntry (name : Text) (entry : Value × Value) : Except Text (Option (Text × Text)) := do
  let key ← okOr (procError name "env keys must be strings") entry.1.asStr
  return entry.2.asStr.map fun val => (key, val)

def parseEnv (name : Text) : Option Value → Except Text (List (Text × Text))
  | none => .ok []
  | some e => do
    let m ← okOr (procError name "env must be a mapping") e.asMapping
    let entries ← m.mapM (parseEnvEntry name)
    return entries.reduceOption

def parseProc (root : Text) (val : Value) : Except Text ProcSpec := do
  let map ← okOr "proc entry must be a mapping".toList val.asMapping
  let name ← okOr "proc entry missing `name`".toList ((map.get "name".toList).bind Value.asStr)
  let argv ← parseArgv name (map.get "shell".toList) (map.get "cmd".toList)
  if argv = [] then .error (procError name "empty command")
  else do
    let cwd := ((map.get "cwd".toList).bind Value.asStr).map fun c => resolveCwd c root
    let env ← parseEnv name (map.get "env".toList)
    let autostart := ((map.get "autostart".toList).bind Value.asBool).getD true
    return ⟨name, argv, cwd, env, autostart⟩

/-! A profile. -/

def profileError (profile : Text) (what : String) : Text :=
  "profile '".toList ++ profile ++ "'".toList ++ what.toList

def profileBody (profiles : Mapping) (profile : Text) : Except Text Mapping :=
  okOr (profileError profile " must be a mapping") ((profiles.get profile).bind Value.asMapping)

/-- The list under a key of a profile, empty if the profile does not have the key. -/
def entriesOf (profile : Text) (key : String) (body : Mapping) : Except Text (List Value) :=
  match body.get key.toList with
  | none => .ok []
  | some v => okOr (profileError profile (": " ++ key ++ " must be an array")) v.asSequence

def includeEntry (profile : Text) (inc : Value) : Except Text Text :=
  okOr (profileError profile ": include entries must be strings") inc.asStr

/-- The profiles entered so far, the last one first, and the processes collected. -/
structure Resolved where
  visited : List Text := []
  out : List ProcSpec := []

/-- Why there is no result: the recursion was cut off, or the configuration has an error. -/
inductive Stop where
  | fuel
  | error (message : Text)
  deriving DecidableEq, Repr

def resolve (profiles : Mapping) (root : Text) : Nat → Text → Resolved → Except Stop Resolved
  | 0, _, _ => .error .fuel
  | fuel + 1, profile, s =>
    if s.visited.contains profile then .ok s
    else do
      let body ← (profileBody profiles profile).mapError .error
      let includes ← (entriesOf profile "include" body).mapError .error
      let s ← includes.foldlM (fun s inc => do
        let child ← (includeEntry profile inc).mapError .error
        resolve profiles root fuel child s) { s with visited := profile :: s.visited }
      let procs ← (entriesOf profile "procs" body).mapError .error
      let specs ← (procs.mapM (parseProc root)).mapError .error
      return { s with out := s.out ++ specs }

def profilesOf (fromStr : Text → Except Text Value) (text : Text) : Except Text Mapping := do
  let doc ← fromStr text
  okOr "missing top-level `profiles` mapping".toList ((doc.get "profiles".toList).bind Value.asMapping)

def unknownProfile (profiles : Mapping) (profile : Text) : Text :=
  let names := (profiles.map (·.1)).filterMap Value.asStr
  "unknown profile '".toList ++ profile ++ "'; available: ".toList ++
    Text.join ", ".toList (names.insertionSort fun a b => Text.precedes a b = true)

/-- `serde_yaml::from_str` is `fromStr`. -/
def parse (fromStr : Text → Except Text Value) (text root profile : Text) :
    Except Stop (List ProcSpec) := do
  let profiles ← (profilesOf fromStr text).mapError .error
  if (profiles.get profile).isNone then .error (.error (unknownProfile profiles profile))
  else do
    let s ← resolve profiles root (profiles.length + 1) profile {}
    return keepFirst ProcSpec.name [] s.out

/-! What a profile refers to and what it runs. -/

def profileIncludes (profiles : Mapping) (profile : Text) : Except Text (List Text) := do
  let body ← profileBody profiles profile
  let includes ← entriesOf profile "include" body
  includes.mapM (includeEntry profile)

def profileProcs (profiles : Mapping) (root profile : Text) : Except Text (List ProcSpec) := do
  let body ← profileBody profiles profile
  let procs ← entriesOf profile "procs" body
  procs.mapM (parseProc root)

def includesOf (profiles : Mapping) (profile : Text) : List Text :=
  (profileIncludes profiles profile).toOption.getD []

def procsOf (profiles : Mapping) (root profile : Text) : List ProcSpec :=
  (profileProcs profiles root profile).toOption.getD []

def profileKeys (profiles : Mapping) : List Text :=
  profiles.filterMap fun e => match e.1 with
    | .string s => some s
    | _ => none

/-- A profile without an error in it. -/
structure WellFormed (profiles : Mapping) (root profile : Text) : Prop where
  includes : profileIncludes profiles profile = .ok (includesOf profiles profile)
  procs : profileProcs profiles root profile = .ok (procsOf profiles root profile)

variable {profiles : Mapping} {root profile key message : Text} {body : Mapping} {fuel : Nat}
  {s s' : Resolved} {work names order order' : List Text} {items : List Value}

theorem okOr_ok {α : Type} {o : Option α} {a : α} : okOr message o = .ok a ↔ o = some a := by
  cases o <;> simp [okOr]

theorem mapError_ne_fuel {α : Type} {r : Except Text α} : r.mapError Stop.error ≠ .error .fuel := by
  cases r <;> rintro ⟨⟩

theorem includesOf_eq (h : profileIncludes profiles profile = .ok names) :
    includesOf profiles profile = names := by
  rw [includesOf, h]
  rfl

theorem procsOf_eq {specs : List ProcSpec} (h : profileProcs profiles root profile = .ok specs) :
    procsOf profiles root profile = specs := by
  rw [procsOf, h]
  rfl

theorem mem_profileKeys_of_get {v : Value} (h : profiles.get key = some v) :
    key ∈ profileKeys profiles := by
  obtain ⟨e, he, -⟩ := Option.map_eq_some_iff.mp h
  have hkey := List.find?_some he
  refine List.mem_filterMap.mpr ⟨e, List.mem_of_find?_eq_some he, ?_⟩
  cases hv : e.1 with
  | string t =>
    rw [hv, Value.isKey, beq_iff_eq] at hkey
    exact congrArg some hkey
  | _ =>
    rw [hv] at hkey
    cases hkey

theorem mem_profileKeys_of_body (h : profileBody profiles profile = .ok body) :
    profile ∈ profileKeys profiles := by
  obtain ⟨v, hv, -⟩ := Option.bind_eq_some_iff.mp (okOr_ok.mp h)
  exact mem_profileKeys_of_get hv

/-! The recursion. -/

/-- What the recursion did between two states: it worked off a list of profiles and collected
the processes of those it finished. -/
structure Collects (profiles : Mapping) (root : Text) (s : Resolved) (work order : List Text)
    (s' : Resolved) : Prop where
  visits : Visits (profileKeys profiles) (includesOf profiles) s.visited work s'.visited order
  out : s'.out = s.out ++ order.flatMap (procsOf profiles root)
  wellFormed : ∀ q ∈ order, WellFormed profiles root q

theorem Collects.nil (s : Resolved) : Collects profiles root s [] [] s where
  visits := .done s.visited
  out := by simp
  wellFormed _ h := absurd h List.not_mem_nil

theorem Collects.cons {s₁ : Resolved} (hfirst : Collects profiles root s [profile] order s₁)
    (hrest : Collects profiles root s₁ work order' s') :
    Collects profiles root s (profile :: work) (order ++ order') s' where
  visits := hfirst.visits.cons hrest.visits
  out := by rw [hrest.out, hfirst.out, List.flatMap_append, List.append_assoc]
  wellFormed q hq := (List.mem_append.mp hq).elim (hfirst.wellFormed q) (hrest.wellFormed q)

theorem Collects.skip (h : profile ∈ s.visited) : Collects profiles root s [profile] [] s where
  visits := .skip h (.done s.visited)
  out := by simp
  wellFormed _ h := absurd h List.not_mem_nil

/-- A profile is entered, its includes are worked off, and its own processes come last. -/
theorem Collects.enter {s₁ : Resolved} (h : profile ∉ s.visited)
    (hnode : profile ∈ profileKeys profiles) (hwell : WellFormed profiles root profile)
    (hinner : Collects profiles root { s with visited := profile :: s.visited }
      (includesOf profiles profile) order s₁) :
    Collects profiles root s [profile] (order ++ [profile])
      { s₁ with out := s₁.out ++ procsOf profiles root profile } where
  visits := .enter h hnode hinner.visits (.done s₁.visited)
  out := by
    rw [hinner.out, List.flatMap_append, List.flatMap_singleton, List.append_assoc]
  wellFormed q hq := by
    obtain hq | hq := List.mem_append.mp hq
    · exact hinner.wellFormed q hq
    · exact List.mem_singleton.mp hq ▸ hwell

section Fold
variable {child : Text → Resolved → Except Stop Resolved}

/-- The loop over the entries of `include`. -/
theorem includes_collects {s s' : Resolved}
    (hchild : ∀ name s s', child name s = .ok s' →
      ∃ order, Collects profiles root s [name] order s')
    (h : items.foldlM (fun s inc => do
      let name ← (includeEntry profile inc).mapError Stop.error
      child name s) s = .ok s') :
    ∃ names order, items.mapM (includeEntry profile) = .ok names ∧
      Collects profiles root s names order s' := by
  induction items generalizing s with
  | nil =>
    cases h
    exact ⟨[], [], rfl, .nil _⟩
  | cons inc items ih =>
    rw [List.foldlM_cons] at h
    obtain ⟨s₁, hfirst, hrest⟩ := bind_eq_ok.mp h
    obtain ⟨name, hname, hfirst⟩ := bind_eq_ok.mp hfirst
    obtain ⟨order, hfirst⟩ := hchild name s s₁ hfirst
    obtain ⟨names, order', hnames, hrest⟩ := ih hrest
    refine ⟨name :: names, order ++ order', ?_, hfirst.cons hrest⟩
    rw [List.mapM_cons, (ok_of_mapError _).mp hname, hnames]
    rfl

theorem includes_ne_fuel {s : Resolved}
    (hchild : ∀ name s s', child name s = .ok s' →
      ∃ order, Collects profiles root s [name] order s')
    (hfuel : ∀ name s, unvisited (profileKeys profiles) s.visited < fuel → child name s ≠ .error .fuel)
    (h : unvisited (profileKeys profiles) s.visited < fuel) :
    items.foldlM (fun s inc => do
      let name ← (includeEntry profile inc).mapError Stop.error
      child name s) s ≠ .error .fuel := by
  induction items generalizing s with
  | nil =>
    rintro ⟨⟩
  | cons inc items ih =>
    rw [List.foldlM_cons]
    intro hstop
    obtain hfirst | ⟨s₁, hfirst, hrest⟩ := bind_eq_error.mp hstop
    · obtain hname | ⟨name, -, hfirst⟩ := bind_eq_error.mp hfirst
      · exact mapError_ne_fuel hname
      · exact hfuel name s h hfirst
    · obtain ⟨name, -, hfirst⟩ := bind_eq_ok.mp hfirst
      obtain ⟨order, hfirst⟩ := hchild name s s₁ hfirst
      exact ih (Nat.lt_of_le_of_lt (unvisited_mono hfirst.visits.subset) h) hrest

end Fold

theorem resolve_visited (h : profile ∈ s.visited) :
    resolve profiles root (fuel + 1) profile s = .ok s := by
  rw [resolve, if_pos (List.contains_iff_mem.mpr h)]

theorem resolve_collects (h : resolve profiles root fuel profile s = .ok s') :
    ∃ order, Collects profiles root s [profile] order s' := by
  induction fuel generalizing profile s s' with
  | zero => cases h
  | succ fuel ih =>
    by_cases hvisited : profile ∈ s.visited
    · rw [resolve_visited hvisited] at h
      cases h
      exact ⟨[], .skip hvisited⟩
    · rw [resolve, if_neg fun hc => hvisited (List.contains_iff_mem.mp hc)] at h
      obtain ⟨body, hbody, h⟩ := bind_eq_ok.mp h
      obtain ⟨includes, hincludes, h⟩ := bind_eq_ok.mp h
      obtain ⟨s₁, hfold, h⟩ := bind_eq_ok.mp h
      obtain ⟨procs, hprocs, h⟩ := bind_eq_ok.mp h
      obtain ⟨specs, hspecs, h⟩ := bind_eq_ok.mp h
      cases h
      rw [ok_of_mapError] at hbody hincludes hprocs hspecs
      obtain ⟨names, order, hnames, hinner⟩ := includes_collects (fun _ _ _ hc => ih hc) hfold
      have hin : profileIncludes profiles profile = .ok names :=
        bind_eq_ok.mpr ⟨body, hbody, bind_eq_ok.mpr ⟨includes, hincludes, hnames⟩⟩
      have hruns : profileProcs profiles root profile = .ok specs :=
        bind_eq_ok.mpr ⟨body, hbody, bind_eq_ok.mpr ⟨procs, hprocs, hspecs⟩⟩
      have hincl := includesOf_eq hin
      have hproc := procsOf_eq hruns
      refine ⟨order ++ [profile], ?_⟩
      rw [← hproc]
      refine .enter hvisited (mem_profileKeys_of_body hbody) ⟨hincl.symm ▸ hin, hproc.symm ▸ hruns⟩ ?_
      rwa [hincl]

/-- The recursion goes no deeper than there are profiles. -/
theorem resolve_ne_fuel (h : unvisited (profileKeys profiles) s.visited < fuel) :
    resolve profiles root fuel profile s ≠ .error .fuel := by
  induction fuel generalizing profile s with
  | zero => exact absurd h (Nat.not_lt_zero _)
  | succ fuel ih =>
    by_cases hvisited : profile ∈ s.visited
    · rw [resolve_visited hvisited]
      rintro ⟨⟩
    · rw [resolve, if_neg fun hc => hvisited (List.contains_iff_mem.mp hc)]
      intro hstop
      obtain hbody | ⟨body, hbody, hstop⟩ := bind_eq_error.mp hstop
      · exact mapError_ne_fuel hbody
      obtain hincludes | ⟨includes, -, hstop⟩ := bind_eq_error.mp hstop
      · exact mapError_ne_fuel hincludes
      obtain hfold | ⟨s₁, -, hstop⟩ := bind_eq_error.mp hstop
      · -- the includes are worked off with the profile entered
        have hless := unvisited_enter (mem_profileKeys_of_body ((ok_of_mapError _).mp hbody)) hvisited
        exact includes_ne_fuel (fun _ _ _ hc => resolve_collects hc) (fun _ _ hc => ih hc)
          (Nat.lt_of_lt_of_le hless (Nat.le_of_lt_succ h)) hfold
      obtain hprocs | ⟨procs, -, hstop⟩ := bind_eq_error.mp hstop
      · exact mapError_ne_fuel hprocs
      obtain hspecs | ⟨specs, -, hstop⟩ := bind_eq_error.mp hstop
      · exact mapError_ne_fuel hspecs
      · cases hstop

theorem length_profileKeys_le : (profileKeys profiles).length ≤ profiles.length :=
  List.length_filterMap_le _ _

/-! The result. -/

/-- The profiles that a profile stands for: the tree of its includes read from the leaves up, each
profile at its first place. -/
def includeOrder (profiles : Mapping) (profile : Text) : List Text :=
  keepFirst id [] (unfoldTree (includesOf profiles) profiles.length [] profile)

/-- One profile includes another. -/
def Includes (profiles : Mapping) (p q : Text) : Prop := q ∈ includesOf profiles p

/-- `order` lists the profiles that `profile` reaches, in the order of their processes. -/
structure Resolution (profiles : Mapping) (root profile : Text) (order : List Text) : Prop where
  order_eq : order = includeOrder profiles profile
  once : order.Nodup
  reached : ∀ q, q ∈ order ↔ Relation.ReflTransGen (Includes profiles) profile q
  wellFormed : ∀ q ∈ order, WellFormed profiles root q

theorem resolve_resolution (h : resolve profiles root fuel profile {} = .ok s) :
    Resolution profiles root profile (includeOrder profiles profile) ∧
      s.out = (includeOrder profiles profile).flatMap (procsOf profiles root) := by
  obtain ⟨order, hcollects⟩ := resolve_collects h
  have hvisits := hcollects.visits
  have horder : includeOrder profiles profile = order := hvisits.order_of_root length_profileKeys_le
  rw [horder]
  exact ⟨⟨horder.symm, hvisits.nodup, fun _ => hvisits.mem_iff, hcollects.wellFormed⟩, hcollects.out⟩

/-- Resolving a profile ends, whatever includes what, and yields the processes of all profiles
that it reaches, the included ones first, each profile once and each name at its first place. -/
theorem parse_resolves (fromStr : Text → Except Text Value) (text root profile : Text) :
    parse fromStr text root profile ≠ .error .fuel ∧
    ∀ specs, parse fromStr text root profile = .ok specs →
      (specs.map ProcSpec.name).Nodup ∧
      ∃ profiles, profilesOf fromStr text = .ok profiles ∧
        Resolution profiles root profile (includeOrder profiles profile) ∧
        specs = keepFirst ProcSpec.name []
          ((includeOrder profiles profile).flatMap (procsOf profiles root)) := by
  constructor
  · intro hstop
    obtain hprofiles | ⟨profiles, -, hstop⟩ := bind_eq_error.mp hstop
    · exact mapError_ne_fuel hprofiles
    split at hstop
    · cases hstop
    obtain hresolve | ⟨s, -, hstop⟩ := bind_eq_error.mp hstop
    · refine resolve_ne_fuel ?_ hresolve
      exact Nat.lt_succ_of_le (Nat.le_trans (List.length_filter_le _ _) length_profileKeys_le)
    · cases hstop
  · intro specs h
    obtain ⟨profiles, hprofiles, h⟩ := bind_eq_ok.mp h
    split at h
    · cases h
    obtain ⟨s, hresolve, h⟩ := bind_eq_ok.mp h
    obtain ⟨hresolution, hout⟩ := resolve_resolution hresolve
    cases h
    exact ⟨keepFirst_nodup, profiles, (ok_of_mapError _).mp hprofiles, hresolution, by rw [hout]⟩

/-! Two profiles that include each other, with a process name in common. -/

def circleProfile (inc : Char) (procs : List (Char × Char)) : Value :=
  .mapping [(.string "include".toList, .sequence [.string [inc]]),
    (.string "procs".toList, .sequence (procs.map fun p =>
      .mapping [(.string "name".toList, .string [p.1]), (.string "shell".toList, .string [p.2])]))]

def circle : Value :=
  .mapping [(.string "profiles".toList, .mapping [
    (.string ['a'], circleProfile 'b' [('x', '1'), ('y', '2')]),
    (.string ['b'], circleProfile 'a' [('y', '3')])])]

def circleSpecs : List ProcSpec :=
  [⟨['y'], shellArgv ['3'], none, [], true⟩, ⟨['x'], shellArgv ['1'], none, [], true⟩]

theorem parse_circle : parse (fun _ => .ok circle) [] ['/'] ['a'] = .ok circleSpecs := by
  rfl

theorem circle_resolves :
    parse (fun _ => .ok circle) [] ['/'] ['a'] = .ok circleSpecs ∧
      (circleSpecs.map ProcSpec.name).Nodup :=
  ⟨parse_circle, ((parse_resolves (fun _ => .ok circle) [] ['/'] ['a']).2 circleSpecs parse_circle).1⟩

end Onisin.Run
