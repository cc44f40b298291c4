import Onisin.Lib.Runs
import Onisin.Run.Config

/-!
The supervisor: the processes it starts, the keys that start and stop them, and the loop that
reaps them and redraws the screen. The children end when they like, their output arrives
between any two steps of the loop, and every call to the system may fail.
-/

set_option autoImplicit false

namespace Onisin.Run
open Lib

/-! The system. -/

/-- The identity of a child. The system may use its number again once the child is reaped. -/
abbrev Pid := Nat

structure Command where
  program : Text
  args : List Text
  cwd : Text
  /-- In the order they are set, so the last value of a variable is the one it has. -/
  env : List (Text × Text)
  deriving DecidableEq, Repr

inductive Call where
  | spawn (pid : Pid) (cmd : Command)
  | term (pid : Pid)
  | kill (pid : Pid)
  | reap (pid : Pid)
  | pkill (exe : Text)
  deriving DecidableEq, Repr

/-- The children nobody has reaped yet, and the calls so far. A child is lost when the
supervisor lets go of its handle without reaping it. -/
structure System where
  next : Pid := 0
  alive : List Pid := []
  ended : List (Pid × Nat) := []
  lost : List Pid := []
  calls : List Call := []
  deriving DecidableEq, Repr

def System.call (c : Call) (sys : System) : System := { sys with calls := sys.calls ++ [c] }

def System.spawn (cmd : Command) (sys : System) : System :=
  { sys with
    next := sys.next + 1, alive := sys.alive ++ [sys.next]
    calls := sys.calls ++ [.spawn sys.next cmd] }

def System.exit (pid : Pid) (code : Nat) (sys : System) : System :=
  if sys.alive.contains pid then
    { sys with alive := sys.alive.filter (· ≠ pid), ended := sys.ended ++ [(pid, code)] }
  else sys

def System.reap (pid : Pid) (sys : System) : System :=
  { sys with
    alive := sys.alive.filter (· ≠ pid), ended := sys.ended.filter (·.1 ≠ pid)
    calls := sys.calls ++ [.reap pid] }

def System.drop (child : Option Pid) (sys : System) : System :=
  { sys with lost := sys.lost ++ child.toList }

/-- The child is there for the system: it lives, or its exit code was not collected. -/
def System.Present (sys : System) (pid : Pid) : Prop := pid ∈ sys.alive ∨ pid ∈ sys.ended.map (·.1)

/-! A process. -/

inductive Status where
  | running
  | exited (code : Int)
  | stopped
  | failed (reason : Text)
  deriving DecidableEq, Repr

inductive Feed where
  | bytes (chunk : List UInt8)
  | size (rows cols : Nat)
  deriving DecidableEq, Repr

/-- A terminal screen is what it was fed since it was new. -/
structure Parser where
  rows : Nat
  cols : Nat
  feeds : List Feed := []
  deriving DecidableEq, Repr

/-- `runs` counts the parsers, and `unmarked` the chunks a reader thread gave to a parser
without having set `dirty` yet. -/
structure Proc where
  name : Text
  status : Status := .stopped
  spec : ProcSpec
  defaultCwd : Text
  parser : Parser
  runs : Nat := 0
  dirty : Bool := true
  unmarked : Nat := 0
  master : Bool := false
  child : Option Pid := none
  appExe : Option Text := none
  size : Nat × Nat
  deriving DecidableEq, Repr

def Proc.isRunning (p : Proc) : Bool := p.status == .running

/-- The file system at a macOS application bundle. -/
structure Bundle where
  plist : Option Text
  isFile : Text → Bool
  entries : Option (List Text)

inductive Outcome where
  | ptyFailed (reason : Text)
  | spawnFailed (reason : Text)
  | readerFailed (reason : Text)
  | started
  deriving DecidableEq, Repr

/-- What an attempt to start a process meets. -/
structure Launch where
  bundle : Option Bundle := none
  vars : List (Text × Text) := []
  outcome : Outcome := .started

def afterFirst (pat t : Text) : Option Text :=
  (Text.beforeFirst pat t).map fun before => t.drop (before.length + pat.length)

def parseCfbundleExecutable (plist : Text) : Option Text := do
  let key ← Text.beforeFirst "CFBundleExecutable".toList plist
  let opened ← afterFirst "<string>".toList (plist.drop key.length)
  let exe ← Text.beforeFirst "</string>".toList opened
  return exe.trim

def appExecutable (app : Text) (b : Bundle) : Option Text :=
  let macos := pathPush app "Contents/MacOS".toList
  let named := ((b.plist.bind parseCfbundleExecutable).map (pathPush macos)).filter b.isFile
  named.or (b.entries.bind fun paths => paths.find? b.isFile)

def Proc.cwd (p : Proc) : Text := p.spec.cwd.getD p.defaultCwd

/-- `parseProc` refuses an empty command, so there is a first word. -/
def Proc.target (p : Proc) : Text :=
  let program := p.spec.argv.headD []
  if isAbsolute program then program else pathPush p.cwd program

def Proc.command (l : Launch) (p : Proc) : Command :=
  let args := p.spec.argv.drop 1
  let (program, args) :=
    if l.bundle.isSome then
      ("open".toList, ["-W".toList, "-n".toList, p.target] ++
        if args = [] then [] else "--args".toList :: args)
    else (p.target, args)
  { program, args, cwd := p.cwd, env := l.vars ++ p.spec.env }

/-- The last component of a path, unless it is a root or goes up. -/
def fileName (path : Text) : Option Text :=
  match (components path).getLast? with
  | some (.normal name) => some name
  | _ => none

def banner (name : Text) : Text :=
  "\x1b[2m[oosrun] launched via LaunchServices (open) — the real user launch.\r\n".toList ++
    "GUI output goes to the system log, not here. Tail it with:\r\n".toList ++
    "  log stream --predicate 'process == \"".toList ++ name ++ "\"'\x1b[0m\r\n".toList

def Proc.freshParser (l : Launch) (p : Proc) : Parser :=
  { rows := p.size.1, cols := p.size.2
    feeds :=
      if l.bundle.isSome then [.bytes (utf8 (banner ((p.appExe.bind fileName).getD p.name)))] else [] }

/-- A child whose reader cannot be made has been spawned all the same. -/
def Proc.tryStart (l : Launch) (p : Proc) (sys : System) : Except Text Unit × Proc × System :=
  let p' := { p with appExe := l.bundle.bind (appExecutable p.target) }
  match l.outcome with
  | .ptyFailed reason => (.error reason, p, sys)
  | .spawnFailed reason => (.error ("spawn failed: ".toList ++ reason), p', sys)
  | .readerFailed reason => (.error reason, p', (sys.spawn (p.command l)).drop (some sys.next))
  | .started =>
    (.ok (),
      { p' with
        parser := p'.freshParser l, runs := p.runs + 1, dirty := true
        master := true, child := some sys.next },
      (sys.spawn (p.command l)).drop p.child)

def Proc.start (l : Launch) (p : Proc) (sys : System) : Proc × System :=
  match p.tryStart l sys with
  | (.ok (), p, sys) => ({ p with status := .running, dirty := true }, sys)
  | (.error reason, p, sys) => ({ p with status := .failed reason, dirty := true }, sys)

def Proc.new (root : Text) (size : Nat × Nat) (spec : ProcSpec) (l : Launch) (sys : System) :
    Proc × System :=
  let p : Proc :=
    { name := spec.name, spec, defaultCwd := root, size
      parser := { rows := size.1, cols := size.2 } }
  if spec.autostart then p.start l sys else (p, sys)

/-- How often the end of a child is looked for before it is killed. -/
def graceWaits : Nat := 50

/-- `waits n` is whether the child is found to have ended at the `n`-th look. -/
def reapChild (waits : Nat → Bool) (pid : Pid) (sys : System) : System :=
  if (List.range graceWaits).any waits then sys.reap pid
  else (sys.call (.kill pid)).reap pid

def Proc.terminate (waits : Pid → Nat → Bool) (p : Proc) (sys : System) : Proc × System :=
  let sys := match p.appExe with
    | some exe => sys.call (.pkill exe)
    | none => sys
  match p.child with
  | some pid =>
    ({ p with child := none, master := false }, reapChild (waits pid) pid (sys.call (.term pid)))
  | none => ({ p with master := false }, sys)

def Proc.stop (waits : Pid → Nat → Bool) (p : Proc) (sys : System) : Proc × System :=
  let (p, sys) := p.terminate waits sys
  ({ p with status := .stopped, dirty := true }, sys)

def Proc.restart (waits : Pid → Nat → Bool) (l : Launch) (p : Proc) (sys : System) : Proc × System :=
  let (p, sys) := p.terminate waits sys
  p.start l sys

def Parser.feed (f : Feed) (t : Parser) : Parser := { t with feeds := t.feeds ++ [f] }

def Proc.resize (rows cols : Nat) (p : Proc) : Proc :=
  if (rows, cols) = p.size then p
  else { p with size := (rows, cols), parser := p.parser.feed (.size rows cols), dirty := true }

/-- A `u32` as an `i32`. -/
def asI32 (code : Nat) : Int := if code < 2147483648 then code else (code : Int) - 4294967296

/-- `answers` says for which children the question after their end can be answered. -/
def Proc.poll (answers : Pid → Bool) (p : Proc) (sys : System) : Proc × System :=
  match p.child.bind fun pid => (sys.ended.find? fun e => e.1 == pid && answers pid) with
  | some (pid, code) =>
    ({ p with
        child := none, master := false
        status := if p.isRunning then .exited (asI32 code) else p.status
        dirty := true },
      sys.reap pid)
  | none => (p, sys)

/-! The application. -/

inductive KeyCode where
  | char (c : Char)
  | esc
  | down
  | up
  | tab
  | backTab
  | other
  deriving DecidableEq, Repr

structure KeyEvent where
  code : KeyCode
  release : Bool := false
  control : Bool := false
  deriving DecidableEq, Repr

structure App where
  procs : List Proc
  selected : Nat := 0
  sidebarWidth : Nat
  shouldQuit : Bool := false
  deriving DecidableEq, Repr

/-- The operation on every process in turn. -/
def onEach (f : Proc → System → Proc × System) : List Proc → System → List Proc × System
  | [], sys => ([], sys)
  | p :: ps, sys =>
    let (p, sys) := f p sys
    let (ps, sys) := onEach f ps sys
    (p :: ps, sys)

/-- The operation on the process at an index, if there is one. -/
def onAt (f : Proc → System → Proc × System) : Nat → List Proc → System → List Proc × System
  | _, [], sys => ([], sys)
  | 0, p :: ps, sys =>
    let (p, sys) := f p sys
    (p :: ps, sys)
  | i + 1, p :: ps, sys =>
    let (ps, sys) := onAt f i ps sys
    (p :: ps, sys)

def newProcs (root : Text) (size : Nat × Nat) : List (ProcSpec × Launch) → System → List Proc × System
  | [], sys => ([], sys)
  | (spec, l) :: specs, sys =>
    let (p, sys) := Proc.new root size spec l sys
    let (ps, sys) := newProcs root size specs sys
    (p :: ps, sys)

/-- The width is a `u16`. -/
def sidebarWidthOf (names : List Text) : Nat :=
  let widest := ((names.map byteLen).max?.getD 8) % 65536
  min (max ((widest + 14) % 65536) 18) 32

def App.new (specs : List (ProcSpec × Launch)) (root : Text) (sys : System) : App × System :=
  let (procs, sys) := newProcs root (24, 80) specs sys
  ({ procs, sidebarWidth := sidebarWidthOf (specs.map (·.1.name)) }, sys)

/-- What a key press meets. -/
structure Answers where
  waits : Pid → Nat → Bool := fun _ _ => true
  launch : Launch := {}

def App.selectNext (a : App) : App :=
  if a.procs = [] then a else { a with selected := (a.selected + 1) % a.procs.length }

def App.selectPrev (a : App) : App :=
  if a.procs = [] then a
  else { a with selected := (a.selected + a.procs.length - 1) % a.procs.length }

def App.onSelected (f : Proc → System → Proc × System) (a : App) (sys : System) : App × System :=
  let (procs, sys) := onAt f a.selected a.procs sys
  ({ a with procs }, sys)

def App.onKey (k : KeyEvent) (ans : Answers) (a : App) (sys : System) : App × System :=
  if k.release then (a, sys)
  else match k.code with
    | .esc => ({ a with shouldQuit := true }, sys)
    | .down | .tab => (a.selectNext, sys)
    | .up | .backTab => (a.selectPrev, sys)
    | .other => (a, sys)
    | .char c =>
      if c = 'q' ∨ (c = 'c' ∧ k.control = true) then ({ a with shouldQuit := true }, sys)
      else if c = 'j' then (a.selectNext, sys)
      else if c = 'k' then (a.selectPrev, sys)
      else if '1' ≤ c ∧ c ≤ '9' then
        let i := c.toNat - '1'.toNat
        (if i < a.procs.length then { a with selected := i } else a, sys)
      else if c = 'r' then a.onSelected (Proc.restart ans.waits ans.launch) sys
      else if c = 's' then a.onSelected (Proc.stop ans.waits) sys
      else if c = 'a' then
        a.onSelected (fun p sys => if p.isRunning then (p, sys) else p.start ans.launch sys) sys
      else (a, sys)

def App.shutdown (waits : Pid → Nat → Bool) (a : App) (sys : System) : App × System :=
  let (procs, sys) := onEach (Proc.stop waits) a.procs sys
  ({ a with procs }, sys)

def paneDims (area : Nat × Nat) (sidebarWidth : Nat) : Nat × Nat :=
  (max (area.2 - 3) 1, max (area.1 - (sidebarWidth + 2)) 1)

/-- `any` with `take_dirty` looks no further than the first process whose flag is set. -/
def takeDirty : List Proc → Bool × List Proc
  | [] => (false, [])
  | p :: ps =>
    if p.dirty then (true, { p with dirty := false } :: ps)
    else
      let (found, ps) := takeDirty ps
      (found, p :: ps)

/-! The loop. -/

/-- What is drawn: the side bar and the screen of the selected process. -/
structure View where
  sidebar : List (Text × Status)
  selected : Nat
  pane : Option Parser
  deriving DecidableEq, Repr

def App.view (a : App) : View :=
  { sidebar := a.procs.map fun p => (p.name, p.status)
    selected := a.selected
    pane := (a.procs[a.selected]?).map (·.parser) }

/-- Where the loop stands. It fails when the terminal does. -/
inductive Phase where
  | sizing
  | polling
  | checking
  | drawing
  | waiting
  | quitting
  | gone
  | failed
  deriving DecidableEq, Repr

structure Session where
  app : App
  sys : System
  phase : Phase := .sizing
  redraw : Bool := true
  drawn : Option View := none
  deriving DecidableEq, Repr

def Session.start (specs : List (ProcSpec × Launch)) (root : Text) : Session :=
  let (app, sys) := App.new specs root {}
  { app, sys }

inductive Input where
  | timeout
  | key (k : KeyEvent) (ans : Answers)
  | resize
  | other

/-- The steps of the loop, each with what it gets from outside, and what happens between them. -/
inductive Event where
  | size (area : Option (Nat × Nat))
  | poll (answers : Pid → Bool)
  | check
  | draw (ok : Bool)
  | input (i : Option Input)
  | quit (waits : Pid → Nat → Bool)
  | exits (pid : Pid) (code : Nat)
  | reads (i runs : Nat) (chunk : List UInt8)
  | marks (i : Nat)

/-- A reader thread of an earlier run feeds a parser nobody looks at. -/
def Proc.reads (runs : Nat) (chunk : List UInt8) (p : Proc) : Proc :=
  { p with
    parser := if p.runs = runs then p.parser.feed (.bytes chunk) else p.parser
    unmarked := p.unmarked + 1 }

def Proc.marks (p : Proc) : Proc :=
  if p.unmarked = 0 then p else { p with unmarked := p.unmarked - 1, dirty := true }

def Session.onInput (i : Input) (s : Session) : Session :=
  match i with
  | .timeout | .other => s
  | .resize => { s with redraw := true }
  | .key k ans =>
    let (app, sys) := s.app.onKey k ans s.sys
    { s with app, sys, redraw := true }

def step (s : Session) (e : Event) : Session :=
  match s.phase, e with
  | .sizing, .size none | .drawing, .draw false | .waiting, .input none => { s with phase := .failed }
  | .sizing, .size (some area) =>
    let (rows, cols) := paneDims area s.app.sidebarWidth
    { s with app := { s.app with procs := s.app.procs.map (Proc.resize rows cols) }, phase := .polling }
  | .polling, .poll answers =>
    let (procs, sys) := onEach (Proc.poll answers) s.app.procs s.sys
    { s with app := { s.app with procs }, sys, phase := .checking }
  | .checking, .check =>
    let (found, procs) := takeDirty s.app.procs
    let redraw := s.redraw || found
    { s with app := { s.app with procs }, redraw, phase := if redraw then .drawing else .waiting }
  | .drawing, .draw true => { s with drawn := some s.app.view, redraw := false, phase := .waiting }
  | .waiting, .input (some i) =>
    let s := s.onInput i
    { s with phase := if s.app.shouldQuit then .quitting else .sizing }
  | .quitting, .quit waits =>
    let (app, sys) := s.app.shutdown waits s.sys
    { s with app, sys, phase := .gone }
  | _, .exits pid code => { s with sys := s.sys.exit pid code }
  | _, .reads i runs chunk =>
    { s with app := { s.app with procs := s.app.procs.modify i (Proc.reads runs chunk) } }
  | _, .marks i => { s with app := { s.app with procs := s.app.procs.modify i Proc.marks } }
  | _, _ => s

end Onisin.Run
