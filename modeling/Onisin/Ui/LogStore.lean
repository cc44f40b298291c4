import Mathlib.Data.List.Infix
import Mathlib.Data.List.Pairwise
import Onisin.Lib.Json
import Onisin.Lib.Runs

/-!
The log ring in the browser's database. A call adds its record, counts, picks the oldest keys
and deletes them; between two of these steps any other call may take one of its own.
-/

set_option autoImplicit false

namespace Onisin.Ui.Logs
open Lib

inductive LogLevelName where
  | error
  | warn
  | info
  | debug

structure LogRecord where
  ts : Text
  level : LogLevelName
  service : Text
  source : Text
  message : Text
  fields : Option Json

structure LogRow where
  id : Nat
  record : LogRecord

/-- The table `logs`, in the order of its key, and the key the next row gets. Clearing does
not reset it. -/
structure LogTable where
  rows : List LogRow
  nextId : Nat

def maxLogRows : Nat := 2000

/-! The database steps. -/

def LogTable.add (record : LogRecord) (table : LogTable) : LogTable where
  rows := table.rows ++ [⟨table.nextId, record⟩]
  nextId := table.nextId + 1

@[simp] theorem LogTable.add_nextId (record : LogRecord) (table : LogTable) :
    (table.add record).nextId = table.nextId + 1 := rfl

theorem LogTable.length_add (record : LogRecord) (table : LogTable) :
    (table.add record).rows.length = table.rows.length + 1 := List.length_append ..

/-- By how many rows the table is over its bound. -/
def LogTable.overflow (table : LogTable) : Nat := table.rows.length - maxLogRows

def LogTable.primaryKeys (limit : Nat) (table : LogTable) : List Nat :=
  (table.rows.take limit).map LogRow.id

def without (keys : List Nat) (rows : List LogRow) : List LogRow :=
  rows.filter fun row => !keys.contains row.id

def LogTable.bulkDelete (keys : List Nat) (table : LogTable) : LogTable :=
  { table with rows := without keys table.rows }

def LogTable.clear (table : LogTable) : LogTable := { table with rows := [] }

/-- The step of `appendLog` a call is to take next. -/
inductive LogPhase where
  | add (record : LogRecord)
  | count
  | pick (overflow : Nat)
  | delete (oldest : List Nat)

/-- One step of `appendLog`: the table after it and what the call does next, if anything. -/
def appendStep (table : LogTable) : LogPhase → LogTable × Option LogPhase
  | .add record => (table.add record, some .count)
  | .count => (table, if maxLogRows < table.rows.length then some (.pick table.overflow) else none)
  | .pick overflow => (table, some (.delete (table.primaryKeys overflow)))
  | .delete oldest => (table.bulkDelete oldest, none)

/-- The table and the calls of `appendLog` that have not returned. -/
structure LogStore where
  table : LogTable
  calls : List LogPhase

inductive LogAction where
  | append (record : LogRecord)
  | step (i : Nat)
  | fail (i : Nat)
  | clear

def settle (calls : List LogPhase) (i : Nat) : Option LogPhase → List LogPhase
  | some phase => calls.set i phase
  | none => calls.eraseIdx i

def LogStore.step (store : LogStore) (i : Nat) : LogStore :=
  match store.calls[i]? with
  | none => store
  | some phase =>
    let next := appendStep store.table phase
    { table := next.1, calls := settle store.calls i next.2 }

/-- A step that throws is caught: it changes nothing, and the call is over. -/
def LogStore.act (store : LogStore) : LogAction → LogStore
  | .append record => { store with calls := store.calls ++ [.add record] }
  | .step i => store.step i
  | .fail i => { store with calls := store.calls.eraseIdx i }
  | .clear => { store with table := store.table.clear }

/-! What the ring is to hold. -/

/-- The store beside all rows added to it since it was last cleared. -/
structure LogHistory where
  store : LogStore
  added : List LogRow

def LogStore.adds (store : LogStore) (i : Nat) : List LogRow :=
  match store.calls[i]? with
  | some (.add record) => [⟨store.table.nextId, record⟩]
  | _ => []

def LogHistory.next (h : LogHistory) (a : LogAction) : LogHistory where
  store := h.store.act a
  added := match a with
    | .append _ | .fail _ => h.added
    | .step i => h.added ++ h.store.adds i
    | .clear => []

def noLogs : LogHistory := ⟨⟨⟨[], 0⟩, []⟩, []⟩

def newest (rows : List LogRow) : List LogRow := rows.drop (rows.length - maxLogRows)

def picked (keys : List Nat) (table : LogTable) : List LogRow :=
  table.rows.filter fun row => keys.contains row.id

/-- A call deletes no more rows than the table is still over its bound by. -/
def CountHolds (h : LogHistory) : LogAction → Prop
  | .step i => ∀ oldest, h.store.calls[i]? = some (.delete oldest) →
      (picked oldest h.store.table).length ≤ h.store.table.overflow
  | _ => True

/-- A call fails before it has added its record, or where no pruning hangs on it: the table is
within its bound, or another call is still to count. -/
def FailsHarmlessly (h : LogHistory) : LogAction → Prop
  | .fail i => ∀ phase, h.store.calls[i]? = some phase → (∃ record, phase = .add record) ∨
      h.store.table.rows.length ≤ maxLogRows ∨ .count ∈ h.store.calls.eraseIdx i
  | _ => True

def Orderly (h : LogHistory) (a : LogAction) : Prop := CountHolds h a ∧ FailsHarmlessly h a

variable {h : LogHistory} {table : LogTable} {rows : List LogRow} {keys : List Nat}
  {calls : List LogPhase} {phase : LogPhase} {i : Nat}

/-! Deleting the front of a table. -/

def InOrder (rows : List LogRow) : Prop := rows.Pairwise fun a b => a.id < b.id

/-- With a key of the table, the keys have all that come before it. -/
def Closed (keys : List Nat) (rows : List LogRow) : Prop :=
  ∀ row ∈ rows, row.id ∈ keys → ∀ older ∈ rows, older.id < row.id → older.id ∈ keys

theorem mem_without {row : LogRow} : row ∈ without keys rows ↔ row ∈ rows ∧ row.id ∉ keys := by
  simp [without]

theorem without_eq_self (hkeys : ∀ row ∈ rows, row.id ∉ keys) : without keys rows = rows :=
  List.filter_eq_self.mpr fun row hrow => by simpa using hkeys row hrow

theorem without_append (keys : List Nat) (rows more : List LogRow) :
    without keys (rows ++ more) = without keys rows ++ without keys more := List.filter_append ..

theorem without_sublist (keys : List Nat) (rows : List LogRow) :
    (without keys rows).Sublist rows := List.filter_sublist

theorem length_without_add (keys : List Nat) (table : LogTable) :
    (without keys table.rows).length + (picked keys table).length = table.rows.length := by
  rw [Nat.add_comm]
  exact (List.length_eq_length_filter_add fun row : LogRow => keys.contains row.id).symm

/-- Deleting keys that are closed downward leaves the end of the table. -/
theorem without_suffix (hord : InOrder rows) (hclosed : Closed keys rows) :
    without keys rows <:+ rows := by
  induction rows with
  | nil => exact List.suffix_rfl
  | cons row rows ih =>
    obtain ⟨hfirst, hord⟩ := List.pairwise_cons.mp hord
    by_cases hkey : row.id ∈ keys
    · have hrest : Closed keys rows := fun a ha hk older ho =>
        hclosed a (List.mem_cons_of_mem _ ha) hk older (List.mem_cons_of_mem _ ho)
      have hcut : without keys (row :: rows) = without keys rows := by
        rw [without, List.filter_cons_of_neg (by simpa using hkey), ← without]
      rw [hcut]
      exact (ih hord hrest).trans (List.suffix_cons _ _)
    · have hnone : ∀ a ∈ row :: rows, a.id ∉ keys := by
        intro a ha hk
        rcases List.mem_cons.mp ha with rfl | ha'
        · exact hkey hk
        · exact hkey (hclosed a ha hk row List.mem_cons_self (hfirst a ha'))
      rw [without_eq_self hnone]

theorem Closed.sublist {some all : List LogRow} (hclosed : Closed keys all)
    (hsub : some.Sublist all) : Closed keys some := fun a ha hk older ho =>
  hclosed a (hsub.subset ha) hk older (hsub.subset ho)

/-- The keys picked are those of the first rows, and no other row has one of them. -/
theorem without_primaryKeys (hord : InOrder table.rows) (n : Nat) :
    without (table.primaryKeys n) table.rows = table.rows.drop n := by
  have hsplit : table.rows.take n ++ table.rows.drop n = table.rows := List.take_append_drop ..
  have hbefore : ∀ a ∈ table.rows.take n, ∀ b ∈ table.rows.drop n, a.id < b.id := by
    rw [InOrder, ← hsplit] at hord
    exact (List.pairwise_append.mp hord).2.2
  have hfront : without (table.primaryKeys n) (table.rows.take n) = [] := by
    refine List.filter_eq_nil_iff.mpr fun row hrow => ?_
    have hkey : row.id ∈ table.primaryKeys n := List.mem_map_of_mem hrow
    simpa using hkey
  have hback : without (table.primaryKeys n) (table.rows.drop n) = table.rows.drop n := by
    refine without_eq_self fun row hrow hkey => ?_
    obtain ⟨a, ha, hid⟩ := List.mem_map.mp hkey
    have := hbefore a ha row hrow
    omega
  calc without (table.primaryKeys n) table.rows
      = without (table.primaryKeys n) (table.rows.take n ++ table.rows.drop n) := by rw [hsplit]
    _ = table.rows.drop n := by rw [without_append, hfront, hback, List.nil_append]

theorem primaryKeys_closed (hord : InOrder table.rows) (n : Nat) :
    Closed (table.primaryKeys n) table.rows := by
  intro row hrow hkey older holder hlt
  by_contra hnot
  have hmem : older ∈ table.rows.drop n := by
    rw [← without_primaryKeys hord n]
    exact mem_without.mpr ⟨holder, hnot⟩
  obtain ⟨a, ha, hid⟩ := List.mem_map.mp hkey
  have hbefore : a.id < older.id := by
    have hsplit : table.rows.take n ++ table.rows.drop n = table.rows := List.take_append_drop ..
    rw [InOrder, ← hsplit] at hord
    exact (List.pairwise_append.mp hord).2.2 a ha older hmem
  omega

/-! The step a call takes, and the calls after it. -/

theorem mem_settle {next : Option LogPhase} (hmem : phase ∈ settle calls i next) :
    phase ∈ calls ∨ next = some phase := by
  cases next with
  | none => exact .inl ((List.eraseIdx_sublist calls i).subset hmem)
  | some new =>
    rcases List.mem_or_eq_of_mem_set hmem with hold | rfl
    · exact .inl hold
    · exact .inr rfl

/-- The other calls go on as they were. -/
theorem mem_settle_of_mem (next : Option LogPhase) (hmem : phase ∈ calls) :
    calls[i]? = some phase ∨ phase ∈ settle calls i next := by
  obtain ⟨j, hj, rfl⟩ := List.mem_iff_getElem.mp hmem
  by_cases hij : j = i
  · subst hij
    exact .inl (List.getElem?_eq_getElem hj)
  right
  cases next with
  | none => exact List.mem_eraseIdx_iff_getElem.mpr ⟨j, hj, hij, rfl⟩
  | some new =>
    have hj' : j < (calls.set i new).length := by simpa using hj
    have hget : (calls.set i new)[j] = calls[j] := List.getElem_set_ne (Ne.symm hij) hj'
    exact List.mem_iff_getElem.mpr ⟨j, hj', hget⟩

theorem mem_settle_self {new : LogPhase} (hcall : calls[i]? = some phase) :
    new ∈ settle calls i (some new) :=
  List.mem_set (List.getElem?_eq_some_iff.mp hcall).1 new

theorem step_of_call {store : LogStore} (hcall : store.calls[i]? = some phase) :
    store.step i = { table := (appendStep store.table phase).1,
                     calls := settle store.calls i (appendStep store.table phase).2 } := by
  rw [LogStore.step, hcall]

/-! The rows of the table are the last of those added, whatever the order of the steps. -/

structure Ring (h : LogHistory) : Prop where
  last : h.store.table.rows <:+ h.added
  ordered : InOrder h.added
  fresh : ∀ row ∈ h.added, row.id < h.store.table.nextId
  keys : ∀ oldest, .delete oldest ∈ h.store.calls → Closed oldest h.store.table.rows ∧
    ∀ key ∈ oldest, key < h.store.table.nextId

theorem Ring.rows_ordered (hr : Ring h) : InOrder h.store.table.rows :=
  hr.ordered.sublist hr.last.sublist

theorem Ring.rows_fresh (hr : Ring h) : ∀ row ∈ h.store.table.rows, row.id < h.store.table.nextId :=
  fun row hrow => hr.fresh row (hr.last.subset hrow)

/-- A new row has a key past all others, and past those picked for deletion. -/
theorem Closed.add {record : LogRecord} (hclosed : Closed keys table.rows)
    (hkeys : ∀ key ∈ keys, key < table.nextId) :
    Closed keys (table.add record).rows := by
  intro row hrow hkey older holder hlt
  have hnew : ∀ a ∈ (table.add record).rows, a.id < table.nextId → a ∈ table.rows := by
    intro a ha hid
    rcases List.mem_append.mp ha with ha | ha
    · exact ha
    · rw [List.mem_singleton.mp ha] at hid
      exact absurd hid (Nat.lt_irrefl _)
  have hid := hkeys row.id hkey
  exact hclosed row (hnew row hrow hid) hkey older (hnew older holder (Nat.lt_trans hlt hid)) hlt

theorem ring_noLogs : Ring noLogs where
  last := List.suffix_rfl
  ordered := List.Pairwise.nil
  fresh := fun row hrow => by cases hrow
  keys := fun oldest hmem => by cases hmem

theorem Ring.add (hr : Ring h) (record : LogRecord)
    (hcalls : ∀ oldest, .delete oldest ∈ calls → .delete oldest ∈ h.store.calls) :
    Ring ⟨⟨h.store.table.add record, calls⟩, h.added ++ [⟨h.store.table.nextId, record⟩]⟩ where
  last := by
    obtain ⟨older, holder⟩ := hr.last
    exact ⟨older, by rw [LogTable.add, ← List.append_assoc, holder]⟩
  ordered := by
    refine List.pairwise_append.mpr ⟨hr.ordered, List.pairwise_singleton _ _, ?_⟩
    intro a ha b hb
    rw [List.mem_singleton.mp hb]
    exact hr.fresh a ha
  fresh := by
    intro row hrow
    rcases List.mem_append.mp hrow with hold | hnew
    · exact Nat.lt_succ_of_lt (hr.fresh row hold)
    · rw [List.mem_singleton.mp hnew]
      exact Nat.lt_succ_self _
  keys := by
    intro oldest hmem
    obtain ⟨hclosed, hkeys⟩ := hr.keys oldest (hcalls oldest hmem)
    exact ⟨hclosed.add hkeys, fun key hkey => Nat.lt_succ_of_lt (hkeys key hkey)⟩

/-- A step that adds nothing leaves an end of the table, and keys that are closed in it. -/
theorem Ring.shrink (hr : Ring h) (hrows : rows <:+ h.store.table.rows)
    (hcalls : ∀ oldest, .delete oldest ∈ calls → .delete oldest ∈ h.store.calls ∨
      (Closed oldest h.store.table.rows ∧ ∀ key ∈ oldest, key < h.store.table.nextId)) :
    Ring ⟨⟨{ h.store.table with rows := rows }, calls⟩, h.added⟩ where
  last := hrows.trans hr.last
  ordered := hr.ordered
  fresh := hr.fresh
  keys := by
    intro oldest hmem
    have hkeys : Closed oldest h.store.table.rows ∧ ∀ key ∈ oldest, key < h.store.table.nextId :=
      (hcalls oldest hmem).elim (hr.keys oldest) id
    exact ⟨hkeys.1.sublist hrows.sublist, hkeys.2⟩

theorem Ring.primaryKeys_fresh (hr : Ring h) (n : Nat) :
    ∀ key ∈ h.store.table.primaryKeys n, key < h.store.table.nextId := by
  intro key hkey
  obtain ⟨row, hrow, rfl⟩ := List.mem_map.mp hkey
  exact hr.rows_fresh row (List.mem_of_mem_take hrow)

theorem next_of_call (hcall : h.store.calls[i]? = some phase) :
    h.next (.step i) =
      ⟨⟨(appendStep h.store.table phase).1, settle h.store.calls i (appendStep h.store.table phase).2⟩,
        h.added ++ h.store.adds i⟩ := by
  rw [LogHistory.next, LogStore.act, step_of_call hcall]

theorem next_of_no_call (hcall : h.store.calls[i]? = none) : h.next (.step i) = h := by
  simp [LogHistory.next, LogStore.act, LogStore.step, LogStore.adds, hcall]

theorem Ring.step (hr : Ring h) (i : Nat) : Ring (h.next (.step i)) := by
  cases hcall : h.store.calls[i]? with
  | none => rwa [next_of_no_call hcall]
  | some phase =>
    have hmem : phase ∈ h.store.calls := List.mem_of_getElem? hcall
    rw [next_of_call hcall]
    cases phase with
    | add record =>
      rw [LogStore.adds, hcall]
      refine hr.add record fun oldest hold => ?_
      rcases mem_settle hold with hold | hnew
      · exact hold
      · cases hnew
    | count =>
      rw [LogStore.adds, hcall, List.append_nil]
      refine hr.shrink List.suffix_rfl fun oldest hold => .inl ?_
      rcases mem_settle hold with hold | hnew
      · exact hold
      · rw [appendStep] at hnew
        split at hnew <;> cases hnew
    | pick overflow =>
      rw [LogStore.adds, hcall, List.append_nil]
      refine hr.shrink List.suffix_rfl fun oldest hold => ?_
      rcases mem_settle hold with hold | hnew
      · exact .inl hold
      · obtain rfl : h.store.table.primaryKeys overflow = oldest := by
          rw [appendStep] at hnew
          injections
        exact .inr ⟨primaryKeys_closed hr.rows_ordered overflow, hr.primaryKeys_fresh overflow⟩
    | delete oldest =>
      rw [LogStore.adds, hcall, List.append_nil]
      refine hr.shrink (without_suffix hr.rows_ordered (hr.keys oldest hmem).1) ?_
      intro other hold
      rcases mem_settle hold with hold | hnew
      · exact .inl hold
      · cases hnew

theorem Ring.next (hr : Ring h) (a : LogAction) : Ring (h.next a) := by
  cases a with
  | append record =>
    refine hr.shrink List.suffix_rfl fun oldest hmem => .inl ?_
    rcases List.mem_append.mp hmem with hold | hnew
    · exact hold
    · cases List.mem_singleton.mp hnew
  | step i => exact hr.step i
  | fail i =>
    exact hr.shrink List.suffix_rfl fun oldest hmem =>
      .inl ((List.eraseIdx_sublist h.store.calls i).subset hmem)
  | clear =>
    exact {
      last := List.suffix_rfl
      ordered := List.Pairwise.nil
      fresh := fun row hrow => by cases hrow
      keys := fun oldest hmem => ⟨fun row hrow => (by cases hrow), (hr.keys oldest hmem).2⟩ }

/-! The newest rows are there. -/

/-- The table holds the newest of the rows added, and perhaps older ones. -/
def Holds (h : LogHistory) : Prop := newest h.added <:+ h.store.table.rows

theorem holds_of_empty (hadded : h.added = []) : Holds h := by
  rw [Holds, hadded, newest, List.drop_nil]
  exact List.nil_suffix

theorem Ring.holds_iff (hr : Ring h) :
    Holds h ↔ min h.added.length maxLogRows ≤ h.store.table.rows.length := by
  have hlen : (newest h.added).length = min h.added.length maxLogRows := by
    rw [newest, List.length_drop]
    omega
  rw [← hlen]
  constructor
  · exact List.IsSuffix.length_le
  · exact List.suffix_of_suffix_length_le (List.drop_suffix _ _) hr.last

/-- A step loses one of the newest rows exactly if it deletes more than the table has in excess. -/
theorem Ring.holds_next_iff (hr : Ring h) (hh : Holds h) (a : LogAction) :
    Holds (h.next a) ↔ CountHolds h a := by
  cases a with
  | append record => exact iff_of_true hh trivial
  | fail i => exact iff_of_true hh trivial
  | clear => exact iff_of_true (holds_of_empty rfl) trivial
  | step i =>
    have hheld := hr.holds_iff.mp hh
    have hlast := hr.last.length_le
    rw [(hr.step i).holds_iff]
    cases hcall : h.store.calls[i]? with
    | none =>
      rw [next_of_no_call hcall]
      exact iff_of_true hheld fun oldest hdel => by rw [hcall] at hdel; cases hdel
    | some phase =>
      rw [next_of_call hcall, LogStore.adds, CountHolds, hcall]
      cases phase with
      | add record =>
        refine iff_of_true ?_ fun oldest hdel => by cases hdel
        rw [List.length_append, List.length_singleton, appendStep, LogTable.length_add]
        omega
      | count =>
        refine iff_of_true ?_ fun oldest hdel => by cases hdel
        rwa [List.append_nil]
      | pick overflow =>
        refine iff_of_true ?_ fun oldest hdel => by cases hdel
        rwa [List.append_nil]
      | delete oldest =>
        have hcount := length_without_add oldest h.store.table
        have hdel : (∀ keys, some (LogPhase.delete oldest) = some (.delete keys) →
            (picked keys h.store.table).length ≤ h.store.table.overflow) ↔
            (picked oldest h.store.table).length ≤ h.store.table.overflow :=
          ⟨fun hk => hk oldest rfl, fun hk keys heq => by cases heq; exact hk⟩
        rw [hdel, List.append_nil, LogTable.overflow]
        simp only [appendStep, LogTable.bulkDelete]
        omega

/-- The runs that never lose one of the newest rows. -/
theorem holds_along_iff (acts : List LogAction) :
    (∀ n, Holds (run LogHistory.next noLogs (acts.take n))) ↔
      Along LogHistory.next CountHolds noLogs acts := by
  have hinv : ∀ h a, Ring h → Ring (h.next a) := fun _ a hr => hr.next a
  have hstep : ∀ h a, Ring h → Holds h → (Holds (h.next a) ↔ CountHolds h a) :=
    fun _ a hr hh => hr.holds_next_iff hh a
  have hstart : Holds noLogs := holds_of_empty rfl
  exact good_run_iff hinv hstep ring_noLogs hstart

/-! Somebody prunes: as long as the table is over its bound, a call is on its way that will bring
it back. -/

def LogPhase.Prunes (rows : List LogRow) : LogPhase → Prop
  | .add _ => False
  | .count => True
  | .pick overflow => rows.length ≤ maxLogRows + overflow
  | .delete oldest => (without oldest rows).length ≤ maxLogRows

def Pruned (store : LogStore) : Prop :=
  store.table.rows.length ≤ maxLogRows ∨ ∃ phase ∈ store.calls, phase.Prunes store.table.rows

theorem LogPhase.Prunes.sublist {some all : List LogRow} (hp : phase.Prunes all)
    (hsub : some.Sublist all) : phase.Prunes some := by
  cases phase with
  | add record => exact hp
  | count => trivial
  | pick overflow => exact hsub.length_le.trans hp
  | delete oldest => exact (hsub.filter _).length_le.trans hp

/-- A step that adds nothing: the other calls still prune, and the caller has a phase that does
as its last one did. -/
theorem Pruned.settle {store : LogStore} (hp : Pruned store) (hsub : rows.Sublist store.table.rows)
    (hcall : store.calls[i]? = some phase) (next : Option LogPhase)
    (hself : phase.Prunes store.table.rows →
      rows.length ≤ maxLogRows ∨ ∃ new, next = some new ∧ new.Prunes rows) :
    Pruned ⟨{ store.table with rows := rows }, settle store.calls i next⟩ := by
  rcases hp with hlen | ⟨other, hmem, hother⟩
  · exact .inl (hsub.length_le.trans hlen)
  rcases mem_settle_of_mem (i := i) next hmem with heq | hstays
  · obtain rfl : phase = other := Option.some.inj (hcall.symm.trans heq)
    rcases hself hother with hlen | ⟨new, rfl, hnew⟩
    · exact .inl hlen
    · exact .inr ⟨new, mem_settle_self hcall, hnew⟩
  · exact .inr ⟨other, hstays, hother.sublist hsub⟩

theorem Pruned.step (hr : Ring h) (hp : Pruned h.store) (i : Nat) :
    Pruned (h.next (.step i)).store := by
  cases hcall : h.store.calls[i]? with
  | none => rwa [next_of_no_call hcall]
  | some phase =>
    rw [next_of_call hcall]
    cases phase with
    | add record => exact .inr ⟨.count, mem_settle_self hcall, trivial⟩
    | count =>
      refine hp.settle (List.Sublist.refl _) hcall _ fun _ => ?_
      by_cases hover : maxLogRows < h.store.table.rows.length
      · refine .inr ⟨.pick h.store.table.overflow, if_pos hover, ?_⟩
        show h.store.table.rows.length ≤ maxLogRows + (h.store.table.rows.length - maxLogRows)
        omega
      · exact .inl (Nat.le_of_not_lt hover)
    | pick overflow =>
      refine hp.settle (List.Sublist.refl _) hcall _ fun hself => .inr ⟨_, rfl, ?_⟩
      have hself : h.store.table.rows.length ≤ maxLogRows + overflow := hself
      show (without (h.store.table.primaryKeys overflow) h.store.table.rows).length ≤ maxLogRows
      rw [without_primaryKeys hr.rows_ordered, List.length_drop]
      omega
    | delete oldest => exact hp.settle (without_sublist oldest _) hcall none .inl

theorem Pruned.fail {store : LogStore} (hp : Pruned store) (i : Nat)
    (hfail : ∀ phase, store.calls[i]? = some phase → (∃ record, phase = .add record) ∨
      store.table.rows.length ≤ maxLogRows ∨ .count ∈ store.calls.eraseIdx i) :
    Pruned (store.act (.fail i)) := by
  rcases hp with hlen | ⟨other, hmem, hother⟩
  · exact .inl hlen
  rcases mem_settle_of_mem (i := i) none hmem with heq | hstays
  · rcases hfail other heq with ⟨record, rfl⟩ | hlen | hcount
    · exact hother.elim
    · exact .inl hlen
    · exact .inr ⟨.count, hcount, trivial⟩
  · exact .inr ⟨other, hstays, hother⟩

theorem Pruned.next (hr : Ring h) (hp : Pruned h.store) (a : LogAction) (hc : FailsHarmlessly h a) :
    Pruned (h.next a).store := by
  cases a with
  | append record =>
    refine hp.imp_right fun ⟨phase, hmem, hphase⟩ => ⟨phase, List.mem_append_left _ hmem, hphase⟩
  | step i => exact hp.step hr i
  | fail i => exact hp.fail i hc
  | clear => exact .inl (Nat.zero_le _)

/-! The whole run. -/

structure Kept (h : LogHistory) : Prop where
  ring : Ring h
  holds : Holds h
  pruned : Pruned h.store

theorem Kept.next (hk : Kept h) (a : LogAction) (hc : Orderly h a) : Kept (h.next a) where
  ring := hk.ring.next a
  holds := (hk.ring.holds_next_iff hk.holds a).mpr hc.1
  pruned := hk.pruned.next hk.ring a hc.2

theorem kept_noLogs : Kept noLogs where
  ring := ring_noLogs
  holds := holds_of_empty rfl
  pruned := .inl (Nat.zero_le _)

theorem Kept.rows_eq (hk : Kept h) (hidle : h.store.calls = []) :
    h.store.table.rows = newest h.added := by
  have hlen : h.store.table.rows.length ≤ maxLogRows := by
    rcases hk.pruned with hlen | ⟨phase, hmem, -⟩
    · exact hlen
    · rw [hidle] at hmem
      cases hmem
  have hlast := hk.ring.last.length_le
  refine (hk.holds.eq_of_length_le ?_).symm
  rw [newest, List.length_drop]
  omega

/-- When all calls have returned, the ring holds the newest rows, provided no call pruned by a
count that no longer held. -/
theorem ring_keeps_newest {acts : List LogAction}
    (hfair : Along LogHistory.next Orderly noLogs acts) :
    let h := run LogHistory.next noLogs acts
    h.store.calls = [] → h.store.table.rows = newest h.added := by
  have hk : Kept (run LogHistory.next noLogs acts) :=
    run_invariant (fun _ a hk hc => hk.next a hc) kept_noLogs hfair
  exact hk.rows_eq

/-! A table filled to its bound, one call after the other. -/

def quietRecord : LogRecord := ⟨[], .info, [], [], [], none⟩

def alone : List LogAction := [.append quietRecord, .step 0, .step 0]

def fillRing (n : Nat) : List LogAction := (List.replicate n alone).flatten

theorem fillRing_succ (n : Nat) : fillRing (n + 1) = alone ++ fillRing n := by
  rw [fillRing, List.replicate_succ, List.flatten_cons, ← fillRing]

theorem run_alone (hlen : table.rows.length < maxLogRows) (added : List LogRow) :
    run LogHistory.next ⟨⟨table, []⟩, added⟩ alone =
      ⟨⟨table.add quietRecord, []⟩, added ++ [⟨table.nextId, quietRecord⟩]⟩ := by
  have hbound : ¬ maxLogRows < (table.add quietRecord).rows.length := by
    rw [LogTable.length_add]
    omega
  simp [run, alone, LogHistory.next, LogStore.act, LogStore.step, LogStore.adds, appendStep, settle,
    hbound]

theorem run_fillRing (n : Nat) (table : LogTable) (hlen : table.rows.length + n ≤ maxLogRows) :
    ∃ full : LogTable, full.rows.length = table.rows.length + n ∧
      run LogHistory.next ⟨⟨table, []⟩, table.rows⟩ (fillRing n) = ⟨⟨full, []⟩, full.rows⟩ := by
  induction n generalizing table with
  | zero => exact ⟨table, rfl, rfl⟩
  | succ n ih =>
    have hadd := table.length_add quietRecord
    obtain ⟨full, hfull, hrun⟩ := ih (table.add quietRecord) (by omega)
    refine ⟨full, by omega, ?_⟩
    rw [fillRing_succ, run_append, run_alone (by omega)]
    exact hrun

theorem along_fillRing (n : Nat) (table : LogTable) (hlen : table.rows.length + n ≤ maxLogRows)
    (added : List LogRow) :
    Along LogHistory.next Orderly ⟨⟨table, []⟩, added⟩ (fillRing n) := by
  induction n generalizing table added with
  | zero => trivial
  | succ n ih =>
    have hadd := table.length_add quietRecord
    rw [fillRing_succ, along_append, run_alone (by omega)]
    constructor
    · simp [Along, Orderly, CountHolds, FailsHarmlessly, alone, LogHistory.next, LogStore.act,
        LogStore.step, appendStep, settle]
    · exact ih (table.add quietRecord) (by omega) _

theorem run_filled : ∃ full : LogTable, full.rows.length = maxLogRows ∧
    Ring ⟨⟨full, []⟩, full.rows⟩ ∧ Along LogHistory.next Orderly noLogs (fillRing maxLogRows) ∧
    run LogHistory.next noLogs (fillRing maxLogRows) = ⟨⟨full, []⟩, full.rows⟩ := by
  have hempty : (LogTable.mk [] 0).rows.length + maxLogRows = maxLogRows := Nat.zero_add _
  obtain ⟨full, hfull, hfill⟩ := run_fillRing maxLogRows ⟨[], 0⟩ (Nat.le_of_eq hempty)
  have hinv : ∀ h a, Ring h → Ring (LogHistory.next h a) := fun _ a hr => hr.next a
  have hring : Ring ⟨⟨full, []⟩, full.rows⟩ := hfill ▸ run_keeps hinv ring_noLogs _
  exact ⟨full, hfull.trans hempty, hring, along_fillRing _ _ (Nat.le_of_eq hempty) _, hfill⟩

/-- The first call has counted and picked when the second adds its row, and the second counts
when the first has deleted. -/
def interleaved : List LogAction :=
  [.append quietRecord, .append quietRecord, .step 0, .step 0, .step 0, .step 1, .step 0,
    .step 0, .step 0, .step 0]

theorem picked_primaryKeys (hord : InOrder table.rows) (n : Nat) :
    (picked (table.primaryKeys n) table).length = min n table.rows.length := by
  have hsplit := length_without_add (table.primaryKeys n) table
  rw [without_primaryKeys hord, List.length_drop] at hsplit
  omega

section
variable {full : LogTable}

/-- Each of the two calls deletes the one row that the table is over its bound by. -/
theorem along_interleaved (hring : Ring ⟨⟨full, []⟩, full.rows⟩)
    (hlen : full.rows.length = maxLogRows) (added : List LogRow) :
    Along LogHistory.next Orderly ⟨⟨full, []⟩, added⟩ interleaved ∧
      (run LogHistory.next ⟨⟨full, []⟩, added⟩ interleaved).store.calls = [] := by
  let one := full.add quietRecord
  let both := one.add quietRecord
  let two := both.bulkDelete (one.primaryKeys 1)
  have hnone : ∀ oldest, LogPhase.delete oldest ∈ [] → LogPhase.delete oldest ∈ [] := fun _ => id
  have hord : InOrder both.rows := ((hring.add quietRecord hnone).add quietRecord hnone).rows_ordered
  have hone : one.rows.length = maxLogRows + 1 := by rw [LogTable.length_add, hlen]
  have hboth : both.rows.length = maxLogRows + 2 := by rw [LogTable.length_add, hone]
  have hkeys : one.primaryKeys 1 = both.primaryKeys 1 := by
    have htake : both.rows.take 1 = one.rows.take 1 := List.take_append_of_le_length (by omega)
    rw [LogTable.primaryKeys, LogTable.primaryKeys, htake]
  have hdrop : two.rows = both.rows.drop 1 := by
    show without (one.primaryKeys 1) both.rows = _
    rw [hkeys, without_primaryKeys hord]
  have htwo : two.rows.length = maxLogRows + 1 := by
    rw [hdrop, List.length_drop]
    omega
  have hfirst : (picked (one.primaryKeys 1) both).length ≤ both.overflow := by
    rw [hkeys, picked_primaryKeys hord, LogTable.overflow]
    omega
  have hord' : InOrder two.rows := hord.sublist (without_sublist _ _)
  have hsecond : (picked (two.primaryKeys 1) two).length ≤ 1 := by
    rw [picked_primaryKeys hord']
    exact Nat.min_le_left _ _
  have hover : one.overflow = 1 := by
    rw [LogTable.overflow]
    omega
  have hover' : two.overflow = 1 := by
    rw [LogTable.overflow]
    omega
  have hbound : maxLogRows < one.rows.length := by omega
  have hbound' : maxLogRows < two.rows.length := by omega
  constructor
  · simp [Along, Orderly, CountHolds, FailsHarmlessly, interleaved, LogHistory.next, LogStore.act,
      LogStore.step, appendStep, settle, one, both, two, hbound, hover, hbound', hover', hfirst,
      hsecond]
  · simp [run, interleaved, LogHistory.next, LogStore.act, LogStore.step, appendStep, settle,
      one, both, two, hbound, hover, hbound', hover']

end

/-- A ring filled to its bound takes two more rows by overlapping calls. -/
theorem ring_keeps_newest_interleaved :
    (run LogHistory.next noLogs (fillRing maxLogRows ++ interleaved)).store.table.rows =
      newest (run LogHistory.next noLogs (fillRing maxLogRows ++ interleaved)).added := by
  obtain ⟨full, hlen, hring, hfair, hfill⟩ := run_filled
  obtain ⟨hfair', hidle⟩ := along_interleaved hring hlen full.rows
  rw [← hfill] at hfair' hidle
  rw [← run_append] at hidle
  exact ring_keeps_newest (along_append.mpr ⟨hfair, hfair'⟩) hidle

/-! Two calls that count before either of them prunes. -/

/-- Both add, both count, then each picks and deletes. -/
def overlapping : List LogAction :=
  [.append quietRecord, .append quietRecord, .step 0, .step 1, .step 0, .step 1,
    .step 0, .step 0, .step 0, .step 0]

theorem run_overlapping (hlen : table.rows.length = maxLogRows) (added : List LogRow) :
    let two := (table.add quietRecord).add quietRecord
    let first := two.bulkDelete (two.primaryKeys 2)
    run LogHistory.next ⟨⟨table, []⟩, added⟩ overlapping =
      ⟨⟨first.bulkDelete (first.primaryKeys 2), []⟩,
        added ++ [⟨table.nextId, quietRecord⟩, ⟨table.nextId + 1, quietRecord⟩]⟩ := by
  intro two first
  have hover : two.overflow = 2 := by
    rw [LogTable.overflow, LogTable.length_add, LogTable.length_add]
    omega
  have hbound : maxLogRows < two.rows.length := by
    rw [LogTable.length_add, LogTable.length_add]
    omega
  simp [run, overlapping, LogHistory.next, LogStore.act, LogStore.step, LogStore.adds, appendStep,
    settle, two, first, hbound, hover]

/-- Both prune by the same count, so the ring loses two rows it was to keep. -/
theorem overlap_leaves {full : LogTable} (hring : Ring ⟨⟨full, []⟩, full.rows⟩)
    (hlen : full.rows.length = maxLogRows) :
    let h := run LogHistory.next ⟨⟨full, []⟩, full.rows⟩ overlapping
    h.store.calls = [] ∧ h.store.table.rows.length = maxLogRows - 2 ∧
      h.added.length = maxLogRows + 2 := by
  let two := (full.add quietRecord).add quietRecord
  let first := two.bulkDelete (two.primaryKeys 2)
  have hnone : ∀ oldest, LogPhase.delete oldest ∈ [] → LogPhase.delete oldest ∈ [] := fun _ => id
  have hord : InOrder two.rows := ((hring.add quietRecord hnone).add quietRecord hnone).rows_ordered
  have htwo : two.rows.length = maxLogRows + 2 := by
    rw [LogTable.length_add, LogTable.length_add, hlen]
  have hfirst : first.rows = two.rows.drop 2 := without_primaryKeys hord 2
  have hsecond : (first.bulkDelete (first.primaryKeys 2)).rows = first.rows.drop 2 :=
    without_primaryKeys (hord.sublist (without_sublist _ _)) 2
  intro h
  have hrun : h = _ := run_overlapping hlen full.rows
  rw [hrun]
  refine ⟨rfl, ?_, ?_⟩
  · rw [hsecond, hfirst, List.length_drop, List.length_drop, htwo]
    omega
  · rw [List.length_append, hlen]
    rfl

theorem overlap_loses_newest :
    ¬ ∀ acts, (run LogHistory.next noLogs acts).store.calls = [] →
      (run LogHistory.next noLogs acts).store.table.rows =
        newest (run LogHistory.next noLogs acts).added := by
  intro hall
  obtain ⟨full, hlen, hring, -, hfill⟩ := run_filled
  have hrun : run LogHistory.next noLogs (fillRing maxLogRows ++ overlapping) =
      run LogHistory.next ⟨⟨full, []⟩, full.rows⟩ overlapping := by
    rw [run_append, ← hfill]
  obtain ⟨hidle, hleft, hadded⟩ := overlap_leaves hring hlen
  rw [← hrun] at hidle hleft hadded
  have hrows := congrArg List.length (hall _ hidle)
  rw [hleft, newest, List.length_drop, hadded] at hrows
  have htwo : 2 ≤ maxLogRows := by decide
  omega

end Onisin.Ui.Logs
