import Onisin.Mem.Recovery
import Mathlib.Logic.Relation

/-!
Bytes nobody vouches for. A decoder that accepts anything accepts a piece of the buffer
of at least a header, so the repair loop moves forward over whatever the tail holds.
-/

set_option autoImplicit false

namespace Onisin.Mem
open Lib

theorem decodeEvent_no_panic (buf : Bytes) (dim : UInt16) : decodeEvent buf dim ≠ .error .panic := by
  rw [decodeEvent_eq]
  repeat' split
  all_goals simp

/-- The record that was accepted, part by part. -/
theorem decodeEvent_sizes {buf : Bytes} {dim : UInt16} {ev : Event} {n : Nat}
    (h : decodeEvent buf dim = .ok (ev, n)) :
    n = eventHeaderSize + ev.refs.length * refSize +
      ((contentBytes buf).length + (topicBytes buf).length + (costBytes buf).length) +
      ev.vector.length * 4 := by
  obtain ⟨-, hexpected, -, hle, rfl⟩ := decodeEvent_sound h
  rw [expected_eq] at hexpected
  have h₁ : contentAt buf ≤ topicAt buf := Nat.le_add_right _ _
  have h₂ : topicAt buf ≤ costAt buf := Nat.le_add_right _ _
  have h₃ : costAt buf ≤ vectorAt buf := Nat.le_add_right _ _
  have hrefs : (eventAt buf dim).refs.length = (headerAt buf).refsCount.toNat :=
    refCodec.items_length _ _ _
  have hvector : (eventAt buf dim).vector.length = dim.toNat := u32.items_length _ _ _
  have hcontent : (contentBytes buf).length = topicAt buf - contentAt buf :=
    length_sub _ _ _ (by omega)
  have htopic : (topicBytes buf).length = costAt buf - topicAt buf := length_sub _ _ _ (by omega)
  have hcost : (costBytes buf).length = vectorAt buf - costAt buf := length_sub _ _ _ (by omega)
  have hstart : contentAt buf = eventHeaderSize + (headerAt buf).refsCount.toNat * refSize := rfl
  rw [hrefs, hvector, hcontent, htopic, hcost]
  omega

/-- Where the repair loop stands between two turns. -/
structure RepairState where
  store : Store
  off : Nat
  added : Nat

inductive Turn where
  | again (p : RepairState)
  | done (s : Store) (r : Except StoreError Nat)

/-- The body of the repair loop, run once. -/
def repairTurn (coveredEnd : Nat) (tail : Bytes) (dim : UInt16) (p : RepairState) : Turn :=
  if p.off < tail.length then
    match decodeEvent (tail.drop p.off) dim with
    | .ok (ev, n) =>
      match p.store.appendIdxRecord
        { eventId := ev.id
          fileOffset := UInt64.ofNat (coveredEnd + p.off)
          recordLen := UInt32.ofNat n
          createdAt := ev.createdAt } with
      | (s, .error e) => .done s (.error e)
      | (s, .ok ()) => .again ⟨s, p.off + n, p.added + 1⟩
    | .error .panic => .done p.store (.error .panic)
    | .error (.format _) =>
      .done
        { p.store with
          events := p.store.events.setLen (coveredEnd + p.off)
          eventsBytes := coveredEnd + p.off } (.ok p.added)
  else .done p.store (.ok p.added)

/-- The loop, given up after a number of turns. -/
def repairTurns (coveredEnd : Nat) (tail : Bytes) (dim : UInt16) :
    Nat → RepairState → Option (Store × Except StoreError Nat)
  | 0, _ => none
  | k+1, p =>
    match repairTurn coveredEnd tail dim p with
    | .again q => repairTurns coveredEnd tail dim k q
    | .done s r => some (s, r)

variable {covered : Nat} {tail : Bytes} {dim : UInt16}

def RepairState.Next (covered : Nat) (tail : Bytes) (dim : UInt16) (p q : RepairState) : Prop :=
  repairTurn covered tail dim p = .again q

/-- What another turn means: a record was accepted inside the tail, and its size is the way gone. -/
theorem RepairState.Next.advance {p q : RepairState} (h : p.Next covered tail dim q) :
    ∃ n, eventHeaderSize ≤ n ∧ p.off + n ≤ tail.length ∧ q.off = p.off + n ∧
      q.added = p.added + 1 := by
  unfold RepairState.Next repairTurn at h
  split at h
  · rename_i hoff
    split at h
    · rename_i ev n hd
      obtain ⟨-, -, hmin, hmax, -⟩ := decodeEvent_sound hd
      rw [List.length_drop] at hmax
      split at h
      · cases h
      · injection h with h
        exact ⟨n, hmin, by omega, by rw [← h], by rw [← h]⟩
    · cases h
    · cases h
  · cases h

theorem appendIdxRecord_no_panic {s s' : Store} {rec : IdxRecord} {e : StoreError}
    (h : s.appendIdxRecord rec = (s', .error e)) : e ≠ .panic := by
  unfold Store.appendIdxRecord at h
  split at h
  · cases h
    simp
  · cases h

theorem repairTurn_no_panic {p : RepairState} {s : Store} {r : Except StoreError Nat}
    (h : repairTurn covered tail dim p = .done s r) : r ≠ .error .panic := by
  unfold repairTurn at h
  split at h
  · split at h
    · split at h
      · rename_i e he
        injection h with _ hr
        rw [← hr]
        exact fun hp => appendIdxRecord_no_panic he (Except.error.inj hp)
      · cases h
    · rename_i hd
      exact absurd hd (decodeEvent_no_panic _ _)
    · injection h with _ hr
      rw [← hr]
      simp
  · injection h with _ hr
    rw [← hr]
    simp

/-- The loop of the store is its turns, one after the other. -/
theorem repairLoop_turn (p : RepairState) :
    p.store.repairLoop covered tail dim p.off p.added =
      match repairTurn covered tail dim p with
      | .again q => q.store.repairLoop covered tail dim q.off q.added
      | .done s r => (s, r) := by
  rw [Store.repairLoop, repairTurn]
  split
  · split
    · rename_i hd
      simp only [hd]
      rcases p.store.appendIdxRecord _ with ⟨s, e | ⟨⟩⟩
      · rfl
      · rfl
    · rename_i hd
      simp only [hd]
    · rename_i hd
      simp only [hd]
  · rfl

/-- Wherever the loop stands, the rest of the tail pays for the turns that are left. -/
theorem repairTurns_loop (p : RepairState) (hp : p.off ≤ tail.length) :
    ∃ k, k * eventHeaderSize ≤ tail.length - p.off ∧
      repairTurns covered tail dim (k + 1) p =
        some (p.store.repairLoop covered tail dim p.off p.added) ∧
      (p.store.repairLoop covered tail dim p.off p.added).2 ≠ .error .panic := by
  induction hleft : tail.length - p.off using Nat.strong_induction_on generalizing p with
  | _ left ih =>
    rw [repairLoop_turn]
    cases hturn : repairTurn covered tail dim p with
    | done s r => exact ⟨0, by omega, by rw [repairTurns, hturn], repairTurn_no_panic hturn⟩
    | again q =>
      obtain ⟨n, hmin, hmax, hoff, -⟩ := RepairState.Next.advance hturn
      have hpos : 0 < n := Nat.lt_of_lt_of_le (by decide) hmin
      obtain ⟨k, hk, hsome, hsafe⟩ := ih (tail.length - q.off) (by omega) q (by omega) rfl
      refine ⟨k + 1, ?_, ?_, hsafe⟩
      · rw [Nat.add_mul]
        omega
      · rw [repairTurns, hturn]
        exact hsome

theorem off_le_of_turns {p q : RepairState} (hp : p.off ≤ tail.length)
    (h : Relation.ReflTransGen (RepairState.Next covered tail dim) p q) : q.off ≤ tail.length := by
  induction h with
  | refl => exact hp
  | tail _ hnext _ =>
    obtain ⟨n, -, hmax, hoff, -⟩ := hnext.advance
    omega

/-- Decoding and repairing are safe on arbitrary bytes. -/
theorem arbitrary_bytes_safe (dim : UInt16) :
    (∀ buf : Bytes, decodeEvent buf dim ≠ .error .panic) ∧
    (∀ (buf : Bytes) (ev : Event) (n : Nat), decodeEvent buf dim = .ok (ev, n) →
      49 ≤ n ∧ n ≤ buf.length ∧
      n = eventHeaderSize + ev.refs.length * refSize +
        ((contentBytes buf).length + (topicBytes buf).length + (costBytes buf).length) +
        ev.vector.length * 4) ∧
    (∀ (covered : Nat) (tail : Bytes) (s : Store),
      (∀ q, Relation.ReflTransGen (RepairState.Next covered tail dim) ⟨s, 0, 0⟩ q →
        q.off ≤ tail.length) ∧
      (∃ k, k * eventHeaderSize ≤ tail.length ∧
        repairTurns covered tail dim (k + 1) ⟨s, 0, 0⟩ =
          some (s.repairLoop covered tail dim 0 0)) ∧
      (s.repairLoop covered tail dim 0 0).2 ≠ .error .panic) := by
  refine ⟨fun buf => decodeEvent_no_panic buf dim, ?_, ?_⟩
  · intro buf ev n h
    obtain ⟨-, -, hmin, hmax, -⟩ := decodeEvent_sound h
    exact ⟨hmin, hmax, decodeEvent_sizes h⟩
  · intro covered tail s
    obtain ⟨k, hk, hsome, hsafe⟩ := @repairTurns_loop covered tail dim
      ⟨s, 0, 0⟩ (Nat.zero_le _)
    exact ⟨fun q => off_le_of_turns (Nat.zero_le _), ⟨k, hk, hsome⟩, hsafe⟩

/-! The whole repair: what it reads before the loop is as harmless. -/

theorem decodeIdxRecord_no_panic (buf : Bytes) : decodeIdxRecord buf ≠ .error .panic := by
  unfold decodeIdxRecord
  split
  · simp
  · rename_i hlen
    simp only [idxRecordSize] at hlen
    rw [rdU64_ok _ (by omega), rdU64_ok _ (by omega), rdU32_ok _ (by omega), rdI64_ok _ (by omega)]
    intro h
    cases h

theorem readExactAt_error {f : File} {off n : Nat} {e : StoreError}
    (h : f.readExactAt off n = .error e) : e = .io := by
  unfold File.readExactAt at h
  split at h
  · cases h
  · exact (Except.error.inj h).symm

theorem coveredEnd_no_panic (s : Store) : s.coveredEnd ≠ .error .panic := by
  unfold Store.coveredEnd Store.readIdxRecord
  split
  · cases hread : s.idx.readExactAt ((s.idxBytes / idxRecordSize - 1) * idxRecordSize) idxRecordSize with
    | error e =>
      obtain rfl := readExactAt_error hread
      intro h
      cases h
    | ok buf =>
      cases hd : decodeIdxRecord buf with
      | ok rec =>
        simp only [bind, Except.bind, hd, Except.mapError]
        intro h
        cases h
      | error f =>
        cases f with
        | panic => exact absurd hd (decodeIdxRecord_no_panic buf)
        | format e =>
          simp only [bind, Except.bind, hd, Except.mapError, StoreError.ofFault]
          intro h
          cases h
  · intro h
    cases h

/-- A store is repaired over corrupt files with an error or without, never with a crash. -/
theorem repairIdx_no_panic (s : Store) : s.repairIdx.2 ≠ .error .panic := by
  unfold Store.repairIdx
  cases hcovered : s.coveredEnd with
  | error e =>
    intro h
    cases h
    exact coveredEnd_no_panic s hcovered
  | ok covered =>
    simp only
    split
    · simp
    split
    · simp
    cases hread : s.readEventsRange covered (UInt64.ofNat s.eventsBytes) with
    | error e =>
      unfold Store.readEventsRange at hread
      split at hread
      · cases hread
      · rw [readExactAt_error hread]
        simp
    | ok bytes =>
      obtain ⟨-, -, -, hsafe⟩ :=
        @repairTurns_loop covered.toNat bytes s.vectorDim ⟨s, 0, 0⟩ (Nat.zero_le _)
      exact hsafe

end Onisin.Mem
