import Onisin.Lib.Decimal
import Onisin.Ui.Tabs

/-!
What the tabs are named by. An id is written from the arguments of a call and from the clock, and
two ids are one exactly when the arguments and the times meet.
-/

set_option autoImplicit false

namespace Onisin.Ui
open Lib

/-- The arguments that an id is written from. -/
inductive TabName where
  | graphqlResult (contextName : Text) (now : Nat)
  | eventResult (mapping stream : Text) (now : Nat)
  | askResult (now : Nat)
  | pipelineRun (pipelineName : Text) (now : Nat)
  | streamDetail (mapping streamId : Text)
  | dslDetail (viewName : Text) (id : RecordId)
  | newDetail (viewName : Text) (now : Nat)
  | activityDetail (turnId : Text)
  /-- An id that is the same always, or that a caller chose. -/
  | other (id : Text)

def resultTabId (contextName : Text) (now : Nat) : Text := "result:".toList ++ contextName ++ [':'] ++ stamp now

def eventTabId (mapping stream : Text) (now : Nat) : Text :=
  "event:".toList ++ mapping ++ [':'] ++ stream ++ [':'] ++ stamp now

def askTabId (now : Nat) : Text := "ask:".toList ++ stamp now

def runTabId (pipelineName : Text) (now : Nat) : Text :=
  "pipeline:run:".toList ++ pipelineName ++ [':'] ++ stamp now

def streamTabId (mapping streamId : Text) : Text := "stream:".toList ++ mapping ++ [':'] ++ streamId

def recordTabId (viewName idPart : Text) : Text := "detail:".toList ++ viewName ++ [':'] ++ idPart

def activityTabId (turnId : Text) : Text := "activity:detail:".toList ++ turnId

def draftId (now : Nat) : Text := "new-".toList ++ stamp now

def TabName.id : TabName → Text
  | .graphqlResult contextName now => resultTabId contextName now
  | .eventResult mapping stream now => eventTabId mapping stream now
  | .askResult now => askTabId now
  | .pipelineRun pipelineName now => runTabId pipelineName now
  | .streamDetail mapping streamId => streamTabId mapping streamId
  | .dslDetail viewName id => recordTabId viewName id.toText
  | .newDetail viewName now => recordTabId viewName (draftId now)
  | .activityDetail turnId => activityTabId turnId
  | .other id => id

/-- The name of a record's detail. -/
def detailName (viewName : Text) (id : Option RecordId) (now : Nat) : TabName :=
  if RecordId.isNew id then .newDetail viewName now
  else
    match id with
    | none => .newDetail viewName now
    | some id => .dslDetail viewName id

/-- Two pairs are the same text with a colon between: they are equal, or a colon of one of the
first components is read as the one between. -/
def SameJoined (a b a' b' : Text) : Prop :=
  a = a' ∧ b = b' ∨ (∃ x, a' = a ++ ':' :: x ∧ b = x ++ ':' :: b') ∨
    ∃ x, a = a' ++ ':' :: x ∧ b' = x ++ ':' :: b

/-- Names with one id. What is stamped meets in one millisecond only. -/
def TabName.Meets : TabName → TabName → Prop
  | .graphqlResult contextName now, .graphqlResult contextName' now' => contextName = contextName' ∧ now = now'
  | .eventResult mapping stream now, .eventResult mapping' stream' now' =>
    SameJoined mapping stream mapping' stream' ∧ now = now'
  | .askResult now, .askResult now' => now = now'
  | .pipelineRun pipelineName now, .pipelineRun pipelineName' now' => pipelineName = pipelineName' ∧ now = now'
  | .streamDetail mapping streamId, .streamDetail mapping' streamId' => SameJoined mapping streamId mapping' streamId'
  | .dslDetail viewName id, .dslDetail viewName' id' => SameJoined viewName id.toText viewName' id'.toText
  | .dslDetail viewName id, .newDetail viewName' now' => SameJoined viewName id.toText viewName' (draftId now')
  | .newDetail viewName now, .dslDetail viewName' id' => SameJoined viewName (draftId now) viewName' id'.toText
  | .newDetail viewName now, .newDetail viewName' now' => viewName = viewName' ∧ now = now'
  | .activityDetail turnId, .activityDetail turnId' => turnId = turnId'
  | .other id, n => id = n.id
  | n, .other id => n.id = id
  | _, _ => False

theorem detailName_id (viewName : Text) (id : Option RecordId) (now : Nat) :
    (detailName viewName id now).id = recordTabId viewName (detailIdPart id now) := by
  unfold detailName detailIdPart
  cases id with
  | none => rfl
  | some id => split <;> rfl

theorem detailName_new {id : Option RecordId} (h : RecordId.isNew id = true) {viewName : Text} (now : Nat) :
    detailName viewName id now = .newDetail viewName now := by
  unfold detailName
  rw [if_pos h]

/-! Joined texts. -/

/-- Texts joined by a colon meet only if a colon is in one of them. -/
theorem joined_eq_iff (a b a' b' : Text) : a ++ ':' :: b = a' ++ ':' :: b' ↔ SameJoined a b a' b' := by
  unfold SameJoined
  constructor
  · intro h
    rcases List.append_eq_append_iff.mp h with ⟨m, rfl, hm⟩ | ⟨m, rfl, hm⟩
    · cases m with
      | nil => exact Or.inl ⟨by simp, (List.cons.inj hm).2⟩
      | cons d x =>
        obtain ⟨rfl, rfl⟩ := List.cons.inj hm
        exact Or.inr (Or.inl ⟨x, rfl, rfl⟩)
    · cases m with
      | nil => exact Or.inl ⟨by simp, (List.cons.inj hm).2.symm⟩
      | cons d x =>
        obtain ⟨rfl, rfl⟩ := List.cons.inj hm
        exact Or.inr (Or.inr ⟨x, rfl, rfl⟩)
  · rintro (⟨rfl, rfl⟩ | ⟨x, rfl, rfl⟩ | ⟨x, rfl, rfl⟩)
    · rfl
    · simp
    · simp

/-- Behind the last colon nothing is read as another one. -/
theorem sameJoined_last (a a' : Text) {b b' : Text} (h : ':' ∉ b) (h' : ':' ∉ b') :
    SameJoined a b a' b' ↔ a = a' ∧ b = b' := by
  refine ⟨?_, .inl⟩
  rintro (heq | ⟨x, -, rfl⟩ | ⟨x, -, rfl⟩)
  · exact heq
  · exact absurd (List.mem_append_right x List.mem_cons_self) h
  · exact absurd (List.mem_append_right x List.mem_cons_self) h'

theorem stamp_eq (now : Nat) : stamp now = Nat.toDigits 10 now := Nat.toList_repr

theorem colon_not_mem_stamp (now : Nat) : ':' ∉ stamp now := by
  rw [stamp_eq]
  exact fun hmem => absurd (allDigits_toDigits now ':' hmem) (by decide)

theorem colon_not_mem_draftId (now : Nat) : ':' ∉ draftId now := by
  rw [draftId, List.mem_append, not_or]
  exact ⟨by decide, colon_not_mem_stamp now⟩

/-- The clock is read back from its stamp. -/
theorem stamp_inj {now now' : Nat} : stamp now = stamp now' ↔ now = now' := by
  refine ⟨fun h => ?_, congrArg stamp⟩
  rw [stamp_eq, stamp_eq] at h
  have hvalue := congrArg (fun t => Nat.ofDigitChars 10 t 0) h
  simpa only [Nat.ofDigitChars_ten_toDigits] using hvalue

theorem sameJoined_stamp (a a' : Text) (now now' : Nat) :
    SameJoined a (stamp now) a' (stamp now') ↔ a = a' ∧ now = now' :=
  (sameJoined_last a a' (colon_not_mem_stamp now) (colon_not_mem_stamp now')).trans
    (and_congr_right fun _ => stamp_inj)

/-! The names. -/

/-- The letters that the ids of a family begin with. -/
def TabName.letters : TabName → Option (Char × Char)
  | .graphqlResult _ _ => some ('r', 'e')
  | .eventResult _ _ _ => some ('e', 'v')
  | .askResult _ => some ('a', 's')
  | .pipelineRun _ _ => some ('p', 'i')
  | .streamDetail _ _ => some ('s', 't')
  | .dslDetail _ _ | .newDetail _ _ => some ('d', 'e')
  | .activityDetail _ => some ('a', 'c')
  | .other _ => none

def Begins (l : Char × Char) (t : Text) : Prop := [l.1, l.2] <+: t

instance (l : Char × Char) (t : Text) : Decidable (Begins l t) := inferInstanceAs (Decidable (_ <+: _))

theorem Begins.append {l : Char × Char} {t : Text} (h : Begins l t) (t' : Text) : Begins l (t ++ t') :=
  h.trans (List.prefix_append t t')

theorem begins_id {n : TabName} {l : Char × Char} (h : n.letters = some l) : Begins l n.id := by
  cases n with
  | graphqlResult contextName now =>
    obtain rfl := Option.some.inj h
    have hlit : Begins ('r', 'e') "result:".toList := by decide +kernel
    exact ((hlit.append _).append _).append _
  | eventResult mapping stream now =>
    obtain rfl := Option.some.inj h
    have hlit : Begins ('e', 'v') "event:".toList := by decide +kernel
    exact ((((hlit.append _).append _).append _).append _).append _
  | askResult now =>
    obtain rfl := Option.some.inj h
    have hlit : Begins ('a', 's') "ask:".toList := by decide +kernel
    exact hlit.append _
  | pipelineRun pipelineName now =>
    obtain rfl := Option.some.inj h
    have hlit : Begins ('p', 'i') "pipeline:run:".toList := by decide +kernel
    exact ((hlit.append _).append _).append _
  | streamDetail mapping streamId =>
    obtain rfl := Option.some.inj h
    have hlit : Begins ('s', 't') "stream:".toList := by decide +kernel
    exact ((hlit.append _).append _).append _
  | dslDetail viewName id | newDetail viewName now =>
    obtain rfl := Option.some.inj h
    have hlit : Begins ('d', 'e') "detail:".toList := by decide +kernel
    exact ((hlit.append _).append _).append _
  | activityDetail turnId =>
    obtain rfl := Option.some.inj h
    have hlit : Begins ('a', 'c') "activity:detail:".toList := by decide +kernel
    exact hlit.append _
  | other id => cases h

/-- Ids of different families begin with different letters. -/
theorem ids_apart {n n' : TabName} {l l' : Char × Char} (h : n.letters = some l) (h' : n'.letters = some l')
    (hne : l ≠ l') : n.id ≠ n'.id := by
  intro heq
  have hbegins := begins_id h
  rw [heq] at hbegins
  have hsame : [l.1, l.2] = [l'.1, l'.2] :=
    (List.prefix_of_prefix_length_le hbegins (begins_id h') (le_refl 2)).eq_of_length rfl
  simp only [List.cons.injEq, and_true] at hsame
  exact hne (Prod.ext hsame.1 hsame.2)

/-- What is written before a text and a colon behind it. -/
theorem prefixed_eq_iff (t a b a' b' : Text) :
    t ++ a ++ [':'] ++ b = t ++ a' ++ [':'] ++ b' ↔ SameJoined a b a' b' := by
  simp only [List.append_assoc, List.singleton_append, List.append_cancel_left_eq]
  exact joined_eq_iff a b a' b'

theorem eventTabId_eq_iff (mapping stream mapping' stream' : Text) (now now' : Nat) :
    eventTabId mapping stream now = eventTabId mapping' stream' now' ↔
      SameJoined mapping stream mapping' stream' ∧ now = now' := by
  have hstamped (a a' : Text) : a ++ [':'] ++ stamp now = a' ++ [':'] ++ stamp now' ↔ a = a' ∧ now = now' := by
    rw [List.append_assoc, List.append_assoc]
    exact (joined_eq_iff a (stamp now) a' (stamp now')).trans (sameJoined_stamp a a' now now')
  exact (hstamped _ _).trans (and_congr_left fun _ => prefixed_eq_iff ..)

theorem askTabId_eq_iff (now now' : Nat) : askTabId now = askTabId now' ↔ now = now' :=
  (List.append_right_inj _).trans stamp_inj

theorem activityTabId_eq_iff (turnId turnId' : Text) :
    activityTabId turnId = activityTabId turnId' ↔ turnId = turnId' := List.append_right_inj _

/-- Two ids are one exactly when the names meet. -/
theorem TabName.id_eq_iff (n n' : TabName) : n.id = n'.id ↔ n.Meets n' := by
  cases n with
  | other id => exact Iff.rfl
  | graphqlResult contextName now =>
    cases n' with
    | other id => exact Iff.rfl
    | graphqlResult contextName' now' =>
      exact (prefixed_eq_iff ..).trans (sameJoined_stamp ..)
    | _ => exact iff_of_false (ids_apart rfl rfl (by decide)) fun h => h
  | eventResult mapping stream now =>
    cases n' with
    | other id => exact Iff.rfl
    | eventResult mapping' stream' now' =>
      exact eventTabId_eq_iff ..
    | _ => exact iff_of_false (ids_apart rfl rfl (by decide)) fun h => h
  | askResult now =>
    cases n' with
    | other id => exact Iff.rfl
    | askResult now' =>
      exact askTabId_eq_iff ..
    | _ => exact iff_of_false (ids_apart rfl rfl (by decide)) fun h => h
  | pipelineRun pipelineName now =>
    cases n' with
    | other id => exact Iff.rfl
    | pipelineRun pipelineName' now' =>
      exact (prefixed_eq_iff ..).trans (sameJoined_stamp ..)
    | _ => exact iff_of_false (ids_apart rfl rfl (by decide)) fun h => h
  | streamDetail mapping streamId =>
    cases n' with
    | other id => exact Iff.rfl
    | streamDetail mapping' streamId' => exact prefixed_eq_iff ..
    | _ => exact iff_of_false (ids_apart rfl rfl (by decide)) fun h => h
  | dslDetail viewName id =>
    cases n' with
    | other id => exact Iff.rfl
    | dslDetail viewName' id' => exact prefixed_eq_iff ..
    | newDetail viewName' now' => exact prefixed_eq_iff ..
    | _ => exact iff_of_false (ids_apart rfl rfl (by decide)) fun h => h
  | newDetail viewName now =>
    cases n' with
    | other id => exact Iff.rfl
    | dslDetail viewName' id' => exact prefixed_eq_iff ..
    | newDetail viewName' now' =>
      have hlast := sameJoined_last viewName viewName' (colon_not_mem_draftId now) (colon_not_mem_draftId now')
      refine (prefixed_eq_iff ..).trans (hlast.trans (and_congr_right fun _ => ?_))
      rw [draftId, draftId, List.append_cancel_left_eq, stamp_inj]
    | _ => exact iff_of_false (ids_apart rfl rfl (by decide)) fun h => h
  | activityDetail turnId =>
    cases n' with
    | other id => exact Iff.rfl
    | activityDetail turnId' =>
      exact activityTabId_eq_iff ..
    | _ => exact iff_of_false (ids_apart rfl rfl (by decide)) fun h => h

end Onisin.Ui
