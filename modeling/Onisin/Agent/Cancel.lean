import Onisin.Agent.Phases

/-!
Cancelling a turn: what a cancel request answers, what a turn sees when it looks at its flag,
and what becomes of a turn that saw the flag tripped, for any number of turns side by side.
-/

set_option autoImplicit false

namespace Onisin.Agent
open Lib

/-! The log, entry by entry. -/

section Log
variable (log : List Entry) (i : Nat)

theorem history_snoc (e : Entry) : history i (log ++ [e]) = history i log ++ (e.of i).toList := by
  simp only [history, List.filterMap_append]
  cases he : e.of i <;> simp [he]

@[simp] theorem history_start (req : ChatReq) : history i (log ++ [.start req]) = history i log := by
  simp [history_snoc, Entry.of]

@[simp] theorem history_cancel (turnId : Text) (answer : Bool) :
    history i (log ++ [.cancel turnId answer]) = history i log := by
  simp [history_snoc, Entry.of]

theorem history_act (j : Nat) (x : Exchange Action Answer) :
    history i (log ++ [.act j x]) = if j = i then history i log ++ [x] else history i log := by
  simp only [history_snoc, Entry.of]
  split <;> simp

@[simp] theorem acknowledged_start (req : ChatReq) (turnId : Text) :
    acknowledged (log ++ [.start req]) turnId = acknowledged log turnId := by
  simp [acknowledged, Entry.acknowledges]

@[simp] theorem acknowledged_act (j : Nat) (x : Exchange Action Answer) (turnId : Text) :
    acknowledged (log ++ [.act j x]) turnId = acknowledged log turnId := by
  simp [acknowledged, Entry.acknowledges]

@[simp] theorem acknowledged_cancel (turnId' turnId : Text) (answer : Bool) :
    acknowledged (log ++ [.cancel turnId' answer]) turnId =
      (acknowledged log turnId || (turnId' = turnId && answer)) := by
  simp [acknowledged, Entry.acknowledges]

theorem flagOf_snoc {h : History} {x : Exchange Action Answer}
    (hx : ∀ turnId, x.action ≠ .register turnId) : flagOf (h ++ [x]) = flagOf h := by
  cases h with
  | nil =>
    obtain ⟨a, r⟩ := x
    cases a with
    | register turnId => exact absurd rfl (hx turnId)
    | _ => rfl
  | cons y h =>
    obtain ⟨a, r⟩ := y
    cases a <;> rfl

theorem hasLeft_snoc {h : History} {x : Exchange Action Answer}
    (hx : ∀ turnId, x.action ≠ .deregister turnId) : HasLeft (h ++ [x]) ↔ HasLeft h := by
  simp only [HasLeft, List.mem_append, List.mem_singleton]
  constructor
  · rintro ⟨turnId, hmem | rfl⟩
    · exact ⟨turnId, hmem⟩
    · exact absurd rfl (hx turnId)
  · rintro ⟨turnId, hmem⟩
    exact ⟨turnId, .inl hmem⟩

end Log

/-! The service. -/

def Server.ids (s : Server) : List Text := s.turns.map fun t => t.req.turnId

/-- What an entry says is right, given what was logged before it. -/
def Entry.Sound (pre : List Entry) : Entry → Prop
  | .cancel turnId answer => answer = true ↔ InProgress pre turnId
  | .act i ⟨.aborted _, b⟩ =>
    ∀ turnId cancel, ⟨.register turnId, cancel⟩ ∈ history i pre → b = acknowledged pre turnId
  | _ => True

structure Tracked (serde : SerdeJson) (s : Server) : Prop where
  steps : ∀ i t, s.turns[i]? = some t → (runChat serde t.req).Steps (history i s.log) t.task
  fresh : ∀ i, s.turns.length ≤ i → history i s.log = []
  flag : ∀ i turnId cancel, s.ids[i]? = some turnId → flagOf (history i s.log) = some cancel →
    s.flags[cancel]? = some (acknowledged s.log turnId)
  own : ∀ i j cancel, flagOf (history i s.log) = some cancel →
    flagOf (history j s.log) = some cancel → i = j
  mapped : ∀ turnId cancel, s.cancels turnId = some cancel ↔ ∃ i, s.ids[i]? = some turnId ∧
    flagOf (history i s.log) = some cancel ∧ ¬ HasLeft (history i s.log)
  acked : ∀ turnId, acknowledged s.log turnId = true →
    ∃ i cancel, s.ids[i]? = some turnId ∧ flagOf (history i s.log) = some cancel
  sound : Justified Entry.Sound s.log

section Server
variable {serde : SerdeJson} {s : Server}

theorem Tracked.init : Tracked serde {} where
  steps := by simp
  fresh := by simp [history]
  flag := by simp [Server.ids]
  own := by simp [history, flagOf]
  mapped := by simp [Server.ids]
  acked := by simp [acknowledged]
  sound := justified_nil _

theorem ids_inj (h : s.ids.Nodup) {i j : Nat} {turnId : Text} (hi : s.ids[i]? = some turnId)
    (hj : s.ids[j]? = some turnId) : i = j := by
  obtain ⟨hlt, _⟩ := List.getElem?_eq_some_iff.mp hi
  exact (List.getElem?_inj hlt h).mp (hi.trans hj.symm)

theorem Tracked.phase (h : Tracked serde s) {i : Nat} {t : Turn} (ht : s.turns[i]? = some t) :
    Phase serde t.req (history i s.log) t.task :=
  phase_of_steps (h.steps i t ht)

theorem ids_some {i : Nat} {turnId : Text} (h : s.ids[i]? = some turnId) :
    ∃ t, s.turns[i]? = some t ∧ t.req.turnId = turnId := by
  simpa [Server.ids, List.getElem?_map] using h

theorem ids_of_turn {i : Nat} {t : Turn} (h : s.turns[i]? = some t) :
    s.ids[i]? = some t.req.turnId := by
  simp [Server.ids, List.getElem?_map, h]

theorem Tracked.turn_of_mem (h : Tracked serde s) {i : Nat} {x : Exchange Action Answer}
    (hx : x ∈ history i s.log) : ∃ t, s.turns[i]? = some t := by
  by_cases hi : i < s.turns.length
  · exact ⟨_, List.getElem?_eq_getElem hi⟩
  · rw [h.fresh i (by omega)] at hx
    simp at hx

theorem Tracked.inProgress_iff (h : Tracked serde s) (turnId : Text) :
    InProgress s.log turnId ↔ ∃ cancel, s.cancels turnId = some cancel := by
  constructor
  · rintro ⟨i, ⟨cancel, hreg⟩, hdereg⟩
    obtain ⟨t, ht⟩ := h.turn_of_mem hreg
    obtain ⟨rfl, hflag⟩ := (h.phase ht).registered hreg
    have hleft : ¬ HasLeft (history i s.log) := fun hl => hdereg ((h.phase ht).hasLeft_iff.mp hl)
    exact ⟨cancel, (h.mapped _ _).mpr ⟨i, ids_of_turn ht, hflag, hleft⟩⟩
  · rintro ⟨cancel, hc⟩
    obtain ⟨i, hi, hflag, hleft⟩ := (h.mapped _ _).mp hc
    obtain ⟨t, ht, rfl⟩ := ids_some hi
    exact ⟨i, ⟨cancel, (h.phase ht).flag_mem hflag⟩, fun hd => hleft ⟨_, hd⟩⟩

theorem Tracked.start (h : Tracked serde s) (req : ChatReq) :
    Tracked serde (step serde s (.start req)) := by
  have hids : (step serde s (.start req)).ids = s.ids ++ [req.turnId] := by
    simp [step, Server.ids]
  have hlen : s.ids.length = s.turns.length := by simp [Server.ids]
  have hold : ∀ {i : Nat} {turnId : Text} {cancel : Nat}, (s.ids ++ [req.turnId])[i]? = some turnId →
      flagOf (history i s.log) = some cancel → s.ids[i]? = some turnId := by
    intro i turnId cancel hi hf
    by_cases hlt : i < s.ids.length
    · rwa [List.getElem?_append_left hlt] at hi
    · rw [h.fresh i (by omega)] at hf
      simp [flagOf] at hf
  have hnew : ∀ {i : Nat} {turnId : Text}, s.ids[i]? = some turnId →
      (s.ids ++ [req.turnId])[i]? = some turnId := by
    intro i turnId hi
    obtain ⟨hlt, _⟩ := List.getElem?_eq_some_iff.mp hi
    rwa [List.getElem?_append_left hlt]
  constructor
  case steps =>
    intro i t ht
    simp only [step, history_start] at ht ⊢
    by_cases hlt : i < s.turns.length
    · rw [List.getElem?_append_left hlt] at ht
      exact h.steps i t ht
    · rw [List.getElem?_append_right (by omega)] at ht
      obtain ⟨hi, rfl⟩ : i - s.turns.length = 0 ∧ t = ⟨req, runChat serde req⟩ := by
        cases hd : i - s.turns.length with
        | zero => simpa [hd] using ht.symm
        | succ n => simp [hd] at ht
      rw [h.fresh i (by omega)]
      exact .refl _
  case fresh =>
    intro i hi
    simp only [step, history_start, List.length_append, List.length_singleton] at hi ⊢
    exact h.fresh i (by omega)
  case flag =>
    intro i turnId cancel hi hf
    rw [hids] at hi
    simp only [step, history_start, acknowledged_start] at hf ⊢
    exact h.flag i turnId cancel (hold hi hf) hf
  case own =>
    intro i j cancel hi hj
    simp only [step, history_start] at hi hj
    exact h.own i j cancel hi hj
  case mapped =>
    intro turnId cancel
    rw [hids]
    simp only [step, history_start, h.mapped]
    constructor
    · rintro ⟨i, hi, hf, hl⟩
      exact ⟨i, hnew hi, hf, hl⟩
    · rintro ⟨i, hi, hf, hl⟩
      exact ⟨i, hold hi hf, hf, hl⟩
  case acked =>
    intro turnId hack
    rw [hids]
    simp only [step, history_start, acknowledged_start] at hack ⊢
    obtain ⟨i, cancel, hi, hf⟩ := h.acked turnId hack
    exact ⟨i, cancel, hnew hi, hf⟩
  case sound => exact h.sound.snoc trivial

theorem Tracked.cancel (h : Tracked serde s) (hids : s.ids.Nodup) (turnId : Text) :
    Tracked serde (step serde s (.cancel turnId)) := by
  have hsound := (h.inProgress_iff turnId)
  simp only [step, Server.runCancel]
  cases hc : s.cancels turnId with
  | none =>
    have hack : ∀ t, acknowledged (s.log ++ [.cancel turnId false]) t = acknowledged s.log t := by
      simp
    constructor
    case sound => exact h.sound.snoc (by simpa [Entry.Sound, hc] using hsound)
    all_goals simp only [history_cancel, hack]
    · exact h.steps
    · exact h.fresh
    · exact h.flag
    · exact h.own
    · exact h.mapped
    · exact h.acked
  | some flag =>
    obtain ⟨i, hi, hf, hl⟩ := (h.mapped turnId flag).mp hc
    constructor
    case sound => exact h.sound.snoc (by simpa [Entry.Sound, hc] using hsound)
    all_goals simp only [history_cancel]
    · exact h.steps
    · exact h.fresh
    · intro j turnId' cancel hj hfj
      have hold := h.flag j turnId' cancel hj hfj
      by_cases hcf : flag = cancel
      · subst hcf
        obtain rfl := h.own j i flag hfj hf
        obtain rfl : turnId' = turnId := Option.some.inj (hj.symm.trans hi)
        have hlt := (List.getElem?_eq_some_iff.mp hold).1
        simp [hlt]
      · have hne : turnId ≠ turnId' := by
          rintro rfl
          obtain rfl := ids_inj hids hj hi
          exact hcf (Option.some.inj (hf.symm.trans hfj))
        simpa [hcf, hne] using hold
    · exact h.own
    · exact h.mapped
    · intro turnId' hack
      rw [acknowledged_cancel, Bool.or_eq_true] at hack
      rcases hack with hack | hack
      · exact h.acked turnId' hack
      · simp only [Bool.and_true, decide_eq_true_eq] at hack
        exact hack ▸ ⟨i, flag, hi, hf⟩

/-- The turn `i` takes its next action `a`, answered `r`, over the flags `s'`. -/
def Server.acted (s s' : Server) (i : Nat) (req : ChatReq) (p : Task ChatResult)
    (x : Exchange Action Answer) : Server :=
  { s' with turns := s.turns.set i ⟨req, p⟩, log := s.log ++ [.act i x] }

section Acting
variable {i : Nat} {req : ChatReq} {a : Action} {k : Answer a → Task ChatResult} {r : Answer a}
  {s' : Server}

theorem acted_turns (hi : s.turns[i]? = some ⟨req, .act a k⟩) (j : Nat) :
    (s.acted s' i req (k r) ⟨a, r⟩).turns[j]? =
      if i = j then some ⟨req, k r⟩ else s.turns[j]? := by
  have hlt := (List.getElem?_eq_some_iff.mp hi).1
  simp only [Server.acted, List.getElem?_set, hlt]
  split
  · subst j
    simp
  · rfl

theorem acted_ids (hi : s.turns[i]? = some ⟨req, .act a k⟩) :
    (s.acted s' i req (k r) ⟨a, r⟩).ids = s.ids := by
  refine List.ext_getElem? fun j => ?_
  simp only [Server.ids, List.getElem?_map, acted_turns hi]
  split
  · subst j
    simp [hi]
  · rfl

theorem Tracked.acted_steps (h : Tracked serde s) (hi : s.turns[i]? = some ⟨req, .act a k⟩)
    (j : Nat) (t : Turn) (ht : (s.acted s' i req (k r) ⟨a, r⟩).turns[j]? = some t) :
    (runChat serde t.req).Steps (history j (s.acted s' i req (k r) ⟨a, r⟩).log) t.task := by
  rw [acted_turns hi] at ht
  simp only [Server.acted, history_act]
  split
  · rename_i hij
    subst j
    rw [if_pos rfl] at ht
    cases ht
    exact (h.steps i _ hi).snoc rfl r
  · rename_i hij
    rw [if_neg hij] at ht
    exact h.steps j t ht

theorem Tracked.acted_fresh (h : Tracked serde s) (hi : s.turns[i]? = some ⟨req, .act a k⟩)
    (j : Nat) (hj : (s.acted s' i req (k r) ⟨a, r⟩).turns.length ≤ j) :
    history j (s.acted s' i req (k r) ⟨a, r⟩).log = [] := by
  obtain ⟨hlt, _⟩ := List.getElem?_eq_some_iff.mp hi
  simp only [Server.acted, List.length_set] at hj
  have hij : i ≠ j := by omega
  simp only [Server.acted, history_act, if_neg hij]
  exact h.fresh j hj

/-- An action of the loop leaves the flags and their table as they are. -/
theorem Tracked.inner (h : Tracked serde s) (hi : s.turns[i]? = some ⟨req, .act a k⟩)
    {cancel : Nat} (hf : flagOf (history i s.log) = some cancel)
    (ha : Inner req.turnId cancel a)
    (hr : ∀ b, (⟨a, r⟩ : Exchange Action Answer) = ⟨.aborted cancel, b⟩ →
      s.flags.getD cancel false = b) :
    Tracked serde (s.acted s i req (k r) ⟨a, r⟩) := by
  have hflag : ∀ j, flagOf (history j (s.acted s i req (k r) ⟨a, r⟩).log) =
      flagOf (history j s.log) := by
    intro j
    simp only [Server.acted, history_act]
    split
    · exact flagOf_snoc fun turnId heq => by subst heq; exact ha
    · rfl
  have hleft : ∀ j, HasLeft (history j (s.acted s i req (k r) ⟨a, r⟩).log) ↔
      HasLeft (history j s.log) := by
    intro j
    simp only [Server.acted, history_act]
    split
    · exact hasLeft_snoc fun turnId heq => by subst heq; exact ha
    · rfl
  have hack : acknowledged (s.acted s i req (k r) ⟨a, r⟩).log = acknowledged s.log := by
    funext turnId
    simp [Server.acted]
  constructor
  case steps => exact h.acted_steps hi
  case fresh => exact h.acted_fresh hi
  case sound =>
    refine h.sound.snoc ?_
    cases a with
    | aborted cancel' =>
      obtain rfl : cancel' = cancel := ha
      intro turnId cancel'' hmem
      obtain ⟨rfl, -⟩ := (h.phase hi).registered hmem
      have hb := h.flag i _ _ (ids_of_turn hi) hf
      have hval := hr r rfl
      rw [List.getD_eq_getElem?_getD, hb, Option.getD_some] at hval
      exact hval.symm
    | _ => trivial
  all_goals simp only [acted_ids hi, hflag, hleft, hack]
  · exact h.flag
  · exact h.own
  · exact h.mapped
  · exact h.acked

theorem flagOf_nil_ne {cancel : Nat} : flagOf [] ≠ some cancel := by simp [flagOf]

theorem Tracked.flag_lt (h : Tracked serde s) {j cancel : Nat}
    (hf : flagOf (history j s.log) = some cancel) : cancel < s.flags.length := by
  have hmem : history j s.log ≠ [] := fun hnil => flagOf_nil_ne (hnil ▸ hf)
  obtain ⟨x, hx⟩ := List.exists_mem_of_ne_nil _ hmem
  obtain ⟨t, ht⟩ := h.turn_of_mem hx
  exact (List.getElem?_eq_some_iff.mp (h.flag j _ cancel (ids_of_turn ht) hf)).1

/-- No cancel of a turn that is not registered yet was acknowledged. -/
theorem Tracked.unacknowledged (h : Tracked serde s) (hids : s.ids.Nodup) {turnId : Text}
    (hi : s.ids[i]? = some turnId) (hnil : history i s.log = []) :
    acknowledged s.log turnId = false := by
  by_contra hack
  obtain ⟨j, cancel, hj, hf⟩ := h.acked turnId (by simpa using hack)
  obtain rfl := ids_inj hids hj hi
  exact flagOf_nil_ne (hnil ▸ hf)

theorem history_other {x : Exchange Action Answer} {j : Nat} (hij : i ≠ j) (log : List Entry) :
    history j (log ++ [.act i x]) = history j log := by
  rw [history_act, if_neg hij]

/-- What a turn does leaves the flags of other ids where they are. -/
theorem Tracked.mapped_other (h : Tracked serde s) {turnId turnId' : Text} (hi : s.ids[i]? = some turnId)
    (hid : turnId' ≠ turnId) (x : Exchange Action Answer) (cancel : Nat) :
    s.cancels turnId' = some cancel ↔ ∃ j, s.ids[j]? = some turnId' ∧
      flagOf (history j (s.log ++ [.act i x])) = some cancel ∧
      ¬ HasLeft (history j (s.log ++ [.act i x])) := by
  rw [h.mapped]
  refine exists_congr fun j => and_congr_right fun hj => ?_
  have hij : i ≠ j := by
    rintro rfl
    exact hid (Option.some.inj (hj.symm.trans hi))
  rw [history_other hij]

theorem Tracked.register (h : Tracked serde s) (hids : s.ids.Nodup) {k : Nat → Task ChatResult}
    (hi : s.turns[i]? = some ⟨req, .act (.register req.turnId) k⟩) (hnil : history i s.log = []) :
    Tracked serde (s.acted { s with
      flags := s.flags ++ [false],
      cancels := Function.update s.cancels req.turnId (some s.flags.length) } i req
      (k s.flags.length) ⟨.register req.turnId, s.flags.length⟩) := by
  have hself : history i (s.log ++ [.act i ⟨.register req.turnId, s.flags.length⟩]) =
      [⟨.register req.turnId, s.flags.length⟩] := by rw [history_act, if_pos rfl, hnil]; rfl
  have hacted : (s.acted { s with
      flags := s.flags ++ [false],
      cancels := Function.update s.cancels req.turnId (some s.flags.length) } i req
      (k s.flags.length) ⟨.register req.turnId, s.flags.length⟩).ids = s.ids := acted_ids hi
  have hempty : ∀ x ∈ ([] : History), Inner req.turnId 0 x.action := by simp
  constructor
  case steps => exact h.acted_steps hi
  case fresh => exact h.acted_fresh hi
  case sound => exact h.sound.snoc trivial
  all_goals
    try simp only [hacted]
    simp only [Server.acted]
  case flag =>
    intro j turnId cancel hj hf
    rw [acknowledged_act]
    by_cases hij : i = j
    · subst j
      rw [hself] at hf
      cases hf
      obtain rfl : req.turnId = turnId := Option.some.inj ((ids_of_turn hi).symm.trans hj)
      simp [h.unacknowledged hids (ids_of_turn hi) hnil]
    · rw [history_other hij] at hf
      rw [List.getElem?_append_left (h.flag_lt hf)]
      exact h.flag j turnId cancel hj hf
  case own =>
    intro j j' cancel hj hj'
    by_cases hij : i = j
    · by_cases hij' : i = j'
      · exact hij.symm.trans hij'
      · subst j
        rw [hself] at hj
        rw [history_other hij'] at hj'
        cases hj
        exact absurd (h.flag_lt hj') (Nat.lt_irrefl _)
    · by_cases hij' : i = j'
      · subst j'
        rw [hself] at hj'
        rw [history_other hij] at hj
        cases hj'
        exact absurd (h.flag_lt hj) (Nat.lt_irrefl _)
      · rw [history_other hij] at hj
        rw [history_other hij'] at hj'
        exact h.own j j' cancel hj hj'
  case mapped =>
    intro turnId cancel
    by_cases hid : turnId = req.turnId
    · subst hid
      rw [Function.update_self]
      constructor
      · rintro ⟨⟩
        refine ⟨i, ids_of_turn hi, ?_, ?_⟩
        · rw [hself]
          rfl
        · rw [hself]
          exact not_hasLeft hempty
      · rintro ⟨j, hj, hf, -⟩
        obtain rfl := ids_inj hids hj (ids_of_turn hi)
        rw [hself] at hf
        exact hf
    · rw [Function.update_of_ne hid]
      exact h.mapped_other (ids_of_turn hi) hid _ cancel
  case acked =>
    intro turnId hack
    rw [acknowledged_act] at hack
    obtain ⟨j, cancel, hj, hf⟩ := h.acked turnId hack
    have hij : i ≠ j := by
      rintro rfl
      exact flagOf_nil_ne (hnil ▸ hf)
    exact ⟨j, cancel, hj, by rwa [history_other hij]⟩

theorem Tracked.deregister (h : Tracked serde s) (hids : s.ids.Nodup) {k : Unit → Task ChatResult}
    (hi : s.turns[i]? = some ⟨req, .act (.deregister req.turnId) k⟩) :
    Tracked serde (s.acted { s with cancels := Function.update s.cancels req.turnId none } i req
      (k ()) ⟨.deregister req.turnId, ()⟩) := by
  have hflag : ∀ j, flagOf (history j (s.log ++ [.act i ⟨.deregister req.turnId, ()⟩])) =
      flagOf (history j s.log) := by
    intro j
    rw [history_act]
    split
    · exact flagOf_snoc (by simp)
    · rfl
  have hself : HasLeft (history i (s.log ++ [.act i ⟨.deregister req.turnId, ()⟩])) := by
    rw [history_act, if_pos rfl]
    exact ⟨req.turnId, by simp⟩
  have hacted : (s.acted { s with cancels := Function.update s.cancels req.turnId none } i req
      (k ()) ⟨.deregister req.turnId, ()⟩).ids = s.ids := acted_ids hi
  constructor
  case steps => exact h.acted_steps hi
  case fresh => exact h.acted_fresh hi
  case sound => exact h.sound.snoc trivial
  all_goals
    try simp only [hacted]
    simp only [Server.acted, acknowledged_act]
  case flag =>
    intro j turnId cancel hj hf
    rw [hflag] at hf
    exact h.flag j turnId cancel hj hf
  case own =>
    intro j j' cancel hj hj'
    rw [hflag] at hj hj'
    exact h.own j j' cancel hj hj'
  case acked =>
    intro turnId hack
    obtain ⟨j, cancel, hj, hf⟩ := h.acked turnId hack
    exact ⟨j, cancel, hj, (hflag j).trans hf⟩
  case mapped =>
    intro turnId cancel
    by_cases hid : turnId = req.turnId
    · subst hid
      rw [Function.update_self]
      constructor
      · rintro ⟨⟩
      · rintro ⟨j, hj, -, hl⟩
        obtain rfl := ids_inj hids hj (ids_of_turn hi)
        exact absurd hself hl
    · rw [Function.update_of_ne hid]
      exact h.mapped_other (ids_of_turn hi) hid _ cancel

end Acting

theorem step_turn (i : Nat) (o : (a : Action) → Answer a) :
    step serde s (.turn i o) = s ∨ ∃ req a k, s.turns[i]? = some ⟨req, .act a k⟩ ∧
      step serde s (.turn i o) =
        s.acted (s.perform o a).2 i req (k (s.perform o a).1) ⟨a, (s.perform o a).1⟩ := by
  simp only [step]
  split
  · rename_i req a k ht
    exact .inr ⟨req, a, k, ht, rfl⟩
  · exact .inl rfl

theorem Tracked.turn (h : Tracked serde s) (hids : s.ids.Nodup) (i : Nat)
    (o : (a : Action) → Answer a) : Tracked serde (step serde s (.turn i o)) := by
  rcases step_turn i o with hs | ⟨req, a, k, hi, hs⟩
  · rwa [hs]
  · rw [hs]
    have hnext : (history i s.log = [] ∧ a = .register req.turnId) ∨
        ∃ cancel, flagOf (history i s.log) = some cancel ∧ ¬ HasLeft (history i s.log) ∧
          (Inner req.turnId cancel a ∨ a = .deregister req.turnId) := (h.phase hi).next
    rcases hnext with ⟨hnil, rfl⟩ | ⟨cancel, hf, hl, hinner | rfl⟩
    · exact h.register hids hi hnil
    · cases a with
      | aborted cancel' =>
        obtain rfl : cancel' = cancel := hinner
        exact h.inner hi hf rfl fun b hb => by cases hb; rfl
      | register turnId => exact absurd hinner id
      | deregister turnId => exact absurd hinner id
      | emit turnId event => exact h.inner hi hf hinner fun b hb => by cases hb
      | request subject payload => exact h.inner hi hf hinner fun b hb => by cases hb
      | chatCompletion messages => exact h.inner hi hf hinner fun b hb => by cases hb
    · exact h.deregister hids hi

theorem ids_step (cmd : Command) : ∃ more, (step serde s cmd).ids = s.ids ++ more := by
  cases cmd with
  | start req => exact ⟨[req.turnId], by simp [step, Server.ids]⟩
  | turn i o =>
    refine ⟨[], ?_⟩
    have hturn : step serde s (.turn i o) = s ∨ _ := step_turn i o
    rcases hturn with hs | ⟨req, a, k, hi, hs⟩
    · rw [hs, List.append_nil]
    · rw [hs, acted_ids hi, List.append_nil]
  | cancel turnId =>
    refine ⟨[], ?_⟩
    simp only [step, Server.runCancel, Server.ids, List.append_nil]
    split <;> rfl

theorem tracked_step (cmd : Command) (h : s.ids.Nodup → Tracked serde s)
    (hids : (step serde s cmd).ids.Nodup) : Tracked serde (step serde s cmd) := by
  obtain ⟨more, hmore⟩ : ∃ more, (step serde s cmd).ids = s.ids ++ more := ids_step cmd
  have hs : s.ids.Nodup := (List.nodup_append.mp (hmore ▸ hids)).1
  cases cmd with
  | start req => exact (h hs).start req
  | turn i o => exact (h hs).turn hs i o
  | cancel turnId => exact (h hs).cancel hs turnId

theorem tracked_run (serde : SerdeJson) (cmds : List Command)
    (hids : (run (step serde) {} cmds).ids.Nodup) : Tracked serde (run (step serde) {} cmds) := by
  have hkeep : ∀ (s : Server) (cmd : Command), (s.ids.Nodup → Tracked serde s) →
      (step serde s cmd).ids.Nodup → Tracked serde (step serde s cmd) :=
    fun s cmd h => tracked_step cmd h
  exact run_keeps hkeep (fun _ => Tracked.init) cmds hids

/-- Each look of a turn is answered by whether its own cancel was acknowledged before. -/
theorem Tracked.look (h : Tracked serde s) {pre post : List Entry} {i : Nat} {cancel : Nat}
    {b : Bool} {t : Turn} (hlog : s.log = pre ++ .act i ⟨.aborted cancel, b⟩ :: post)
    (ht : s.turns[i]? = some t) : b = acknowledged pre t.req.turnId := by
  have hsplit : history i s.log = history i pre ++ ⟨.aborted cancel, b⟩ :: history i post := by
    simp [hlog, history, Entry.of]
  have hphase := h.phase ht
  rw [hsplit] at hphase
  obtain ⟨flag, hreg⟩ := hphase.starts (by simp)
  exact h.sound pre _ post hlog _ flag hreg

theorem mem_checks_history {log : List Entry} {i : Nat} {b : Bool} :
    b ∈ checks (history i log) ↔
      ∃ pre cancel post, log = pre ++ .act i ⟨.aborted cancel, b⟩ :: post := by
  constructor
  · intro hmem
    obtain ⟨⟨a, r⟩, hx, hlook⟩ := List.mem_filterMap.mp hmem
    obtain ⟨e, he, hof⟩ := List.mem_filterMap.mp hx
    cases a with
    | aborted cancel =>
      cases hlook
      cases e with
      | act j x =>
        simp only [Entry.of] at hof
        split at hof
        · rename_i hij
          subst hij
          cases hof
          obtain ⟨pre, post, rfl⟩ := List.append_of_mem he
          exact ⟨pre, cancel, post, rfl⟩
        · cases hof
      | start req => cases hof
      | cancel turnId answer => cases hof
    | _ => cases hlook
  · rintro ⟨pre, cancel, post, rfl⟩
    simp [history, Entry.of]

theorem eventStream_eq {log : List Entry} {i : Nat} {turnId : Text}
    (h : ∀ j turnId' event r, .act j ⟨.emit turnId' event, r⟩ ∈ log → (turnId' = turnId ↔ j = i)) :
    eventStream turnId log = events (history i log) := by
  induction log with
  | nil => rfl
  | cons e log ih =>
    have hrest := ih fun j turnId' event r hmem => h j turnId' event r (List.mem_cons_of_mem _ hmem)
    have hcons : ∀ o : Option AgentEvent, e.event turnId = o →
        ((e.of i).bind fun x => x.action.emitted) = o →
        eventStream turnId (e :: log) = events (history i (e :: log)) := by
      intro o hevent hof
      simp only [eventStream, history, List.filterMap_cons, hevent] at hrest ⊢
      cases hx : e.of i with
      | none =>
        simp only [hx, Option.bind_none] at hof
        subst hof
        exact hrest
      | some x =>
        simp only [hx, Option.bind_some] at hof
        subst hof
        dsimp only
        rw [events_cons]
        cases x.action.emitted with
        | none => exact hrest
        | some event => exact congrArg (event :: ·) hrest
    cases e with
    | start req => exact hcons none rfl rfl
    | cancel turnId' answer => exact hcons none rfl rfl
    | act j x =>
      obtain ⟨a, r⟩ := x
      cases a with
      | emit turnId' event =>
        have hiff := h j turnId' event r List.mem_cons_self
        by_cases hj : j = i
        · refine hcons (some event) ?_ ?_
          · simp [Entry.event, hiff.mpr hj]
          · simp [Entry.of, hj]
        · refine hcons none ?_ ?_
          · simp [Entry.event, mt hiff.mp hj]
          · simp [Entry.of, hj]
      | _ =>
        refine hcons none rfl ?_
        simp only [Entry.of]
        split <;> rfl

theorem Tracked.eventStream (h : Tracked serde s) (hids : s.ids.Nodup) {i : Nat} {t : Turn}
    (ht : s.turns[i]? = some t) :
    eventStream t.req.turnId s.log = events (history i s.log) := by
  refine eventStream_eq fun j turnId event r hmem => ?_
  have hx : ⟨.emit turnId event, r⟩ ∈ history j s.log :=
    List.mem_filterMap.mpr ⟨_, hmem, by simp [Entry.of]⟩
  obtain ⟨u, hu⟩ := h.turn_of_mem hx
  obtain rfl := (h.phase hu).emits hx
  constructor
  · intro heq
    exact ids_inj hids (ids_of_turn hu) (heq ▸ ids_of_turn ht)
  · rintro rfl
    rw [Option.some.inj (hu.symm.trans ht)]

end Server

/-- For any number of turns with distinct ids, side by side, and cancels at any moment. A cancel
is acknowledged exactly while its turn is registered. A turn looks at its flag before each call
of the model and of a tool and behind a call that failed, and sees whether a cancel of its own
was acknowledged before. It ends cancelled exactly if it looked after such an acknowledgement. -/
theorem cancel_seen (serde : SerdeJson) (cmds : List Command) (s : Server)
    (hs : s = run (step serde) {} cmds) (hids : (s.turns.map fun t => t.req.turnId).Nodup) :
    (∀ pre turnId answer post, s.log = pre ++ .cancel turnId answer :: post →
      (answer = true ↔ InProgress pre turnId)) ∧
    (∀ pre i cancel b post t, s.log = pre ++ .act i ⟨.aborted cancel, b⟩ :: post →
      s.turns[i]? = some t → b = acknowledged pre t.req.turnId) ∧
    ∀ i t, s.turns[i]? = some t → Justified Guarded (history i s.log) ∧
      ∀ r, t.task = .ret r →
        (EndsCancelled s.log t.req.turnId r ↔ LookedAfterCancel s.log i t.req.turnId) := by
  subst hs
  have h := tracked_run serde cmds hids
  refine ⟨fun pre turnId answer post hlog => h.sound pre _ post hlog,
    fun pre i cancel b post t hlog ht => h.look hlog ht, fun i t ht => ⟨?_, fun r hr => ?_⟩⟩
  · exact (runChat_guarded serde t.req).invariant (h.steps i t ht)
  · have hphase := h.phase ht
    rw [hr] at hphase
    obtain ⟨⟨tools, htools, hevents⟩, hstatus⟩ := hphase.ended
    have hlooked : r.trace.status = .cancelled ↔
        LookedAfterCancel (run (step serde) {} cmds).log i t.req.turnId := by
      rw [hstatus, mem_checks_history]
      constructor
      · rintro ⟨pre, cancel, post, hlog⟩
        exact ⟨pre, cancel, true, post, hlog, (h.look hlog ht).symm⟩
      · rintro ⟨pre, cancel, b, post, hlog, hack⟩
        exact ⟨pre, cancel, post, by rw [hlog, h.look hlog ht, hack]⟩
    constructor
    · exact fun hends => hlooked.mp hends.1
    · intro hlook
      have hcancelled := hlooked.mpr hlook
      refine ⟨hcancelled, tools, ?_⟩
      rw [h.eventStream hids ht, hevents, ChatResult.outcome, hcancelled]

/-- A model that cannot be reached. -/
def failing : (a : Action) → Answer a
  | .chatCompletion _ => Except.error "timeout".toList
  | a => prose a

/-- Two turns side by side. The cancel of the first arrives during a call of the model, which then
fails; a second one comes when the turn is over. -/
def timelyCancel : List Command :=
  [.start { turnId := ['t'], user := ['c'] }, .start { turnId := ['u'], user := ['c'] },
    .turn 0 prose, .turn 1 prose, .turn 0 prose, .turn 1 prose, .turn 0 prose, .turn 1 prose,
    .turn 0 prose, .cancel ['t'], .turn 0 failing, .turn 1 prose, .turn 0 prose, .turn 0 prose,
    .turn 0 prose, .turn 0 prose, .cancel ['t'], .turn 1 prose, .turn 1 prose, .turn 1 prose]

theorem cancel_seen_timely :
    let s := run (step sampleSerde) {} timelyCancel
    (∃ t r, s.turns[0]? = some t ∧ t.task = .ret r ∧ EndsCancelled s.log ['t'] r) ∧
      LookedAfterCancel s.log 0 ['t'] ∧ ¬ LookedAfterCancel s.log 1 ['u'] := by
  have hseen := cancel_seen sampleSerde timelyCancel _ rfl (by decide)
  have hfirst := (hseen.2.2 0 _ rfl).2 _ rfl
  have hsecond := (hseen.2.2 1 _ rfl).2 _ rfl
  refine ⟨⟨_, _, rfl, rfl, rfl, [], rfl⟩, hfirst.mp ⟨rfl, [], rfl⟩, fun hlooked => ?_⟩
  exact absurd (hsecond.mpr hlooked).1 (by decide)

/-- A turn whose cancel arrives while the model is writing the answer. -/
def lateCancel : List Command :=
  [.start { turnId := ['t'], user := ['c'] }, .turn 0 prose, .turn 0 prose, .turn 0 prose,
    .turn 0 prose, .cancel ['t'], .turn 0 prose, .turn 0 prose, .turn 0 prose]

/-- The cancel of `lateCancel` is acknowledged, and the turn ends with the answer all the same. -/
theorem acknowledged_not_cancelled :
    ¬ (∀ (serde : SerdeJson) (cmds : List Command) (s : Server),
      s = run (step serde) {} cmds →
      (s.turns.map fun t => t.req.turnId).Nodup →
      ∀ (i : Nat) (t : Turn) (r : ChatResult), s.turns[i]? = some t →
      t.task = .ret r → acknowledged s.log t.req.turnId = true →
      EndsCancelled s.log t.req.turnId r) := by
  intro hall
  have hstatus := (hall sampleSerde lateCancel _ rfl (by decide) 0 _ _ rfl rfl rfl).1
  exact absurd hstatus (by decide)

end Onisin.Agent
