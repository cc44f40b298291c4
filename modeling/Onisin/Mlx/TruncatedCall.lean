import Onisin.Mlx.Accelerated
import Mathlib.Data.List.Count

/-!
A call that is still open when the generation ends. Families with a close marker drop it,
and the caller only learns of it from the finish reason. That reason is made from the calls
that are left and from the length of the output, not from the drop.
-/

set_option autoImplicit false

namespace Onisin.Mlx
open Lib

/-! A request with its routing made visible. -/

/-- `run_generation` up to the end of the loop. -/
def Family.routed (f : Family)
    (generateGreedy : List Int32 → Nat → Except Text (Option (List UInt32))) (params : GenParams)
    (promptIds picks : List Int32) : Except Text Routing := do
  let accelerated ←
    (if params.greedy && params.tools.isEmpty then generateGreedy promptIds params.maxTokens
    else .ok none)
  return match accelerated with
    | some tokens => { out := tokens }
    | none => Mlx.runGeneration f.toolmark f.channel false f.stop params.maxTokens picks

/-- The flag `drop_truncated`. -/
def Family.dropTruncated (f : Family) (s : Routing) : Bool :=
  s.inToolCall && (f.toolmark.bind ToolCallMarkers.closes).isSome

section Request
variable {f : Family} {params : GenParams} {promptIds picks : List Int32} {g : Generation}

theorem runGeneration_routed
    (generateGreedy : List Int32 → Nat → Except Text (Option (List UInt32))) :
    f.runGeneration generateGreedy params promptIds picks =
      (f.routed generateGreedy params promptIds picks >>= f.finish promptIds.length params.maxTokens) := by
  unfold Family.runGeneration Family.routed
  generalize (if params.greedy && params.tools.isEmpty then generateGreedy promptIds params.maxTokens
    else Except.ok none) = accelerated
  cases accelerated <;> rfl

/-- The accelerated path has no span that could be dropped. -/
theorem routed_of_dropped {generateGreedy : List Int32 → Nat → Except Text (Option (List UInt32))}
    {s : Routing} (h : f.routed generateGreedy params promptIds picks = .ok s)
    (hdrop : f.dropTruncated s = true) :
    s = Mlx.runGeneration f.toolmark f.channel false f.stop params.maxTokens picks := by
  obtain ⟨accelerated, -, h⟩ := bind_eq_ok.mp h
  obtain rfl := Except.ok.inj h
  cases accelerated with
  | none => rfl
  | some tokens => cases hdrop

/-! A request with a listener ends in the same routing. -/

theorem runStreamed_routed {pieces : List Piece}
    (h : f.runStreamed params promptIds picks = .ok (g, pieces)) :
    f.finish promptIds.length params.maxTokens
      (Mlx.runGeneration f.toolmark f.channel true f.stop params.maxTokens picks) = .ok g := by
  obtain ⟨looped, hloop, h⟩ := bind_eq_ok.mp h
  obtain ⟨s, hflush, h⟩ := bind_eq_ok.mp h
  obtain ⟨g', hfinish, h⟩ := bind_eq_ok.mp h
  obtain ⟨rfl, -⟩ := Prod.mk.inj (Except.ok.inj h)
  have hrouting : s.routing = runGeneration f.toolmark f.channel true f.stop params.maxTokens picks :=
    (flush_routing hflush).trans (streamLoop_routing hloop)
  rw [← hrouting]
  exact (ok_of_mapError _).mp hfinish

end Request

/-! What a dropped call leaves behind. -/

theorem finishReason_length_iff {calls : List ToolCall} {completion maxTokens : Nat} :
    finishReason calls completion maxTokens = "length".toList ↔
      calls = [] ∧ maxTokens ≤ completion := by
  unfold finishReason
  cases calls with
  | cons call calls =>
    simp only [List.isEmpty_cons, Bool.not_false, if_true]
    exact iff_of_false (by decide) (fun h => List.cons_ne_nil _ _ h.1)
  | nil =>
    simp only [List.isEmpty_nil, Bool.not_true, Bool.false_eq_true, if_false, true_and]
    split
    · next hlt => exact iff_of_false (by decide) (by omega)
    · next hge => exact iff_of_true rfl (by omega)

section Dropped
variable {f : Family} {t : ToolCallMarkers} {emit : Bool} {maxTokens promptTokens : Nat}
  {picks : List Int32} {g : Generation}

/-- The tokens before the first stop token, within the budget. -/
def keptPicks (f : Family) (maxTokens : Nat) (picks : List Int32) : List Int32 :=
  (picks.takeWhile fun tok => !f.stop.contains tok).take maxTokens

/-- A loop that ends inside a call has kept everything up to a stop token or the budget. -/
theorem run_inside (htool : f.toolmark = some t)
    (hin : (runGeneration f.toolmark f.channel emit f.stop maxTokens picks).inToolCall = true) :
    (runGeneration f.toolmark f.channel emit f.stop maxTokens picks).out.length =
        (keptPicks f maxTokens picks).length ∧
      (runGeneration f.toolmark f.channel emit f.stop maxTokens picks).toolSpans.length =
        (keptPicks f maxTokens picks).count t.opens ∧
      (runGeneration f.toolmark f.channel emit f.stop maxTokens picks).toolSpans ≠ [] := by
  have hcut : runGeneration f.toolmark f.channel emit f.stop maxTokens picks =
      decodeLoop f.toolmark f.channel emit [] {} (keptPicks f maxTokens picks) := by
    rw [runGeneration, decodeLoop_cut, keptPicks, List.take_takeWhile]
  rw [hcut] at hin ⊢
  generalize keptPicks f maxTokens picks = toks at hin ⊢
  have htracks : Tracks f.toolmark f.channel emit (decodeLoop f.toolmark f.channel emit [] {} toks) :=
    decodeLoop_tracks [] (tracks_start emit) toks
  obtain ⟨rest, hrest, hend⟩ := decodeLoop_rest f.toolmark f.channel emit {} toks
  generalize decodeLoop f.toolmark f.channel emit [] {} toks = s at htracks hrest hend hin ⊢
  rcases hend with rfl | ⟨hclosed, -⟩
  · have hout : s.out = toks.map Int32.toUInt32 := by
      rw [List.append_nil] at hrest
      exact hrest.symm
    have hspans : s.toolSpans =
        markerSpans t.opens.toUInt32 (t.closes.map Int32.toUInt32) (toks.map Int32.toUInt32) := by
      rw [htracks.spans, htool, hout]
      rfl
    refine ⟨by rw [hout, List.length_map], ?_, ?_⟩
    · rw [hspans, markerSpans_length]
      exact List.count_map_of_injective toks _ (fun x y => toUInt32_eq_iff.mp) t.opens
    · have hinside : insideAfter t.opens.toUInt32 (t.closes.map Int32.toUInt32) false
          (toks.map Int32.toUInt32) = true := by
        rw [htracks.inside, htool, hout] at hin
        exact hin
      rw [hspans]
      exact markerSpans_ne_nil hinside
  · rw [hclosed] at hin
    cases hin

theorem finish_of_dropped (htool : f.toolmark = some t)
    (hdrop : f.dropTruncated (runGeneration f.toolmark f.channel emit f.stop maxTokens picks) = true)
    (hg : f.finish promptTokens maxTokens
      (runGeneration f.toolmark f.channel emit f.stop maxTokens picks) = .ok g) :
    g.finish = "length".toList ↔
      maxTokens ≤ (keptPicks f maxTokens picks).length ∧
        (keptPicks f maxTokens picks).count t.opens = 1 := by
  obtain ⟨hin, -⟩ := Bool.and_eq_true_iff.mp hdrop
  obtain ⟨hlength, hcount, hspans⟩ := run_inside htool hin
  obtain ⟨calls, hcalls, -, hgen⟩ := finish_ok hg
  have hkept := toolCalls_length hcalls
  have hcomplete : f.completeSpans (runGeneration f.toolmark f.channel emit f.stop maxTokens picks) =
      (runGeneration f.toolmark f.channel emit f.stop maxTokens picks).toolSpans.dropLast := by
    rw [Family.completeSpans]
    exact if_pos hdrop
  rw [hcomplete, List.length_dropLast, hcount] at hkept
  have hpos := List.length_pos_iff.mpr hspans
  rw [hcount] at hpos
  rw [hgen]
  simp only
  rw [finishReason_length_iff, hlength, ← List.length_eq_zero_iff, hkept]
  omega

/-- With no stop token within the budget, the kept tokens are the budget's. -/
theorem keptPicks_full
    (h : maxTokens ≤ (picks.takeWhile fun tok => !f.stop.contains tok).length) :
    keptPicks f maxTokens picks = picks.take maxTokens := by
  obtain ⟨rest, hrest⟩ := List.takeWhile_prefix (l := picks) fun tok => !f.stop.contains tok
  have htake : picks.take maxTokens = keptPicks f maxTokens picks := by
    rw [← hrest, List.take_append_of_le_length h, hrest]
    rfl
  exact htake.symm

theorem keptPicks_iff (t : ToolCallMarkers) :
    (maxTokens ≤ (keptPicks f maxTokens picks).length ∧
        (keptPicks f maxTokens picks).count t.opens = 1) ↔
      maxTokens ≤ (picks.takeWhile fun tok => !f.stop.contains tok).length ∧
        (picks.take maxTokens).count t.opens = 1 := by
  have hlen : (keptPicks f maxTokens picks).length =
      min maxTokens (picks.takeWhile fun tok => !f.stop.contains tok).length := List.length_take
  constructor
  · rintro ⟨hfull, hcount⟩
    have hbudget : maxTokens ≤ (picks.takeWhile fun tok => !f.stop.contains tok).length := by omega
    rw [keptPicks_full hbudget] at hcount
    exact ⟨hbudget, hcount⟩
  · rintro ⟨hbudget, hcount⟩
    rw [keptPicks_full hbudget] at hlen ⊢
    exact ⟨by omega, hcount⟩

end Dropped

/-- A dropped call is reported as truncated exactly if the budget was used up before any stop
token and no other call was opened. -/
theorem dropped_call_length_iff {f : Family} {t : ToolCallMarkers} (htool : f.toolmark = some t)
    (params : GenParams) (promptIds picks : List Int32) (g : Generation) :
    (∀ generateGreedy s, f.routed generateGreedy params promptIds picks = .ok s →
      f.dropTruncated s = true → f.runGeneration generateGreedy params promptIds picks = .ok g →
      (g.finish = "length".toList ↔
        params.maxTokens ≤ (picks.takeWhile fun tok => !f.stop.contains tok).length ∧
          (picks.take params.maxTokens).count t.opens = 1)) ∧
    (∀ pieces, f.runStreamed params promptIds picks = .ok (g, pieces) →
      f.dropTruncated (Mlx.runGeneration f.toolmark f.channel true f.stop params.maxTokens picks) = true →
      (g.finish = "length".toList ↔
        params.maxTokens ≤ (picks.takeWhile fun tok => !f.stop.contains tok).length ∧
          (picks.take params.maxTokens).count t.opens = 1)) := by
  constructor
  · intro generateGreedy s hs hdrop hg
    obtain rfl := routed_of_dropped hs hdrop
    rw [runGeneration_routed, hs] at hg
    rw [finish_of_dropped htool hdrop hg]
    exact keptPicks_iff t
  · intro pieces hg hdrop
    rw [finish_of_dropped htool hdrop (runStreamed_routed hg)]
    exact keptPicks_iff t

def truncatedCall : Generation where
  text := []
  reasoning := none
  promptTokens := 1
  completionTokens := 2
  finish := "length".toList
  toolCalls := []

def cutParams (maxTokens : Nat) : GenParams := { maxTokens := maxTokens, greedy := false, tools := [] }

/-- The budget runs out inside the only call. -/
theorem dropped_call_length_iff_budget :
    truncatedCall.finish = "length".toList ↔
      (cutParams 2).maxTokens ≤ ([48, 4, 1, 106].takeWhile fun tok => !sampleFamily.stop.contains tok).length ∧
        ([48, 4, 1, 106].take (cutParams 2).maxTokens).count 48 = 1 :=
  (@dropped_call_length_iff sampleFamily ⟨48, some 49⟩ rfl (cutParams 2) [7] [48, 4, 1, 106]
    truncatedCall).1 noGreedy _ rfl rfl rfl

/-- The model ends its turn inside the call: the reason is "stop". Behind a complete call it is
"tool_calls", and the caller gets that one alone. -/
theorem dropped_call_unreported :
    (sampleFamily.routed noGreedy (cutParams 8) [7] [48, 4, 106]).map sampleFamily.dropTruncated =
        .ok true ∧
      (sampleFamily.runGeneration noGreedy (cutParams 8) [7] [48, 4, 106]).map Generation.finish =
        .ok "stop".toList ∧
      (sampleFamily.routed noGreedy (cutParams 5) [7] [48, 4, 49, 48, 4]).map
        sampleFamily.dropTruncated = .ok true ∧
      (sampleFamily.runGeneration noGreedy (cutParams 5) [7] [48, 4, 49, 48, 4]).map
        Generation.finish = .ok "tool_calls".toList :=
  ⟨rfl, rfl, rfl, rfl⟩

end Onisin.Mlx
