import Onisin.Mlx.Generation

/-!
What a listener of a streamed request has received. Of each view it has got some text that
every later decode of the view starts with, less the name line; after the final flush that is
the whole decode, unless the decode ends in the stand-in for an incomplete character or is
still the beginning of a name line.
-/

set_option autoImplicit false

namespace Onisin.Mlx
open Lib

/-- The text behind the name line, if it starts with one. -/
def body (skipPrefix : Option Text) (text : Text) : Text :=
  (skipPrefix.bind fun p => Text.stripPrefix p text).getD text

section Body
variable {skip : Option Text} {done rest text : Text}

@[simp] theorem body_none (text : Text) : body none text = text := rfl

@[simp] theorem body_named (p rest : Text) : body (some p) (p ++ rest) = rest := by
  simp [body, Text.stripPrefix_append]

theorem body_other {p : Text} (h : ¬ p <+: text) : body (some p) text = text := by
  simp [body, Text.stripPrefix_none h]

theorem namePending_iff {p : Text} :
    namePending (some p) text = true ↔ byteLen text < byteLen p ∧ text <+: p := by
  simp [namePending]

/-- Once a text is no beginning of a name line, what it is continued by is body. -/
theorem body_append (h : namePending skip done = false) : body skip (done ++ rest) = body skip done ++ rest := by
  cases skip with
  | none => rfl
  | some p =>
    by_cases hp : p <+: done
    · obtain ⟨x, rfl⟩ := hp
      rw [List.append_assoc, body_named, body_named]
    · have hlong : ¬ p <+: done ++ rest := by
        intro hpre
        rcases List.prefix_or_prefix_of_prefix hpre (List.prefix_append done rest) with hle | hle
        · exact hp hle
        · have hne : done ≠ p := fun he => hp (he ▸ List.prefix_refl p)
          have hpending := namePending_iff.mpr ⟨byteLen_lt hle hne, hle⟩
          rw [h] at hpending
          cases hpending
      rw [body_other hp, body_other hlong]

theorem namePending_append (h : namePending skip done = false) (rest : Text) :
    namePending skip (done ++ rest) = false := by
  cases skip with
  | none => rfl
  | some p =>
    refine Bool.eq_false_iff.mpr fun hlong => ?_
    obtain ⟨hlt, hpre⟩ := namePending_iff.mp hlong
    have hshort : namePending (some p) done = true := by
      refine namePending_iff.mpr ⟨?_, (List.prefix_append done rest).trans hpre⟩
      rw [byteLen_append] at hlt
      omega
    rw [h] at hshort
    cases hshort

theorem body_suffix (skip : Option Text) (text : Text) : body skip text <:+ text := by
  cases skip with
  | none => exact List.suffix_refl text
  | some p =>
    by_cases hp : p <+: text
    · obtain ⟨x, rfl⟩ := hp
      rw [body_named]
      exact List.suffix_append p x
    · rw [body_other hp]

theorem body_getLast {c : Char} (h : text.getLast? ≠ some c) : (body skip text).getLast? ≠ some c := by
  obtain ⟨front, hfront⟩ := body_suffix skip text
  intro hlast
  apply h
  rw [← hfront, List.getLast?_append, hlast]
  rfl

end Body

/-! One delta. -/

/-- The skipped prefix is a line with a name of its own. -/
def IsLine (skip : Option Text) : Prop := ∀ p, skip = some p → ∃ name : Text, p = name ++ "\n".toList

theorem nameLine_isLine (f : Family) : IsLine f.nameLine := by
  intro p hp
  obtain ⟨ch, -, rfl⟩ := Option.map_eq_some_iff.mp hp
  exact ⟨f.channelName, rfl⟩

theorem isLine_none : IsLine none := fun _ h => by cases h

section Delta
variable {decode : List UInt32 → Except Text Text} {skip : Option Text} {view : List UInt32}
  {emitted : Nat} {sent done rest text : Text}

/-- The part `done` of the view's text is dealt with: its length is counted, its body sent. -/
structure Done (decode : List UInt32 → Except Text Text) (skip : Option Text) (view : List UInt32)
    (emitted : Nat) (sent done : Text) : Prop where
  counted : emitted = byteLen done
  body : sent = body skip done
  kept : Kept decode view done
  whole : done.getLast? ≠ some replacement
  named : done ≠ [] → namePending skip done = false

/-- What is sent of a channel whose view decodes to `text`. -/
structure Flushed (skip : Option Text) (text sent : Text) : Prop where
  pending : namePending skip text = true → sent = []
  complete : namePending skip text = false → text.getLast? ≠ some replacement → sent = body skip text
  whole : sent.getLast? ≠ some replacement

theorem done_start (decode : List UInt32 → Except Text Text) (hskip : IsLine skip) (view : List UInt32) : Done decode skip view 0 [] [] := by
  refine ⟨rfl, ?_, kept_nil, by simp, fun h => absurd rfl h⟩
  cases skip with
  | none => rfl
  | some p =>
    obtain ⟨name, rfl⟩ := hskip p rfl
    have hne : ¬ name ++ "\n".toList <+: ([] : Text) := by simp
    rw [body_other hne]

theorem Done.append (h : Done decode skip view emitted sent done) (more : List UInt32) :
    Done decode skip (view ++ more) emitted sent done :=
  { h with kept := h.kept.append more }

theorem deltaFrom_append (done rest : Text) :
    deltaFrom (done ++ rest) (byteLen done) =
      if rest = [] ∨ rest.getLast? = some replacement then (byteLen done, none)
      else (byteLen (done ++ rest), some rest) := by
  by_cases hrest : rest = []
  · simp [deltaFrom, hrest]
  · have hpos := byteLen_pos hrest
    have hlt : ¬ byteLen (done ++ rest) ≤ byteLen done := by
      rw [byteLen_append]
      omega
    simp only [deltaFrom, if_neg hlt, Text.sliceFrom_append, hrest, false_or]

/-- The text gained since `done` is sent, unless it ends in a stand-in. -/
theorem deltaFrom_sent (hext : Extends replacement decode) (htext : decode view = .ok (done ++ rest))
    (h : Done decode skip view emitted sent done) (hpending : namePending skip (done ++ rest) = false)
    (hbody : body skip (done ++ rest) = body skip done ++ rest) :
    (∃ done', Done decode skip view (deltaFrom (done ++ rest) emitted).1
      (sent ++ (deltaFrom (done ++ rest) emitted).2.getD []) done') ∧
    ((done ++ rest).getLast? ≠ some replacement →
      sent ++ (deltaFrom (done ++ rest) emitted).2.getD [] = body skip (done ++ rest)) := by
  have hsent := h.body
  have hcount := h.counted
  rw [hcount, deltaFrom_append]
  by_cases hrest : rest = []
  · subst hrest
    simp only [true_or, if_true, Option.getD_none, List.append_nil]
    exact ⟨⟨done, hcount ▸ h⟩, fun _ => hsent⟩
  · have hlast : (done ++ rest).getLast? = rest.getLast? := by
      rw [List.getLast?_append_of_ne_nil done hrest]
    by_cases hheld : rest.getLast? = some replacement
    · simp only [hheld, or_true, if_true, Option.getD_none, List.append_nil]
      refine ⟨⟨done, hcount ▸ h⟩, fun hwhole => absurd ?_ hwhole⟩
      rw [hlast, hheld]
    · have hgo : ¬ (rest = [] ∨ rest.getLast? = some replacement) := by
        rintro (h | h)
        · exact hrest h
        · exact hheld h
      have hwhole : (done ++ rest).getLast? ≠ some replacement := by rwa [hlast]
      have hall : sent ++ rest = body skip (done ++ rest) := by rw [hbody, hsent]
      rw [if_neg hgo]
      have hkept := hext.kept htext (List.prefix_refl _) hwhole
      exact ⟨⟨done ++ rest, rfl, hall, hkept, hwhole, fun _ => hpending⟩, fun _ => hall⟩

/-- A text that starts with its name line. -/
theorem nextDelta_named (hskip : IsLine skip) (hext : Extends replacement decode)
    (htext : decode view = .ok text) {p : Text} (hp : skip = some p) (hpre : p <+: text)
    (hpending : namePending skip text = false) :
    (∃ done', Done decode skip view (deltaFrom text (byteLen p)).1
      ((deltaFrom text (byteLen p)).2.getD []) done') ∧
    (text.getLast? ≠ some replacement → (deltaFrom text (byteLen p)).2.getD [] = body skip text) := by
  obtain ⟨rest, rfl⟩ := hpre
  obtain ⟨name, hname⟩ := hskip p hp
  have hwhole : p.getLast? ≠ some replacement := by
    rw [hname, show "\n".toList = ['\n'] from rfl, List.getLast?_concat]
    decide
  subst hp
  have hline : Done decode (some p) view (byteLen p) [] p := by
    refine ⟨rfl, ?_, hext.kept htext (List.prefix_append p rest) hwhole, hwhole, fun _ => ?_⟩
    · have hself := body_named p []
      rw [List.append_nil] at hself
      exact hself.symm
    · simp [namePending]
  have hbody : body (some p) (p ++ rest) = body (some p) p ++ rest := by
    rw [body_named, ← hline.body, List.nil_append]
  exact deltaFrom_sent hext htext hline hpending hbody

/-- A text that does not start with a name line, of which nothing is sent yet. -/
theorem nextDelta_unnamed (hskip : IsLine skip) (hext : Extends replacement decode)
    (htext : decode view = .ok text) (hpending : namePending skip text = false)
    (hbody : body skip text = text) :
    (∃ done', Done decode skip view (deltaFrom text 0).1 ((deltaFrom text 0).2.getD []) done') ∧
    (text.getLast? ≠ some replacement → (deltaFrom text 0).2.getD [] = body skip text) := by
  have hstart := done_start decode hskip view
  have hempty : body skip ([] ++ text) = body skip [] ++ text := by
    rw [← hstart.body]
    exact hbody
  exact deltaFrom_sent hext htext hstart hpending hempty

theorem Done.whole_sent (h : Done decode skip view emitted sent done) :
    sent.getLast? ≠ some replacement := by
  rw [h.body]
  exact body_getLast h.whole

theorem Done.flushed (h : Done decode skip view emitted sent done)
    (hpending : namePending skip text = false)
    (hall : text.getLast? ≠ some replacement → sent = Mlx.body skip text) :
    Flushed skip text sent := by
  refine ⟨fun ht => ?_, fun _ => hall, h.whole_sent⟩
  rw [hpending] at ht
  cases ht

/-- One call of `stream_delta` on the decoded view. -/
theorem nextDelta_sent (hskip : IsLine skip) (hext : Extends replacement decode)
    (htext : decode view = .ok text) (h : Done decode skip view emitted sent done) :
    (∃ done', Done decode skip view (nextDelta text emitted skip).1
      (sent ++ (nextDelta text emitted skip).2.getD []) done') ∧
    Flushed skip text (sent ++ (nextDelta text emitted skip).2.getD []) := by
  by_cases hdone : done = []
  · -- nothing has been sent so far
    subst hdone
    have hzero : emitted = 0 := h.counted
    have hnil : sent = [] := h.body.trans (done_start decode hskip view).body.symm
    subst hzero hnil
    simp only [nextDelta, if_true, List.nil_append]
    cases hpending : namePending skip text with
    | true =>
      simp only [if_true, Option.getD_none]
      refine ⟨⟨[], h⟩, fun _ => rfl, fun hf => ?_, by simp⟩
      rw [hpending] at hf
      cases hf
    | false =>
      simp only [Bool.false_eq_true, if_false]
      cases skip with
      | none =>
        obtain ⟨⟨done', hd⟩, hall⟩ := nextDelta_unnamed hskip hext htext hpending rfl
        exact ⟨⟨done', hd⟩, hd.flushed hpending hall⟩
      | some p =>
        by_cases hpre : p <+: text
        · simp only [List.isPrefixOf_iff_prefix, hpre, if_true]
          obtain ⟨⟨done', hd⟩, hall⟩ := nextDelta_named hskip hext htext rfl hpre hpending
          exact ⟨⟨done', hd⟩, hd.flushed hpending hall⟩
        · simp only [List.isPrefixOf_iff_prefix, hpre, if_false]
          obtain ⟨⟨done', hd⟩, hall⟩ := nextDelta_unnamed hskip hext htext hpending (body_other hpre)
          exact ⟨⟨done', hd⟩, hd.flushed hpending hall⟩
  · -- the text goes on behind what has been dealt with
    have hnamed := h.named hdone
    have hpos : emitted ≠ 0 := by
      rw [h.counted]
      exact Nat.ne_of_gt (byteLen_pos hdone)
    obtain ⟨rest, rfl⟩ := h.kept.now htext
    have hpending := namePending_append hnamed rest
    simp only [nextDelta, if_neg hpos]
    obtain ⟨⟨done', hd⟩, hall⟩ := deltaFrom_sent hext htext h hpending (body_append hnamed)
    exact ⟨⟨done', hd⟩, hd.flushed hpending hall⟩

end Delta

/-! The loop with a listener. -/

/-- The pieces of one channel put together. -/
def channelText (reasoning : Bool) (pieces : List Piece) : Text :=
  (pieces.filter (·.reasoning == reasoning)).flatMap (·.text)

@[simp] theorem channelText_nil (reasoning : Bool) : channelText reasoning [] = [] := rfl

@[simp] theorem channelText_append (reasoning : Bool) (ps qs : List Piece) :
    channelText reasoning (ps ++ qs) = channelText reasoning ps ++ channelText reasoning qs := by
  simp [channelText]

theorem channelText_cons (reasoning : Bool) (p : Piece) (ps : List Piece) :
    channelText reasoning (p :: ps) =
      (if p.reasoning = reasoning then p.text else []) ++ channelText reasoning ps := by
  simp only [channelText, List.filter_cons, beq_iff_eq]
  split
  · rfl
  · rfl

@[simp] theorem channelText_pieceOf (reasoning flag : Bool) (delta : Option Text) :
    channelText reasoning (pieceOf flag delta) = if flag = reasoning then delta.getD [] else [] := by
  cases delta with
  | none => simp [pieceOf]
  | some text => simp [pieceOf, channelText_cons]

section Loop
variable {f : Family} {s s' : Streaming}

theorem streamDelta_ok {out : List UInt32} {emitted : Nat} {skip : Option Text} {r : Nat × Option Text}
    (h : f.streamDelta out emitted skip = .ok r) :
    ∃ text, f.detokenize out = .ok text ∧ r = nextDelta text emitted skip := by
  obtain ⟨text, htext, hr⟩ := bind_eq_ok.mp h
  exact ⟨text, htext, (Except.ok.inj hr).symm⟩

theorem emitContent_ok (h : s.emitContent f = .ok s') :
    ∃ text, f.detokenize s.routing.contentView = .ok text ∧
      s' = { s with
        emittedContent := (nextDelta text s.emittedContent none).1
        pieces := s.pieces ++ pieceOf false (nextDelta text s.emittedContent none).2 } := by
  obtain ⟨r, hr, hs⟩ := bind_eq_ok.mp h
  obtain ⟨text, htext, rfl⟩ := streamDelta_ok ((ok_of_mapError _).mp hr)
  exact ⟨text, htext, (Except.ok.inj hs).symm⟩

theorem emitReasoning_ok (h : s.emitReasoning f = .ok s') :
    ∃ text, f.detokenize s.routing.reasoningView = .ok text ∧
      s' = { s with
        emittedReasoning := (nextDelta text s.emittedReasoning f.nameLine).1
        pieces := s.pieces ++ pieceOf true (nextDelta text s.emittedReasoning f.nameLine).2 } := by
  obtain ⟨r, hr, hs⟩ := bind_eq_ok.mp h
  obtain ⟨text, htext, rfl⟩ := streamDelta_ok ((ok_of_mapError _).mp hr)
  exact ⟨text, htext, (Except.ok.inj hs).symm⟩

/-- What has been sent of the two channels. -/
structure StreamInv (f : Family) (s : Streaming) : Prop where
  content : ∃ done, Done f.detokenize none s.routing.contentView s.emittedContent
    (channelText false s.pieces) done
  reasoning : ∃ done, Done f.detokenize f.nameLine s.routing.reasoningView s.emittedReasoning
    (channelText true s.pieces) done
  silent : s.routing.reasoningView = [] → channelText true s.pieces = []

theorem streamInv_start (f : Family) : StreamInv f {} :=
  ⟨⟨[], done_start _ isLine_none []⟩, ⟨[], done_start _ (nameLine_isLine f) []⟩, fun _ => rfl⟩

theorem emitContent_inv (hext : Extends replacement f.detokenize) (h : StreamInv f s)
    (he : s.emitContent f = .ok s') :
    StreamInv f s' ∧ s'.routing = s.routing ∧ channelText true s'.pieces = channelText true s.pieces ∧
      ∃ text, f.detokenize s.routing.contentView = .ok text ∧
        Flushed none text (channelText false s'.pieces) := by
  obtain ⟨text, htext, rfl⟩ := emitContent_ok he
  obtain ⟨done, hd⟩ := h.content
  obtain ⟨hdone, hflushed⟩ := nextDelta_sent isLine_none hext htext hd
  have hother : channelText true (s.pieces ++ pieceOf false (nextDelta text s.emittedContent none).2) =
      channelText true s.pieces := by simp
  have hthis : channelText false (s.pieces ++ pieceOf false (nextDelta text s.emittedContent none).2) =
      channelText false s.pieces ++ (nextDelta text s.emittedContent none).2.getD [] := by simp
  rw [← hthis] at hdone hflushed
  refine ⟨⟨hdone, ?_, ?_⟩, rfl, hother, text, htext, hflushed⟩
  · rw [hother]
    exact h.reasoning
  · rw [hother]
    exact h.silent

theorem emitReasoning_inv (hext : Extends replacement f.detokenize) (h : StreamInv f s)
    (hview : s.routing.reasoningView ≠ []) (he : s.emitReasoning f = .ok s') :
    StreamInv f s' ∧ s'.routing = s.routing ∧
      ∃ text, f.detokenize s.routing.reasoningView = .ok text ∧
        Flushed f.nameLine text (channelText true s'.pieces) := by
  obtain ⟨text, htext, rfl⟩ := emitReasoning_ok he
  obtain ⟨done, hd⟩ := h.reasoning
  obtain ⟨hdone, hflushed⟩ := nextDelta_sent (nameLine_isLine f) hext htext hd
  have hother : channelText false
      (s.pieces ++ pieceOf true (nextDelta text s.emittedReasoning f.nameLine).2) =
      channelText false s.pieces := by simp
  have hthis : channelText true
      (s.pieces ++ pieceOf true (nextDelta text s.emittedReasoning f.nameLine).2) =
      channelText true s.pieces ++ (nextDelta text s.emittedReasoning f.nameLine).2.getD [] := by simp
  rw [← hthis] at hdone hflushed
  refine ⟨⟨?_, hdone, fun hnil => absurd hnil hview⟩, rfl, text, htext, hflushed⟩
  rw [hother]
  exact h.content

/-- What routing a token does to the views. -/
theorem accept_views (toolmark : Option ToolCallMarkers) (channel : Option ReasoningChannel)
    (s : Routing) (next : Int32) :
    (s.accept toolmark channel true next).contentView =
      (if s.viewOf toolmark channel next = some false then s.contentView ++ [next.toUInt32]
        else s.contentView) ∧
    (s.accept toolmark channel true next).reasoningView =
      (if s.viewOf toolmark channel next = some true then s.reasoningView ++ [next.toUInt32]
        else s.reasoningView) := by
  have hchannel : ∀ s : Routing,
      (s.channelToken channel true next).contentView =
        (if s.viewOf none channel next = some false then s.contentView ++ [next.toUInt32]
          else s.contentView) ∧
      (s.channelToken channel true next).reasoningView =
        (if s.viewOf none channel next = some true then s.reasoningView ++ [next.toUInt32]
          else s.reasoningView) := by
    intro s
    cases channel with
    | none => cases hin : s.inReasoning <;> simp [Routing.channelToken, Routing.viewOf, hin]
    | some ch =>
      by_cases hopen : next = ch.opens
      · simp [Routing.channelToken, Routing.viewOf, hopen]
      · by_cases hclose : next = ch.closes
        · have hne : ¬ ch.closes = ch.opens := hclose ▸ hopen
          simp [Routing.channelToken, Routing.viewOf, hclose, hne]
        · cases hin : s.inReasoning <;>
            simp [Routing.channelToken, Routing.viewOf, hopen, hclose, hin]
  cases toolmark with
  | none => exact hchannel { s with out := s.out ++ [next.toUInt32] }
  | some t =>
    by_cases hopen : next = t.opens
    · simp [Routing.accept, Routing.route, Routing.viewOf, hopen]
    · cases hcall : s.inToolCall with
      | true =>
        have hview : s.viewOf (some t) channel next = none := by simp [Routing.viewOf, hcall]
        rw [hview]
        by_cases hclose : t.closes = some next
        · simp [Routing.accept, Routing.route, hopen, hcall, hclose]
        · simp [Routing.accept, Routing.route, hopen, hcall, hclose]
      | false =>
        have hroute : s.accept (some t) channel true next =
            ({ s with out := s.out ++ [next.toUInt32] } : Routing).channelToken channel true next := by
          simp [Routing.accept, Routing.route, hopen, hcall]
        have hview : s.viewOf (some t) channel next =
            ({ s with out := s.out ++ [next.toUInt32] } : Routing).viewOf none channel next := by
          simp [Routing.viewOf, hopen, hcall]
        rw [hroute, hview]
        exact hchannel { s with out := s.out ++ [next.toUInt32] }

/-! A listener changes nothing about the routing. -/

theorem accept_routing {next : Int32} (h : s.accept f next = .ok s') :
    s'.routing = s.routing.accept f.toolmark f.channel true next := by
  unfold Streaming.accept at h
  cases hview : s.routing.viewOf f.toolmark f.channel next with
  | none =>
    simp only [hview] at h
    rw [← Except.ok.inj h]
  | some reasoning =>
    cases reasoning with
    | true =>
      simp only [hview] at h
      obtain ⟨text, -, rfl⟩ := emitReasoning_ok h
      rfl
    | false =>
      simp only [hview] at h
      obtain ⟨text, -, rfl⟩ := emitContent_ok h
      rfl

theorem streamLoop_routing {picks : List Int32} (h : streamLoop f s picks = .ok s') :
    s'.routing = decodeLoop f.toolmark f.channel true f.stop s.routing picks := by
  induction picks generalizing s with
  | nil =>
    cases h
    rfl
  | cons next picks ih =>
    rw [streamLoop] at h
    rw [decodeLoop]
    split at h
    · next hcalls =>
      rw [if_pos hcalls, Except.ok.inj h]
    · next hcalls =>
      rw [if_neg hcalls]
      split at h
      · next hstop => rw [if_pos hstop, Except.ok.inj h]
      · next hstop =>
        obtain ⟨t, ht, hrest⟩ := bind_eq_ok.mp h
        rw [if_neg hstop, ← accept_routing ht]
        exact ih hrest

theorem flush_routing (h : s.flush f = .ok s') : s'.routing = s.routing := by
  obtain ⟨t, ht, h⟩ := bind_eq_ok.mp h
  obtain ⟨content, -, rfl⟩ := emitContent_ok h
  split at ht
  · rw [Except.ok.inj ht]
  · obtain ⟨reasoning, -, rfl⟩ := emitReasoning_ok ht
    rfl

/-! The invariant along the loop. -/

theorem accept_inv (hext : Extends replacement f.detokenize) (h : StreamInv f s) {next : Int32}
    (he : s.accept f next = .ok s') : StreamInv f s' := by
  obtain ⟨hcontent, hreasoning⟩ := accept_views f.toolmark f.channel s.routing next
  obtain ⟨content, hc⟩ := h.content
  obtain ⟨reasoning, hr⟩ := h.reasoning
  unfold Streaming.accept at he
  cases hview : s.routing.viewOf f.toolmark f.channel next with
  | none =>
    rw [hview] at he hcontent hreasoning
    simp only [reduceCtorEq, if_false] at hcontent hreasoning
    cases he
    refine ⟨⟨content, ?_⟩, ⟨reasoning, ?_⟩, ?_⟩
    · rw [hcontent]
      exact hc
    · rw [hreasoning]
      exact hr
    · rw [hreasoning]
      exact h.silent
  | some flag =>
    let routed : Streaming :=
      { s with routing := s.routing.accept f.toolmark f.channel true next }
    rw [hview] at he hcontent hreasoning
    cases flag with
    | false =>
      simp only [if_true, Option.some.injEq, Bool.false_eq_true, if_false] at hcontent hreasoning
      have hinv : StreamInv f routed := by
        refine ⟨⟨content, ?_⟩, ⟨reasoning, ?_⟩, ?_⟩
        · rw [hcontent]
          exact hc.append _
        · rw [hreasoning]
          exact hr
        · rw [hreasoning]
          exact h.silent
      exact (emitContent_inv hext hinv he).1
    | true =>
      simp only [if_true, Option.some.injEq, Bool.true_eq_false, if_false] at hcontent hreasoning
      have hview : routed.routing.reasoningView ≠ [] := by
        rw [hreasoning]
        simp
      have hinv : StreamInv f routed := by
        refine ⟨⟨content, ?_⟩, ⟨reasoning, ?_⟩, fun hnil => absurd hnil hview⟩
        · rw [hcontent]
          exact hc
        · rw [hreasoning]
          exact hr.append _
      exact (emitReasoning_inv hext hinv hview he).1

/-- The loop keeps count of what it has sent. -/
theorem streamLoop_inv (hext : Extends replacement f.detokenize) (h : StreamInv f s)
    {picks : List Int32} (he : streamLoop f s picks = .ok s') : StreamInv f s' := by
  induction picks generalizing s with
  | nil =>
    cases he
    exact h
  | cons next picks ih =>
    rw [streamLoop] at he
    split at he
    · cases he
      exact h
    · split at he
      · cases he
        exact h
      · obtain ⟨t, ht, hrest⟩ := bind_eq_ok.mp he
        exact ih (accept_inv hext h ht) hrest

/-- After the final flush. -/
theorem flush_inv (hext : Extends replacement f.detokenize) (h : StreamInv f s)
    (he : s.flush f = .ok s') :
    (∃ text, f.detokenize s.routing.contentView = .ok text ∧
      Flushed none text (channelText false s'.pieces)) ∧
    (s.routing.reasoningView = [] → channelText true s'.pieces = []) ∧
    (s.routing.reasoningView ≠ [] → ∃ text, f.detokenize s.routing.reasoningView = .ok text ∧
      Flushed f.nameLine text (channelText true s'.pieces)) := by
  obtain ⟨t, ht, hcontent⟩ := bind_eq_ok.mp he
  by_cases hview : s.routing.reasoningView = []
  · rw [if_pos (List.isEmpty_iff.mpr hview)] at ht
    cases ht
    obtain ⟨-, -, hother, hflushed⟩ := emitContent_inv hext h hcontent
    exact ⟨hflushed, fun hnil => hother.trans (h.silent hnil), fun hne => absurd hview hne⟩
  · rw [if_neg (fun hnil => hview (List.isEmpty_iff.mp hnil))] at ht
    obtain ⟨hinv, hsame, hreasoning⟩ := emitReasoning_inv hext h hview ht
    obtain ⟨-, -, hother, hflushed⟩ := emitContent_inv hext hinv hcontent
    rw [hsame] at hflushed
    refine ⟨hflushed, fun hnil => absurd hnil hview, fun _ => ?_⟩
    rw [hother]
    exact hreasoning

end Loop

/-! A whole request. -/

/-- The loop's locals without the views. -/
def Routing.blind (s : Routing) : Routing := { s with contentView := [], reasoningView := [] }

theorem accept_blind (toolmark : Option ToolCallMarkers) (channel : Option ReasoningChannel)
    (s : Routing) (next : Int32) :
    (s.accept toolmark channel true next).blind = s.blind.accept toolmark channel false next := by
  have hchannel : ∀ s : Routing,
      (s.channelToken channel true next).blind = s.blind.channelToken channel false next := by
    intro s
    have hview : (if s.inReasoning then { s with reasoningView := s.reasoningView ++ [next.toUInt32] }
        else { s with contentView := s.contentView ++ [next.toUInt32] } : Routing).blind = s.blind := by
      by_cases hin : s.inReasoning = true
      · rw [if_pos hin]
        rfl
      · rw [if_neg hin]
        rfl
    cases channel with
    | none => exact hview
    | some ch =>
      simp only [Routing.channelToken, if_true, Bool.false_eq_true, if_false]
      by_cases hopen : next = ch.opens
      · rw [if_pos hopen, if_pos hopen]
        rfl
      · rw [if_neg hopen, if_neg hopen]
        by_cases hclose : next = ch.closes
        · rw [if_pos hclose, if_pos hclose]
          rfl
        · rw [if_neg hclose, if_neg hclose]
          exact hview
  cases toolmark with
  | none => exact hchannel { s with out := s.out ++ [next.toUInt32] }
  | some t =>
    simp only [Routing.accept, Routing.route]
    by_cases hopen : next = t.opens
    · rw [if_pos hopen, if_pos hopen]
      rfl
    · rw [if_neg hopen, if_neg hopen]
      cases hcall : s.inToolCall with
      | true =>
        by_cases hclose : t.closes = some next
        · simp [Routing.blind, hcall, hclose]
        · simp [Routing.blind, hcall, hclose]
      | false =>
        have hblind : s.blind.inToolCall = false := hcall
        rw [hblind, if_neg Bool.false_ne_true, if_neg Bool.false_ne_true]
        exact hchannel _

/-- Listening changes nothing but the views. -/
theorem decodeLoop_blind (toolmark : Option ToolCallMarkers) (channel : Option ReasoningChannel)
    (stop : List Int32) (s : Routing) (picks : List Int32) :
    (decodeLoop toolmark channel true stop s picks).blind =
      decodeLoop toolmark channel false stop s.blind picks := by
  induction picks generalizing s with
  | nil => rfl
  | cons next picks ih =>
    have hcalls : (!s.blind.inToolCall && !s.blind.toolSpans.isEmpty && !opensCall toolmark next) =
        (!s.inToolCall && !s.toolSpans.isEmpty && !opensCall toolmark next) := rfl
    simp only [decodeLoop, hcalls]
    split
    · rfl
    · split
      · rfl
      · rw [ih, accept_blind]

section Request
variable {f : Family} {params : GenParams} {promptIds picks : List Int32} {g : Generation}
  {pieces : List Piece}

theorem finish_ok {promptTokens maxTokens : Nat} {s : Routing}
    (h : f.finish promptTokens maxTokens s = .ok g) :
    ∃ calls, f.toolCalls 0 (f.completeSpans s) = .ok calls ∧
      f.textAndReasoning (finalSplit f.toolmark f.channel s.toolSpans s.out) = .ok (g.text, g.reasoning) ∧
      g = { text := g.text, reasoning := g.reasoning, promptTokens := promptTokens,
            completionTokens := s.out.length,
            finish := finishReason calls s.out.length maxTokens, toolCalls := calls } := by
  obtain ⟨calls, hcalls, h⟩ := bind_eq_ok.mp h
  obtain ⟨⟨text, reasoning⟩, htext, h⟩ := bind_eq_ok.mp h
  obtain rfl := Except.ok.inj h
  exact ⟨calls, hcalls, htext, rfl⟩

theorem textAndReasoning_ok {split : List UInt32 × List UInt32} {text : Text} {reasoning : Option Text}
    (h : f.textAndReasoning split = .ok (text, reasoning)) :
    f.detokenize split.1 = .ok text ∧ f.reasoning split.2 = .ok reasoning := by
  obtain ⟨t, ht, h⟩ := bind_eq_ok.mp h
  obtain ⟨r, hr, h⟩ := bind_eq_ok.mp h
  obtain ⟨rfl, rfl⟩ := Prod.mk.inj (Except.ok.inj h)
  exact ⟨ht, hr⟩

theorem reasoning_ok {toks : List UInt32} {reasoning : Option Text} (hne : toks ≠ [])
    (h : f.reasoning toks = .ok reasoning) :
    ∃ raw, f.detokenize toks = .ok raw ∧
      reasoning = if (body f.nameLine raw).trim.isEmpty then none else some (body f.nameLine raw).trim := by
  rw [Family.reasoning, if_neg (fun he => hne (List.isEmpty_iff.mp he))] at h
  obtain ⟨raw, hraw, h⟩ := bind_eq_ok.mp h
  exact ⟨raw, hraw, (Except.ok.inj h).symm⟩

/-- The tokens of a request that the decode loop keeps. -/
def Family.generated (f : Family) (maxTokens : Nat) (picks : List Int32) : List UInt32 :=
  (Mlx.runGeneration f.toolmark f.channel false f.stop maxTokens picks).out

/-- The tokens of an output outside tool blocks and reasoning segments. -/
def Family.answerTokens (f : Family) (out : List UInt32) : List UInt32 :=
  (wholeSplit f.toolmark f.channel out).1

def Family.reasoningTokens (f : Family) (out : List UInt32) : List UInt32 :=
  (wholeSplit f.toolmark f.channel out).2

theorem decodeLoop_run (f : Family) (params : GenParams) (promptIds picks : List Int32) :
    f.runGeneration noGreedy params promptIds picks =
      f.finish promptIds.length params.maxTokens
        (runGeneration f.toolmark f.channel false f.stop params.maxTokens picks) := by
  unfold Family.runGeneration noGreedy
  split <;> rfl

/-- What a streamed request has sent, against the decode of its tokens and against what the
request gives without a listener. -/
theorem runStreamed_ok (hext : Extends replacement f.detokenize)
    (h : f.runStreamed params promptIds picks = .ok (g, pieces)) :
    f.runGeneration noGreedy params promptIds picks = .ok g ∧
    (f.detokenize (f.answerTokens (f.generated params.maxTokens picks)) = .ok g.text ∧
      Flushed none g.text (channelText false pieces)) ∧
    f.reasoning (f.reasoningTokens (f.generated params.maxTokens picks)) = .ok g.reasoning ∧
    (f.reasoningTokens (f.generated params.maxTokens picks) = [] → channelText true pieces = []) ∧
    (f.reasoningTokens (f.generated params.maxTokens picks) ≠ [] →
      ∃ raw, f.detokenize (f.reasoningTokens (f.generated params.maxTokens picks)) = .ok raw ∧
        Flushed f.nameLine raw (channelText true pieces)) := by
  obtain ⟨looped, hloop, h⟩ := bind_eq_ok.mp h
  obtain ⟨s, hflush, h⟩ := bind_eq_ok.mp h
  obtain ⟨g', hfinish, h⟩ := bind_eq_ok.mp h
  obtain ⟨rfl, rfl⟩ := Prod.mk.inj (Except.ok.inj h)
  have hfinish := (ok_of_mapError _).mp hfinish
  have hlooped := streamLoop_routing hloop
  have hrouting := flush_routing hflush
  have hinv := streamLoop_inv hext (streamInv_start f) hloop
  obtain ⟨hcontent, hsilent, hreasoning⟩ := flush_inv hext hinv hflush
  -- the listener's loop is the plain one with views
  have hrun : s.routing = runGeneration f.toolmark f.channel true f.stop params.maxTokens picks :=
    hrouting.trans hlooped
  have hblind : s.routing.blind =
      runGeneration f.toolmark f.channel false f.stop params.maxTokens picks := by
    rw [hrun]
    exact decodeLoop_blind _ _ _ _ _
  have hout : s.routing.out = f.generated params.maxTokens picks := by
    have hblind_out := congrArg Routing.out hblind
    exact hblind_out
  have hplain : f.runGeneration noGreedy params promptIds picks = .ok g' := by
    rw [decodeLoop_run, ← hblind]
    exact hfinish
  have hagrees : Agrees f.toolmark f.channel true s.routing := by
    rw [hrun]
    exact (decodeLoop_tracks f.stop (tracks_start true) _).agrees
  have hviews := hagrees.views rfl
  rw [hout] at hviews
  have hcview : looped.routing.contentView = f.answerTokens (f.generated params.maxTokens picks) := by
    rw [← hrouting]
    exact congrArg Prod.fst hviews
  have hrview : looped.routing.reasoningView =
      f.reasoningTokens (f.generated params.maxTokens picks) := by
    rw [← hrouting]
    exact congrArg Prod.snd hviews
  obtain ⟨-, -, hsplit, -⟩ := finish_ok hfinish
  rw [hagrees.reply, hout] at hsplit
  obtain ⟨htext, hreason⟩ := textAndReasoning_ok hsplit
  rw [hcview] at hcontent
  rw [hrview] at hsilent hreasoning
  obtain ⟨text, ht, hflushed⟩ := hcontent
  have hsame : text = g'.text := Except.ok.inj (ht.symm.trans htext)
  exact ⟨hplain, ⟨htext, hsame ▸ hflushed⟩, hreason, hsilent, hreasoning⟩

end Request

end Onisin.Mlx
