import Norn.Stream.Sender

/-!
# The pump

A round of the pump puts one more item in flight; whatever a round keeps, the pump keeps.
-/

namespace Norn
open List Option Function
namespace Stream
variable {s s₁ s' : Stream} {now : UInt32} {seg : Seg} {it : Item} {items more : List Item}
  {win fuel : ℕ}

theorem nextSeg_spec (h : s.nextSeg now = some (seg, s₁)) :
    ∃ (it : Item) (p : Ring UInt8 pendCap) (fq fs : Bool),
      seg = ⟨s.sndNxt, now, it.flags, true, false, false, it.bytes⟩ ∧
      s₁ = { s with pend := p, finQueued := fq, finSegmented := fs } ∧
      it.bytes ++ p.contents = s.pend.contents ∧ it.bytes.length ≤ streamSegPayload := by
  unfold nextSeg at h
  split_ifs at h with hpend hfin
  · obtain ⟨rfl, rfl⟩ := Prod.mk.inj (some.inj h)
    have hle : min s.pend.count streamSegPayload ≤ s.pend.count := min_le_left _ _
    refine ⟨.data (s.pend.peek (min s.pend.count streamSegPayload)), _, _, _, rfl, rfl, ?_, ?_⟩
    · rw [Item.bytes, Ring.contents_remove, Ring.peek_eq_take _ hle, take_append_drop]
    · simp [Item.bytes, Ring.peek]
  · obtain ⟨rfl, rfl⟩ := Prod.mk.inj (some.inj h)
    exact ⟨.fin, _, _, _, rfl, rfl, rfl, Nat.zero_le _⟩

theorem nextSeg_fin (h : s.nextSeg now = some (seg, s₁)) :
    (s₁.finQueued = true → s.finQueued = true) ∧
      (s₁.finSegmented = true → s.finSegmented = true ∨ seg.flags = fFin) ∧
      (seg.flags = fFin → s.finQueued = true ∧ s.pend.contents = []) := by
  unfold nextSeg at h
  split_ifs at h with hpend hfin
  · obtain ⟨rfl, rfl⟩ := Prod.mk.inj (some.inj h)
    exact ⟨id, Or.inl, fun hflags => absurd hflags (by decide : fData ≠ fFin)⟩
  · obtain ⟨rfl, rfl⟩ := Prod.mk.inj (some.inj h)
    have hempty : s.pend.contents = [] := by
      rw [← length_eq_zero_iff, Ring.length_contents]
      omega
    exact ⟨fun _ => hfin, fun _ => .inr rfl, fun _ => ⟨hfin, hempty⟩⟩

theorem Item.flags_eq_fin : it.flags = fFin ↔ it = .fin := by
  cases it with
  | data bs => exact ⟨fun h => absurd h (by decide : fData ≠ fFin), fun h => by cases h⟩
  | fin => exact ⟨fun _ => rfl, fun _ => rfl⟩

theorem Sent.enqueue (h : Sent s items) (hfl : s.inflight < streamWinMax)
    (hshort : it.bytes.length ≤ streamSegPayload) (hseg : seg.core = (s.sndNxt, it.flags, it.bytes))
    (now : UInt32) : Sent (s.enqueue seg now) (items ++ [it]) := by
  have hin : (s.enqueue seg now).inflight = s.inflight + 1 := by
    unfold streamWinMax at hfl
    exact toNat_add_one_sub (show s.inflight + 1 < 2 ^ 32 by omega)
  have hle := h.inflight_le
  refine ⟨?_, by omega, by simp; omega, ?_, ?_⟩
  · change s.sndNxt + 1 = _
    rw [h.nxt, length_append, UInt32.ofNat_add]
    rfl
  · intro n it' hit hn
    rw [hin] at hn
    change Holds (Function.update s.sbuf (slot s.sndNxt) seg (slot (UInt32.ofNat n))) n it'
    rw [h.nxt] at hseg ⊢
    rcases Nat.lt_or_ge n items.length with hlt | hge
    · rw [getElem?_append_left hlt] at hit
      rw [length_append, length_singleton] at hn
      rw [Function.update_of_ne]
      · exact h.held hit (by omega)
      · rw [slot_ofNat, slot_ofNat]
        unfold streamWinMax at hfl ⊢
        omega
    · have hbound := (List.getElem?_eq_some_iff.mp hit).1
      rw [length_append, length_singleton] at hbound
      obtain rfl : n = items.length := by omega
      rw [getElem?_concat_length, Option.some.injEq] at hit
      rw [Function.update_self, ← hit]
      exact hseg
  · intro it' hit
    rcases mem_append.mp hit with hold | hnew
    · exact h.short it' hold
    · rw [mem_singleton.mp hnew]
      exact hshort

def Round (now : UInt32) (s s' : Stream) (d : Bytes) : Prop :=
  ∃ seg s₁, s.nextSeg now = some (seg, s₁) ∧ s' = s₁.enqueue seg now ∧ d = s'.emitSeg seg

theorem pumpLoop_of_full (h : ¬ s.inflight < win) (now : UInt32) (fuel : ℕ) :
    pumpLoop win now fuel s = (s, []) := by
  cases fuel with
  | zero => rfl
  | succ fuel => exact if_neg h

theorem pumpLoop_of_none (h : s.nextSeg now = none) (win fuel : ℕ) :
    pumpLoop win now fuel s = (s, []) := by
  cases fuel with
  | zero => rfl
  | succ fuel =>
    rw [pumpLoop, h]
    split_ifs <;> rfl

theorem pumpLoop_of_some (hfl : s.inflight < win) (h : s.nextSeg now = some (seg, s₁)) (fuel : ℕ) :
    pumpLoop win now (fuel + 1) s = ((pumpLoop win now fuel (s₁.enqueue seg now)).1,
      (s₁.enqueue seg now).emitSeg seg :: (pumpLoop win now fuel (s₁.enqueue seg now)).2) := by
  rw [pumpLoop, if_pos hfl, h]

theorem pumpLoop_induct {P : Stream → Prop} {Q : Bytes → Prop}
    (hround : ∀ s s' d, P s → s.inflight < win → Round now s s' d → P s' ∧ Q d) (hs : P s)
    (fuel : ℕ) : P (pumpLoop win now fuel s).1 ∧ ∀ d ∈ (pumpLoop win now fuel s).2, Q d := by
  induction fuel generalizing s with
  | zero => exact ⟨hs, by simp [pumpLoop]⟩
  | succ fuel ih =>
    by_cases hfl : s.inflight < win
    · cases hseg : s.nextSeg now with
      | none =>
        rw [pumpLoop_of_none hseg]
        exact ⟨hs, by simp⟩
      | some out =>
        obtain ⟨seg, s₁⟩ := out
        obtain ⟨hP, hQ⟩ := hround s _ _ hs hfl ⟨seg, s₁, hseg, rfl, rfl⟩
        obtain ⟨hend, hout⟩ := ih hP
        rw [pumpLoop_of_some hfl hseg]
        refine ⟨hend, fun d hd => ?_⟩
        rcases mem_cons.mp hd with rfl | hd
        · exact hQ
        · exact hout d hd
    · rw [pumpLoop_of_full hfl]
      exact ⟨hs, by simp⟩

namespace Round
variable {now : UInt32} {s s' : Stream} {d : Bytes} (h : Round now s s' d)
include h

theorem spec : ∃ (it : Item) (p : Ring UInt8 pendCap) (fq fs : Bool),
    let seg : Seg := ⟨s.sndNxt, now, it.flags, true, false, false, it.bytes⟩
    s' = { s with pend := p, finQueued := fq, finSegmented := fs }.enqueue seg now ∧
      d = s'.emitSeg seg ∧ it.bytes.length ≤ streamSegPayload := by
  obtain ⟨seg, s₁, hseg, hs', hd⟩ := h
  obtain ⟨it, p, fq, fs, rfl, rfl, _, hshort⟩ := nextSeg_spec hseg
  exact ⟨it, p, fq, fs, hs', hd, hshort⟩

theorem sndUna : s'.sndUna = s.sndUna := by
  obtain ⟨_, _, _, _, rfl, _⟩ := h.spec
  rfl

theorem sndNxt : s'.sndNxt = s.sndNxt + 1 := by
  obtain ⟨_, _, _, _, rfl, _⟩ := h.spec
  rfl

theorem inflight (hfl : s.inflight < streamWinMax) : s'.inflight = s.inflight + 1 := by
  unfold streamWinMax at hfl
  unfold Stream.inflight at hfl ⊢
  rw [h.sndNxt, h.sndUna]
  exact toNat_add_one_sub (by omega)

theorem recvSide : s'.recvSide = s.recvSide := by
  obtain ⟨_, _, _, _, rfl, _⟩ := h.spec
  rfl

theorem rto : s'.rto = s.rto := by
  obtain ⟨_, _, _, _, rfl, _⟩ := h.spec
  rfl

theorem rtoDeadline :
    s'.rtoDeadline = if s.rtoDeadline = 0 then now + s.rto else s.rtoDeadline := by
  obtain ⟨_, _, _, _, rfl, _⟩ := h.spec
  rfl

theorem sbuf_of_ne {j : ℕ} (hj : j ≠ slot s.sndNxt) : s'.sbuf j = s.sbuf j := by
  obtain ⟨_, _, _, _, rfl, _⟩ := h.spec
  exact update_of_ne hj _ _

theorem seq : get32 d 1 = s.sndNxt := by
  obtain ⟨_, _, _, _, _, rfl, _⟩ := h.spec
  exact emitSeg_seq _ _

end Round

/-- The loop of the source ends within `win` rounds. -/
theorem pumpLoop_ends (hwin : win ≤ streamWinMax) (now : UInt32) (hfuel : win ≤ s.inflight + fuel) :
    win ≤ (pumpLoop win now fuel s).1.inflight ∨ (pumpLoop win now fuel s).1.nextSeg now = none := by
  induction fuel generalizing s with
  | zero => exact .inl hfuel
  | succ fuel ih =>
    by_cases hfl : s.inflight < win
    · cases hseg : s.nextSeg now with
      | none =>
        rw [pumpLoop_of_none hseg]
        exact .inr hseg
      | some out =>
        obtain ⟨seg, s₁⟩ := out
        have hr : Round now s (s₁.enqueue seg now) _ := ⟨seg, s₁, hseg, rfl, rfl⟩
        have hin := hr.inflight (hfl.trans_le hwin)
        rw [pumpLoop_of_some hfl hseg]
        exact ih (by omega)
    · rw [pumpLoop_of_full hfl]
      exact .inl (not_lt.mp hfl)

theorem recvSide_pumpLoop (win : ℕ) (now : UInt32) (fuel : ℕ) (s : Stream) :
    (pumpLoop win now fuel s).1.recvSide = s.recvSide :=
  (pumpLoop_induct (P := fun t => t.recvSide = s.recvSide) (Q := fun _ => True)
    (fun _ _ _ ht _ hr => ⟨hr.recvSide.trans ht, trivial⟩) rfl fuel).1

theorem recvSide_streamTick (s : Stream) (now : UInt32) :
    (s.streamTick now).1.recvSide = s.recvSide := by
  have hpump : (s.pumpSend now).1.recvSide = s.recvSide := recvSide_pumpLoop _ now _ s
  rcases s.streamTick_cases now with ⟨_, _, heq⟩ | ⟨_, heq⟩
  · rw [heq]
    exact (recvSide_timeout _ now).trans hpump
  · rwa [heq]

structure Cuts (items : List Item) (bytes : Bytes) (out : Stream × List Bytes) (more : List Item) :
    Prop where
  sent : Sent out.1 (items ++ more)
  bytes : payload more ++ out.1.pend.contents = bytes
  carries : ∀ d ∈ out.2, Carries (items ++ more) d
  few : more.length ≤ streamWinMax

structure Ends (asked : Prop) (s s' : Stream) (more : List Item) : Prop where
  queued : s'.finQueued = true ∨ Item.fin ∈ more → asked
  segmented : s'.finSegmented = true → s.finSegmented = true ∨ Item.fin ∈ more
  last : ∀ {pre post : List Item}, more = pre ++ Item.fin :: post →
    payload post = [] ∧ s'.pend.contents = []

theorem ends_nil (hq : s'.finQueued = s.finQueued) (hs : s'.finSegmented = s.finSegmented) :
    Ends (s.finQueued = true) s s' [] where
  queued h := by simpa [hq] using h
  segmented h := Or.inl (hs ▸ h)
  last h := by simp at h

theorem Ends.mono {p q : Prop} (h : Ends p s s' more) (hpq : p → q) : Ends q s s' more :=
  ⟨fun hfin => hpq (h.queued hfin), h.segmented, h.last⟩

theorem Ends.congr {p : Prop} (h : Ends p s s₁ more) (hfin : s'.finSide = s₁.finSide)
    (hpend : s'.pend = s₁.pend) : Ends p s s' more := by
  simp only [finSide, Prod.mk.injEq] at hfin
  refine ⟨hfin.1 ▸ h.queued, hfin.2 ▸ h.segmented, fun heq => ?_⟩
  rw [hpend]
  exact h.last heq

theorem Ends.cons {s s₁ s' : Stream} {it : Item} {more : List Item}
    (h : Ends (s.finQueued = true) s s₁ [it]) (h' : Ends (s₁.finQueued = true) s₁ s' more)
    (hbytes : payload more ++ s'.pend.contents = s₁.pend.contents) :
    Ends (s.finQueued = true) s s' (it :: more) where
  queued hfin := by
    rw [mem_cons] at hfin
    rcases hfin with hq | hfin | hfin
    · exact h.queued (.inl (h'.queued (.inl hq)))
    · exact h.queued (.inr (mem_singleton.mpr hfin))
    · exact h.queued (.inl (h'.queued (.inr hfin)))
  segmented hs := by
    rcases h'.segmented hs with hs | hfin
    · exact (h.segmented hs).imp_right fun hit => mem_cons.mpr (.inl (by simpa using hit))
    · exact .inr (mem_cons_of_mem it hfin)
  last := by
    intro pre post heq
    cases pre with
    | nil =>
      -- the FIN is the first item, so that nothing was pending when the others were cut off
      obtain ⟨rfl, rfl⟩ := cons.inj heq
      have hempty := (h.last (show [Item.fin] = [] ++ Item.fin :: [] from rfl)).2
      rw [hempty, append_eq_nil_iff] at hbytes
      exact hbytes
    | cons x pre => exact h'.last (cons.inj heq).2

theorem cuts_of_pend {out : Stream × List Bytes} (hsent : Sent out.1 items)
    (hpend : out.1.pend = s.pend) (hout : ∀ d ∈ out.2, Carries items d) :
    Cuts items s.pend.contents out [] :=
  ⟨by rwa [append_nil], by rw [hpend]; rfl, by rwa [append_nil], Nat.zero_le _⟩

theorem sendWindow_le (s : Stream) : s.sendWindow ≤ streamWinMax := by
  unfold sendWindow streamWinMax
  omega

section
variable {s : Stream} {items : List Item} (h : Sent s items)
include h

theorem Sent.cuts_nil : Cuts items s.pend.contents (s, []) [] := cuts_of_pend h rfl (by simp)

theorem Sent.round {d : Bytes} (hfl : s.inflight < streamWinMax) (hr : Round now s s' d) :
    ∃ it, Sent s' (items ++ [it]) ∧
      it.bytes ++ s'.pend.contents = s.pend.contents ∧ Carries (items ++ [it]) d ∧
      Ends (s.finQueued = true) s s' [it] := by
  obtain ⟨seg, s₁, hseg, rfl, rfl⟩ := hr
  obtain ⟨hqueued, hsegmented, hfin⟩ := nextSeg_fin hseg
  obtain ⟨it, p, fq, fs, rfl, rfl, hcut, hshort⟩ := nextSeg_spec hseg
  refine ⟨it, (h.setPend p fq fs).enqueue hfl hshort rfl now, hcut, fun _ => ?_, ?_⟩
  · refine ⟨items.length, it, by simp, ?_, rfl, emitSeg_data _ _⟩
    rw [emitSeg_seq]
    exact h.nxt
  · refine ⟨?_, fun hs => ?_, fun {pre post} heq => ?_⟩
    · rintro (hq | hit)
      · exact hqueued hq
      · exact (hfin (Item.flags_eq_fin.mpr (mem_singleton.mp hit).symm)).1
    · exact (hsegmented hs).imp_right fun hflags =>
        mem_singleton.mpr (Item.flags_eq_fin.mp hflags).symm
    · obtain ⟨rfl, hit, rfl⟩ : pre = [] ∧ it = .fin ∧ post = [] := by
        cases pre <;> simp_all
      obtain ⟨_, hempty⟩ := hfin (Item.flags_eq_fin.mpr hit)
      rw [hempty, append_eq_nil_iff] at hcut
      exact ⟨rfl, hcut.2⟩

theorem Sent.pumpLoop (hwin : win ≤ streamWinMax) (now : UInt32) (hfuel : fuel ≤ streamWinMax) :
    ∃ more, more.length ≤ fuel ∧ Cuts items s.pend.contents (Stream.pumpLoop win now fuel s) more ∧
      Ends (s.finQueued = true) s (Stream.pumpLoop win now fuel s).1 more := by
  induction fuel generalizing s items with
  | zero => exact ⟨[], le_rfl, h.cuts_nil, ends_nil rfl rfl⟩
  | succ fuel ih =>
    by_cases hfl : s.inflight < win
    · cases hseg : s.nextSeg now with
      | none =>
        rw [pumpLoop_of_none hseg]
        exact ⟨[], Nat.zero_le _, h.cuts_nil, ends_nil rfl rfl⟩
      | some out =>
        obtain ⟨seg, s₁⟩ := out
        obtain ⟨it, hsent, hcut, hcarries, hend⟩ :=
          h.round (hfl.trans_le hwin) ⟨seg, s₁, hseg, rfl, rfl⟩
        obtain ⟨more, hlen, hcuts, hends⟩ := ih hsent (by omega)
        have happ : items ++ it :: more = items ++ [it] ++ more := append_cons ..
        rw [pumpLoop_of_some hfl hseg]
        refine ⟨it :: more, by simpa using hlen, ⟨happ ▸ hcuts.sent, ?_, fun d hd => ?_, ?_⟩,
          hend.cons hends hcuts.bytes⟩
        · rw [← hcut, ← singleton_append, payload_append, append_assoc,
            payload_singleton]
          exact congrArg (it.bytes ++ ·) hcuts.bytes
        · rw [happ]
          rcases mem_cons.mp hd with rfl | hd
          · exact hcarries.append more
          · exact hcuts.carries d hd
        · rw [length_cons]
          omega
    · rw [pumpLoop_of_full hfl]
      exact ⟨[], Nat.zero_le _, h.cuts_nil, ends_nil rfl rfl⟩

theorem Sent.pumpSend (now : UInt32) : ∃ more, Cuts items s.pend.contents (s.pumpSend now) more ∧
      Ends (s.finQueued = true) s (s.pumpSend now).1 more := by
  obtain ⟨more, _, hcuts⟩ := h.pumpLoop s.sendWindow_le now s.sendWindow_le
  exact ⟨more, hcuts⟩

theorem Sent.streamWrite (data : Bytes) (now : UInt32) : ∃ more,
    Cuts items (s.pend.contents ++ data.take (s.streamWrite data now).1) (s.streamWrite data now).2
      more ∧ Ends (s.finQueued = true) s (s.streamWrite data now).2.1 more := by
  obtain ⟨more, hcuts, hends⟩ := (h.setPend (s.pend.append data) s.finQueued s.finSegmented).pumpSend now
  have htake : data.take (min data.length s.pend.space) = data.take s.pend.space := by
    rw [take_eq_take_iff]
    omega
  rw [Ring.contents_append, ← htake] at hcuts
  exact ⟨more, hcuts, hends.queued, hends.segmented, hends.last⟩

theorem Sent.streamFinish (now : UInt32) :
    ∃ more, Cuts items s.pend.contents (s.streamFinish now) more ∧
      Ends True s (s.streamFinish now).1 more := by
  obtain ⟨more, hcuts, hends⟩ := (h.setPend s.pend true s.finSegmented).pumpSend now
  exact ⟨more, hcuts, fun _ => trivial, hends.segmented, hends.last⟩

theorem Sent.backOff : Sent s.backOff items :=
  h.congr (side_eq sendSide s.modControl_backOff fun _ => rfl)

theorem Sent.streamTick (now : UInt32) : ∃ more, Cuts items s.pend.contents (s.streamTick now) more ∧
      Ends (s.finQueued = true) s (s.streamTick now).1 more := by
  obtain ⟨more, hcuts, hends⟩ := h.pumpSend now
  refine ⟨more, ?_⟩
  have htick := s.streamTick_cases now
  generalize s.pumpSend now = out at hcuts hends htick
  rcases htick with ⟨_, _, heq⟩ | ⟨_, heq⟩
  · have hside := out.1.modResend_timeout now
    obtain ⟨_, hout⟩ := hcuts.sent.backOff.retransmitRange now out.1.sndNxt
    have hpend : (out.1.timeout now).1.pend = out.1.pend := side_eq pend hside fun _ => rfl
    rw [heq]
    refine ⟨⟨hcuts.sent.congr (side_eq sendSide hside fun _ => rfl), ?_, fun d hd => ?_, hcuts.few⟩,
      hends.congr (side_eq finSide hside fun _ => rfl) hpend⟩
    · rw [hpend]
      exact hcuts.bytes
    · rcases mem_append.mp hd with hd | hd
      · exact hcuts.carries d hd
      · rw [timeout_out] at hd
        exact hout d hd
  · rw [heq]
    exact ⟨hcuts, hends⟩

end
end Stream
end Norn
