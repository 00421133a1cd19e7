import Norn.Stream.Sack

/-!
# Completion of a stream

The FIN of a stream is cut off behind all bytes that were accepted before it was asked for.
-/

namespace Norn
open List
namespace Stream

/-- The FIN stands behind all items, and only if asked for. -/
structure Closes (s : Stream) (items : List Item) (asked : Prop) : Prop where
  queued : s.finQueued = true ∨ Item.fin ∈ items → asked
  segmented : s.finSegmented = true → Item.fin ∈ items
  last : ∀ {pre post : List Item}, items = pre ++ Item.fin :: post →
    payload post = [] ∧ s.pend.contents = []

theorem closes_streamNew (asked : Prop) : Closes streamNew [] asked where
  queued h := by simp [streamNew] at h
  segmented h := by simp [streamNew] at h
  last h := by simp at h

section
variable {s s' : Stream} {items more : List Item} {asked asked' : Prop}

theorem Closes.mono (h : Closes s items asked) (himp : asked → asked') : Closes s items asked' :=
  ⟨fun hfin => himp (h.queued hfin), h.segmented, h.last⟩

theorem Closes.ends (h : Closes s items asked) (he : Ends asked' s s' more)
    (hold : asked → asked')
    (hbytes : Item.fin ∈ items → payload more ++ s'.pend.contents = s.pend.contents) :
    Closes s' (items ++ more) asked' where
  queued := by
    rintro (hq | hfin)
    · exact he.queued (.inl hq)
    · rcases mem_append.mp hfin with hfin | hfin
      · exact hold (h.queued (.inr hfin))
      · exact he.queued (.inr hfin)
  segmented hs := by
    rw [mem_append]
    exact (he.segmented hs).imp_left h.segmented
  last := by
    intro pre post heq
    rcases append_eq_append_iff.mp heq with ⟨mid, _, hmore⟩ | ⟨mid, hitems, hmid⟩
    · exact he.last hmore
    · cases mid with
      | nil => exact he.last (show more = [] ++ Item.fin :: post from hmid.symm)
      | cons it mid =>
        -- the FIN was there before, so nothing was pending and nothing is added
        rw [cons_append, cons.injEq] at hmid
        obtain ⟨rfl, rfl⟩ := hmid
        obtain ⟨hpost, hpend⟩ := h.last hitems
        have hnone := hbytes (hitems ▸ by simp)
        rw [hpend, append_eq_nil_iff] at hnone
        rw [payload_append, hpost, hnone.1]
        exact ⟨rfl, hnone.2⟩

theorem Closes.payload_take (h : Closes s items asked) {n m : ℕ} (hfin : items[n]? = some .fin)
    (hn : n < m) : payload (items.take m) = payload items ∧ s.pend.contents = [] := by
  obtain ⟨hlt, hget⟩ := List.getElem?_eq_some_iff.mp hfin
  have hsplit : items = items.take n ++ Item.fin :: items.drop (n + 1) := by
    rw [← hget, getElem_cons_drop, take_append_drop]
  obtain ⟨hpost, hpend⟩ := h.last hsplit
  have hrest : payload (items.drop m) = [] := by
    have hdrop : items.drop m = (items.drop (n + 1)).drop (m - (n + 1)) := by
      rw [drop_drop]
      congr 1
      omega
    rw [payload, flatMap_eq_nil_iff] at hpost ⊢
    exact fun it hit => hpost it (mem_of_mem_drop (hdrop ▸ hit))
  refine ⟨?_, hpend⟩
  conv_rhs => rw [← take_append_drop m items, payload_append, hrest, append_nil]

end

def FinSeen (t : Stream) (items : List Item) : Prop :=
  t.peerFin = true → ∃ n < t.rcvNxt.toNat, items[n]? = some .fin

variable {items : List Item}

theorem FinSeen.congr {t t' : Stream} (h : FinSeen t items) (hs : t'.recvSide = t.recvSide) :
    FinSeen t' items := by
  simp only [recvSide, Prod.mk.injEq] at hs
  unfold FinSeen
  rwa [hs.2.1, hs.2.2.1]

theorem FinSeen.append {t : Stream} (h : FinSeen t items) (more : List Item) :
    FinSeen t (items ++ more) := by
  intro hfin
  obtain ⟨n, hn, hget⟩ := h hfin
  refine ⟨n, hn, ?_⟩
  rw [getElem?_append_left (List.getElem?_eq_some_iff.mp hget).1, hget]

theorem fin_of_flags {it : Item} (h : (it.flags ||| fAck) &&& fFin ≠ 0) : it = .fin := by
  cases it with
  | data bs => exact absurd (by decide : (fData ||| fAck) &&& fFin = 0) h
  | fin => rfl

section
variable {t : Stream} {items : List Item} {m : ℕ} {read : Bytes} (h : Received t items m read)
include h

theorem Received.toNat_rcvNxt (hlen : items.length < 2 ^ 32) : t.rcvNxt.toNat = m := by
  have hle := h.le
  rw [h.nxt, UInt32.toNat_ofNat']
  omega

theorem Received.finSeen_deliverOne (hlen : items.length < 2 ^ 32) (hf : FinSeen t items)
    (hd : t.Deliverable) : FinSeen t.deliverOne items := by
  have hnow := h.toNat_rcvNxt hlen
  have hnext := (h.deliverOne hlen hd).toNat_rcvNxt hlen
  intro hfin
  change (t.peerFin || ((t.rbuf (slot t.rcvNxt)).flags &&& fFin) != 0) = true at hfin
  rw [Bool.or_eq_true, bne_iff_ne] at hfin
  rcases hfin with hold | hflags
  · obtain ⟨n, hn, hget⟩ := hf hold
    exact ⟨n, by omega, hget⟩
  · obtain ⟨it, hit, hitflags, _⟩ := h.next_item hlen hd
    rw [hitflags] at hflags
    exact ⟨m, by omega, fin_of_flags hflags ▸ hit⟩

theorem Received.finSeen_streamInput (hlen : items.length < 2 ^ 32) (hf : FinSeen t items)
    {d : Bytes} (hd : Carries items d)
    (hshort : ∀ it ∈ items, it.bytes.length ≤ streamSegPayload) (now : UInt32) :
    FinSeen (t.streamInput d now).1 items := by
  have hack := t.recvSide_takeAck d now
  unfold Stream.streamInput
  split_ifs with hhead hflags
  · exact hf
  · exact hf.congr hack
  · have hbuf := (h.congr hack).buffer hd hshort hflags
    have hseen : FinSeen ((t.takeAck d now).1.buffer (d.getD 0 0) (get32 d 1)
        (d.drop streamHeader)) items := by
      have hold := hf.congr hack
      rcases (t.takeAck d now).1.buffer_cases (d.getD 0 0) (get32 d 1) (d.drop streamHeader) with
        heq | ⟨_, _, _, _, heq⟩ <;> rw [heq] <;> exact hold
    refine (deliverLoop_induct (P := fun u => (∃ m', Received u items m' read) ∧ FinSeen u items) ?_
      ⟨⟨m, hbuf⟩, hseen⟩ streamWinMax).2
    rintro u ⟨⟨m', hu⟩, hfu⟩ hdel
    exact ⟨⟨m' + 1, hu.deliverOne hlen hdel⟩, hu.finSeen_deliverOne hlen hfu hdel⟩

end
end Stream

namespace Endpoint
open Norn.Stream
variable {a a' b b' : Endpoint} {items : List Item}

theorem finSeen_call (h : FinSeen b.stream items) (ha : a.Sends items) (hb : b.Receives items)
    (hlen : items.length < 2 ^ 32) {c : StreamCall} (hc : b.call a.wire c = some b') :
    FinSeen b'.stream items := by
  cases c with
  | write data now | finish now =>
    cases hc
    exact h.congr (recvSide_pumpLoop _ now _ _)
  | read cap =>
    cases hc
    exact h
  | tick now =>
    cases hc
    exact h.congr (recvSide_streamTick _ now)
  | input k now =>
    obtain ⟨d, hd, rfl⟩ := Option.map_eq_some_iff.mp hc
    obtain ⟨m, hm⟩ := hb
    exact hm.finSeen_streamInput hlen h (ha.wire d (mem_of_getElem? hd)) ha.sent.short now

theorem Sends.bytes_of_accepted {more : List Item} (h : a.Sends items)
    (h' : a'.Sends (items ++ more)) (hacc : a'.accepted = a.accepted) :
    payload more ++ a'.stream.pend.contents = a.stream.pend.contents := by
  have hboth := h'.accepted.symm.trans (hacc.trans h.accepted)
  rw [payload_append, append_assoc] at hboth
  exact append_cancel_left hboth

structure Finishes (a b : Endpoint) (asked : Prop) (items : List Item) : Prop where
  flows : Flows a b items
  closes : Closes a.stream items asked
  seen : items.length < 2 ^ 32 → FinSeen b.stream items

end Endpoint

namespace Link
open Endpoint Norn.Stream

def FinishedBefore (run : Run system) (b : Bool) (k : ℕ) : Prop :=
  ∃ j < k, ∃ now, run.event j = ⟨b, .finish now⟩

variable {run : Run system} {b : Bool}

theorem FinishedBefore.mono {j k : ℕ} (h : FinishedBefore run b j) (hjk : j ≤ k) :
    FinishedBefore run b k := by
  obtain ⟨i, hi, hevent⟩ := h
  exact ⟨i, by omega, hevent⟩

/-- Once it was told to finish, the end accepts no more bytes. -/
def QuietAfterFinish (run : Run system) (b : Bool) : Prop :=
  ∀ i < run.len, FinishedBefore run b i →
    (run.state (i + 1) b).accepted = (run.state i b).accepted

theorem QuietAfterFinish.accepted_eq (h : QuietAfterFinish run b) {k n : ℕ}
    (hfin : FinishedBefore run b k) (hkn : k ≤ n) (hn : n ≤ run.len) :
    (run.state n b).accepted = (run.state k b).accepted := by
  induction n, hkn using Nat.le_induction with
  | base => rfl
  | succ n hkn ih =>
    rw [h n (by omega) (hfin.mono hkn)]
    exact ih (by omega)

theorem finishes_of_run (run : Run system) (hquiet : QuietAfterFinish run b) (k : ℕ)
    (hk : k ≤ run.len) :
    ∃ items, Finishes (run.state k b) (run.state k !b) (FinishedBefore run b k) items := by
  refine run.position_induction (P := fun k => ∃ items,
    Finishes (run.state k b) (run.state k !b) (FinishedBefore run b k) items) ?_ ?_ k hk
  · rw [run.start b, run.start (!b)]
    exact ⟨[], ⟨Sends.new, fun _ => ⟨0, received_streamNew []⟩⟩, closes_streamNew _,
      fun _ hfin => absurd hfin Bool.false_ne_true⟩
  · rintro k hk ⟨items, hfin⟩
    have hlater : FinishedBefore run b k → FinishedBefore run b (k + 1) :=
      fun h => h.mono (Nat.le_succ k)
    obtain ⟨x, hx, heq⟩ := Option.map_eq_some_iff.mp (run.steps k hk)
    have hacc := hquiet k hk
    obtain ⟨side, c, hev⟩ : ∃ side c, run.event k = ⟨side, c⟩ := ⟨_, _, rfl⟩
    rw [hev] at hx heq
    rw [← heq] at hacc ⊢
    by_cases hb : b = side
    · subst hb
      rw [Function.update_self] at hacc ⊢
      rw [Function.update_of_ne (by simp)]
      obtain ⟨more, hsends, hends⟩ := hfin.flows.sends.call hx
      have hasked : (run.state k b).stream.finQueued = true ∨ (∃ now, c = .finish now) →
          FinishedBefore run b (k + 1) := by
        rintro (hq | ⟨now, rfl⟩)
        · exact hlater (hfin.closes.queued (.inl hq))
        · exact ⟨k, Nat.lt_succ_self k, now, hev⟩
      refine ⟨items ++ more, ⟨hsends, fun hlen => ?_⟩, ?_, fun hlen => ?_⟩
      · exact (hfin.flows.receives (by rw [length_append] at hlen; omega)).append more
      · refine hfin.closes.ends (hends.mono hasked) hlater fun hmem => ?_
        exact hfin.flows.sends.bytes_of_accepted hsends
          (hacc (hfin.closes.queued (.inr hmem)))
      · exact (hfin.seen (by rw [length_append] at hlen; omega)).append more
    · obtain rfl : side = !b := Bool.eq_not.mpr (Ne.symm hb)
      rw [Bool.not_not] at hx
      rw [Function.update_self, Function.update_of_ne hb]
      refine ⟨items, ⟨hfin.flows.sends, fun hlen => ?_⟩, hfin.closes.mono hlater, fun hlen => ?_⟩
      · exact (hfin.flows.receives hlen).call hfin.flows.sends hlen hx
      · exact finSeen_call (hfin.seen hlen) hfin.flows.sends (hfin.flows.receives hlen) hlen hx

/-- A sender that is done has had all bytes received; a reader whose peer has finished has read all
bytes that the peer ever accepts. -/
theorem completion_truthful (run : Run system) (b : Bool) (hquiet : QuietAfterFinish run b) (k : ℕ)
    (hk : k ≤ run.len) (hfew : (run.state k b).assigned < 2 ^ 31) :
    ((run.state k b).stream.streamSendDone = true →
      (run.state k !b).returned ++ (run.state k !b).stream.deliv.contents =
        (run.state k b).accepted) ∧
    ((run.state k !b).stream.streamPeerFinished = true → ∀ n, k ≤ n → n ≤ run.len →
      (run.state k !b).returned = (run.state n b).accepted) := by
  obtain ⟨items, hflows, hcloses, hseen⟩ := finishes_of_run run hquiet k hk
  have hlen : items.length < 2 ^ 31 := hflows.sends.assigned ▸ hfew
  obtain ⟨m, hm⟩ := hflows.receives (by omega)
  have hnxt := hm.toNat_rcvNxt (by omega)
  have hacc := hflows.sends.accepted
  constructor
  · intro hdone
    simp only [streamSendDone, Bool.and_eq_true, beq_iff_eq] at hdone
    obtain ⟨n, hn⟩ := mem_iff_getElem?.mp (hcloses.segmented hdone.1)
    have hlt := (List.getElem?_eq_some_iff.mp hn).1
    -- everything is acknowledged, and acknowledged is delivered
    have hall : m = items.length := by
      have huna := (mirrors_of_run run k hk b hfew).trusts.una
      rw [hdone.2, hflows.sends.sent.nxt, UInt32.toNat_ofNat', hnxt] at huna
      have := hm.le
      omega
    obtain ⟨htake, hpend⟩ := hcloses.payload_take hn (hall ▸ hlt)
    rw [hm.delivered, htake, hacc, hpend, append_nil]
  · intro hfinished n hkn hn
    simp only [streamPeerFinished, Bool.and_eq_true, beq_iff_eq] at hfinished
    obtain ⟨j, hj, hfin⟩ := hseen (by omega) hfinished.1
    obtain ⟨htake, hpend⟩ := hcloses.payload_take hfin (hnxt ▸ hj)
    have hasked := hcloses.queued (.inr (mem_of_getElem? hfin))
    have hread := hm.delivered
    rw [contents_eq_nil hfinished.2, append_nil, htake] at hread
    rw [hquiet.accepted_eq hasked hkn hn, hread, hacc, hpend, append_nil]

def finishedRun : Run system :=
  runOf [⟨false, .write [104, 105] 0⟩, ⟨false, .finish 0⟩, ⟨true, .input 0 5⟩, ⟨true, .input 1 5⟩,
    ⟨false, .input 1 9⟩, ⟨true, .read 8⟩] (by decide +kernel)

theorem finishedRun_quiet : QuietAfterFinish finishedRun false := by
  have hlater : ∀ i < 6, 1 ≤ i →
      (finishedRun.state (i + 1) false).accepted = (finishedRun.state i false).accepted := by
    decide +kernel
  rintro i hi ⟨j, hj, _⟩
  exact hlater i hi (by omega)

theorem finishedRun_complete :
    ((finishedRun.state 6 true).returned ++ (finishedRun.state 6 true).stream.deliv.contents =
      (finishedRun.state 6 false).accepted) ∧
    (finishedRun.state 6 true).returned = (finishedRun.state 6 false).accepted := by
  obtain ⟨hdone, hfinished⟩ := completion_truthful finishedRun false finishedRun_quiet 6
    (by decide) (by decide +kernel)
  exact ⟨hdone (by decide +kernel), hfinished (by decide +kernel) 6 le_rfl (by decide)⟩

end Link
end Norn
