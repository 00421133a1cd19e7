import Norn.Lib.Recent
import Norn.Lib.Run
import Norn.Session.Channel

/-!
# Early data

Only the cache of nonces in `replaycache.c` tells a first message from its copy
(`channel_hs_accept_0rtt`).
-/

namespace Norn
open List

def replaySlots : ℕ := 512

structure ReplaySlot where
  nonce : Bytes
  t : ℤ

structure ReplayCache where
  slots : ℕ → ReplaySlot
  next : ℕ
  window : ℤ

def ReplaySlot.blank : ReplaySlot := ⟨replicate 16 0, 0⟩

def replaycacheInit (window : ℤ) : ReplayCache := ⟨fun _ => .blank, 0, window⟩

def replaycacheSeen (rc : ReplayCache) (nonce : Bytes) (now : ℤ) : Bool × ReplayCache :=
  if ∃ i < replaySlots, (rc.slots i).t ≠ 0 ∧ now - (rc.slots i).t < rc.window ∧
      (rc.slots i).nonce = nonce then
    (true, rc)
  else
    (false, { rc with
      slots := Function.update rc.slots rc.next ⟨nonce, now⟩
      next := (rc.next + 1) % replaySlots })

def channelMsgInit0rtt : UInt8 := 6

structure EarlySuite extends Suite Bytes where
  generichash : Bytes → Bytes

def earlyKey (E : EarlySuite) (dir psk initEph : Bytes) : Bytes :=
  E.generichash (dir ++ (psk ++ initEph))

def channelDerive0rtt (E : EarlySuite) (c : Channel Bytes) (initEph : Bytes) (isInitiator : Bool)
    (psk : Bytes) : Channel Bytes :=
  let i2r := earlyKey E (text "norn-0rtt-early-i2r-v1".toList) psk initEph
  let r2i := earlyKey E (text "norn-0rtt-early-r2i-v1".toList) psk initEph
  { c with
    rxKey := if isInitiator then r2i else i2r
    txKey := if isInitiator then i2r else r2i
    established := true }

def Channel.cleared (S : Suite Bytes) : Channel Bytes :=
  ⟨S.zero, S.zero, S.zero, S.zero, S.zero, false, false⟩

def channelHsAccept (S : Suite Bytes) (c : Channel Bytes) (selfPub selfSk seed initMsg : Bytes)
    (outcap : ℕ) : Channel Bytes × Option (Bytes × Bytes) :=
  if outcap < channelRespLen then (c, none)
  else
    match parseInit initMsg with
    | none => (c, none)
    | some init =>
      match channelHsAcceptSigned S selfPub (secretSigner S selfSk) seed init with
      | (c, none) => (c, none)
      | (c, some resp) => (c, some (init.pub, encodeResp resp))

inductive EarlyStatus
  | ok | noPsk | badPsk | replay

structure Accept0rtt where
  channel : Channel Bytes
  selfPub : Bytes
  selfSk : Bytes
  seed : Bytes
  initMsg : Bytes
  psk : Option Bytes
  now : ℤ
  earlyCap : ℕ
  outcap : ℕ

structure Accepted0rtt where
  peerPub : Bytes
  resp : Bytes
  status : EarlyStatus
  early : Bytes

namespace Accept0rtt

def sealed (a : Accept0rtt) : Bytes := a.initMsg.drop channelInitLen

def opened (E : EarlySuite) (a : Accept0rtt) (psk : Bytes) : Option Bytes :=
  if a.earlyCap = 0 then none
  else
    channelOpen E.toSuite
      (channelDerive0rtt E (.cleared E.toSuite) (slice a.initMsg 37 32) false psk) a.sealed
      a.earlyCap

def early (E : EarlySuite) (a : Accept0rtt) (rpc : Option ReplayCache) :
    EarlyStatus × Bytes × Option ReplayCache :=
  match a.psk with
  | none => (.noPsk, [], rpc)
  | some psk =>
    match a.opened E psk with
    | none => (.badPsk, [], rpc)
    | some early =>
      match rpc with
      | none => (.ok, early, none)
      | some rc =>
        match replaycacheSeen rc (a.sealed.take 16) a.now with
        | (true, rc) => (.replay, [], some rc)
        | (false, rc) => (.ok, early, some rc)

def handshake (E : EarlySuite) (a : Accept0rtt) : Channel Bytes × Option (Bytes × Bytes) :=
  if a.initMsg.length < channelInitLen ∨ a.initMsg.getD 4 0 ≠ channelMsgInit0rtt then
    (a.channel, none)
  else
    channelHsAccept E.toSuite a.channel a.selfPub a.selfSk a.seed
      ((a.initMsg.take channelInitLen).set 4 channelMsgInit) a.outcap

end Accept0rtt

def channelHsAccept0rtt (E : EarlySuite) (a : Accept0rtt) (rpc : Option ReplayCache) :
    Channel Bytes × Option Accepted0rtt × Option ReplayCache :=
  match a.handshake E with
  | (c, none) => (c, none, rpc)
  | (c, some (peerPub, resp)) =>
    match a.early E rpc with
    | (status, early, rpc) => (c, some ⟨peerPub, resp, status, early⟩, rpc)

namespace Accept0rtt
variable (E : EarlySuite) (a : Accept0rtt)

def Accepted (rc : ReplayCache) : Prop :=
  ∃ r, (channelHsAccept0rtt E a (some rc)).2.1 = some r ∧ r.status = .ok

def call : Option ReplaySlot :=
  if (a.handshake E).2.isSome ∧ (a.psk.bind (a.opened E)).isSome then
    some ⟨a.sealed.take 16, a.now⟩
  else none

variable {E a} {rc : ReplayCache}

theorem not_reached (h : a.call E = none) :
    (channelHsAccept0rtt E a (some rc)).2.2 = some rc ∧ ¬a.Accepted E rc := by
  unfold call at h
  unfold Accepted channelHsAccept0rtt early
  rcases hhs : a.handshake E with ⟨c, _ | ⟨peerPub, resp⟩⟩
  · simp
  cases hpsk : a.psk with
  | none => simp
  | some psk =>
    cases hopened : a.opened E psk with
    | none => simp [hopened]
    | some early => simp [hhs, hpsk, hopened] at h

theorem reached {c : ReplaySlot} (h : a.call E = some c) :
    (channelHsAccept0rtt E a (some rc)).2.2 = some (replaycacheSeen rc c.nonce c.t).2 ∧
      (a.Accepted E rc ↔ (replaycacheSeen rc c.nonce c.t).1 = false) := by
  unfold call at h
  obtain ⟨⟨hsome, hopen⟩, hc⟩ := Option.ite_none_right_eq_some.mp h
  cases hc
  obtain ⟨⟨peerPub, resp⟩, hhs⟩ := Option.isSome_iff_exists.mp hsome
  obtain ⟨data, hdata⟩ := Option.isSome_iff_exists.mp hopen
  obtain ⟨psk, hpsk, hopened⟩ := Option.bind_eq_some_iff.mp hdata
  unfold Accepted channelHsAccept0rtt early
  rcases hseen : replaycacheSeen rc (a.sealed.take 16) a.now with ⟨_ | _, rc'⟩
  all_goals
    rcases hfirst : a.handshake E with ⟨c, out⟩
    rw [hfirst] at hhs
    cases hhs
    simp [hpsk, hopened, hseen]

theorem Accepted.new (h : a.Accepted E rc) : a.call E = some ⟨a.sealed.take 16, a.now⟩ ∧
      (replaycacheSeen rc (a.sealed.take 16) a.now).1 = false := by
  cases hcall : a.call E with
  | none => exact absurd h (not_reached hcall).2
  | some c =>
    have hc : ⟨a.sealed.take 16, a.now⟩ = c :=
      Option.some.inj (Option.ite_none_right_eq_some.mp hcall).2
    have hnew := (reached hcall).2.mp h
    rw [← hc] at hnew
    exact ⟨congrArg some hc.symm, hnew⟩

end Accept0rtt

inductive CacheUse
  | seen (nonce : Bytes) (now : ℤ)
  | accept (a : Accept0rtt)

def CacheUse.call (E : EarlySuite) : CacheUse → Option ReplaySlot
  | .seen nonce now => some ⟨nonce, now⟩
  | .accept a => a.call E

namespace ReplayCache

def use (E : EarlySuite) (rc : ReplayCache) : CacheUse → ReplayCache
  | .seen nonce now => (replaycacheSeen rc nonce now).2
  | .accept a => ((channelHsAccept0rtt E a (some rc)).2.2).getD rc

def system (E : EarlySuite) (window : ℤ) : System ReplayCache CacheUse where
  init rc := rc = replaycacheInit window
  next rc e rc' := (∀ c, e.call E = some c → 0 < c.t) ∧ rc' = rc.use E e

def Within (window : ℤ) (e c : ReplaySlot) : Prop := e.nonce = c.nonce ∧ c.t - e.t < window

instance (window : ℤ) : DecidableRel (Within window) :=
  fun e c => inferInstanceAs (Decidable (e.nonce = c.nonce ∧ c.t - e.t < window))

variable {E : EarlySuite} {window : ℤ} {rc : ReplayCache} {e : CacheUse} {n : ℕ}

theorem use_of_none (h : e.call E = none) : rc.use E e = rc := by
  cases e with
  | seen nonce now => cases h
  | accept a => rw [use, (Accept0rtt.not_reached h).1, Option.getD_some]

theorem use_of_some {c : ReplaySlot} (h : e.call E = some c) :
    rc.use E e = (replaycacheSeen rc c.nonce c.t).2 := by
  cases e with
  | seen nonce now =>
    cases h
    rfl
  | accept a => rw [use, (Accept0rtt.reached h).1, Option.getD_some]

structure Recorded (window : ℤ) (rc : ReplayCache) (log : List ReplaySlot) : Prop where
  window_eq : rc.window = window
  holding : Recent.Holding replaySlots .blank rc.slots rc.next log
  pos : ∀ e ∈ log, 0 < e.t

namespace Recorded
variable {log : List ReplaySlot}

theorem seen_iff (h : Recorded window rc log) (c : ReplaySlot) :
    (replaycacheSeen rc c.nonce c.t).1 = true ↔
      Recent.Repeats (Within window) (log.take replaySlots) c := by
  have hany : (∃ i < replaySlots, (rc.slots i).t ≠ 0 ∧ c.t - (rc.slots i).t < rc.window ∧
      (rc.slots i).nonce = c.nonce) ↔
      Recent.Repeats (Within window) (log.take replaySlots) c := by
    rw [h.window_eq]
    constructor
    · rintro ⟨i, hi, hne, hwindow, hnonce⟩
      have hblank : rc.slots i ≠ .blank := fun heq => hne (by rw [heq]; rfl)
      exact ⟨_, (h.holding.exists_slot_iff hblank).mp ⟨i, hi, rfl⟩, hnonce, hwindow⟩
    · rintro ⟨e, he, hnonce, hwindow⟩
      have hpos := h.pos e (mem_of_mem_take he)
      have hblank : e ≠ .blank := by
        rintro rfl
        exact hpos.ne rfl
      obtain ⟨i, hi, rfl⟩ := (h.holding.exists_slot_iff hblank).mpr he
      exact ⟨i, hi, hpos.ne', hwindow, hnonce⟩
  rw [← hany, replaycacheSeen]
  split_ifs with hcase
  · exact iff_of_true rfl hcase
  · exact iff_of_false id hcase

theorem seen (h : Recorded window rc log) {c : ReplaySlot} (hpos : 0 < c.t) :
    Recorded window (replaycacheSeen rc c.nonce c.t).2
      (if Recent.Repeats (Within window) (log.take replaySlots) c then log else c :: log) := by
  have hiff := h.seen_iff c
  unfold replaycacheSeen at hiff ⊢
  split_ifs at hiff ⊢ with hcase hrepeats hrepeats
  · exact h
  · exact absurd (hiff.mp rfl) hrepeats
  · exact (hiff.mpr hrepeats).elim
  · exact ⟨h.window_eq, h.holding.push c, forall_mem_cons.mpr ⟨hpos, h.pos⟩⟩

end Recorded

section
variable (run : Run (system E window))

def calls (k : ℕ) : Option ReplaySlot := (run.event k).call E

/-- Every call is answered with whether the nonce was new at a time within the window. -/
def Exact : Prop :=
  ∀ n < run.len, ∀ c, calls run n = some c →
    ((replaycacheSeen (run.state n) c.nonce c.t).1 = true ↔
      ∃ k < n, ∃ t₀, calls run k = some ⟨c.nonce, t₀⟩ ∧
        (replaycacheSeen (run.state k) c.nonce t₀).1 = false ∧ c.t - t₀ < window)

/-- A sealed first flight is not accepted twice within the window. -/
def AcceptedOnce : Prop :=
  ∀ k n, k < n → n < run.len → ∀ a b, run.event k = .accept a → run.event n = .accept b →
    a.sealed = b.sealed → a.Accepted E (run.state k) → b.Accepted E (run.state n) →
      window ≤ b.now - a.now

/-- Nonces that come back within the window are among the last recorded. -/
def RepeatsRecent : Prop :=
  ∀ n < run.len, ∀ c, calls run n = some c →
    Recent.Repeats (Within window) (Recent.log (Within window) id (calls run) n) c →
      Recent.Repeats (Within window)
        ((Recent.log (Within window) id (calls run) n).take replaySlots) c

def recorded (n : ℕ) : List ReplaySlot :=
  Recent.log (Within window) (take replaySlots) (calls run) n

variable {run}

theorem recorded_of_run : ∀ n ≤ run.len, Recorded window (run.state n) (recorded run n) := by
  refine run.position_induction ?_ ?_
  · rw [run.start]
    exact ⟨rfl, Recent.Holding.nil _ _, forall_mem_nil _⟩
  · intro n hn h
    obtain ⟨hpos, hnext⟩ := run.steps n hn
    rw [hnext]
    cases hcall : calls run n with
    | none =>
      rw [use_of_none hcall, recorded, Recent.log_succ_of_none hcall]
      exact h
    | some c =>
      rw [use_of_some hcall, recorded, Recent.log_succ_of_some hcall]
      exact h.seen (hpos c hcall)

theorem exists_new_iff {n : ℕ} (hn : n < run.len) (c : ReplaySlot) :
    (∃ k < n, ∃ t₀, calls run k = some ⟨c.nonce, t₀⟩ ∧
        (replaycacheSeen (run.state k) c.nonce t₀).1 = false ∧ c.t - t₀ < window) ↔
      Recent.Repeats (Within window) (recorded run n) c := by
  have hnew : ∀ k < n, ∀ e : ReplaySlot, (replaycacheSeen (run.state k) e.nonce e.t).1 = false ↔
      ¬Recent.Repeats (Within window) ((recorded run k).take replaySlots) e := by
    intro k hk e
    rw [← (recorded_of_run k (hk.trans hn).le).seen_iff e, Bool.not_eq_true]
  constructor
  · rintro ⟨k, hk, t₀, hcall, hseen, hwindow⟩
    exact ⟨_, Recent.mem_log.mpr ⟨k, hk, hcall, (hnew k hk ⟨c.nonce, t₀⟩).mp hseen⟩, rfl, hwindow⟩
  · rintro ⟨⟨nonce, t₀⟩, he, rfl, hwindow⟩
    obtain ⟨k, hk, hcall, hfresh⟩ := Recent.mem_log.mp he
    exact ⟨k, hk, t₀, hcall, (hnew k hk ⟨c.nonce, t₀⟩).mpr hfresh, hwindow⟩

theorem exact_iff_repeatsRecent : Exact run ↔ RepeatsRecent run := by
  have hview : ∀ l : List ReplaySlot, take replaySlots l ⊆ l := take_subset replaySlots
  refine Iff.trans (forall₄_congr fun n hn c _ => ?_) (Recent.exact_iff hview)
  rw [(recorded_of_run n hn.le).seen_iff c, exists_new_iff hn c, recorded]

theorem Exact.acceptedOnce (h : Exact run) : AcceptedOnce run := by
  intro k n hkn hn a b ha hb hsealed hacceptA hacceptB
  have hcall : ∀ {m : ℕ} {x : Accept0rtt}, run.event m = .accept x → calls run m = x.call E := by
    intro m x hx
    rw [calls, hx, CacheUse.call]
  obtain ⟨hcallA, hnewA⟩ := hacceptA.new
  obtain ⟨hcallB, hnewB⟩ := hacceptB.new
  rw [hsealed] at hcallA hnewA
  by_contra hlt
  have hseen := (h n hn _ ((hcall hb).trans hcallB)).mpr
    ⟨k, hkn, a.now, (hcall ha).trans hcallA, hnewA, not_le.mp hlt⟩
  exact Bool.false_ne_true (hnewB.symm.trans hseen)

/-- Early data is accepted at most once per window exactly if the nonces that come back are recent
enough. -/
theorem early_data_once_iff_repeatsRecent (E : EarlySuite) (window : ℤ)
    (run : Run (system E window)) : Exact run ∧ AcceptedOnce run ↔ RepeatsRecent run := by
  rw [← exact_iff_repeatsRecent]
  exact ⟨And.left, fun h => ⟨h, h.acceptedOnce⟩⟩

end

def plainEarly : EarlySuite := { plainSuite with generichash := fun _ => replicate 32 0 }

def flight (i : ℕ) : Accept0rtt where
  channel := .cleared plainSuite
  selfPub := replicate 32 0
  selfSk := replicate 32 0
  seed := replicate 32 0
  initMsg := channelMagic ++ channelMsgInit0rtt :: replicate 64 0 ++
    (bigEndian 16 i ++ replicate 24 0)
  psk := some (replicate 32 0)
  now := 1
  earlyCap := 1
  outcap := channelRespLen

theorem call_flight (i : ℕ) : (flight i).call plainEarly = some ⟨bigEndian 16 i, 1⟩ := rfl

def floodRun : Run (system plainEarly 60) where
  len := 514
  state n := n.rec (replaycacheInit 60) fun k rc => rc.use plainEarly (.accept (flight (k % 513)))
  event n := .accept (flight (n % 513))
  start := rfl
  steps k _ := by
    refine ⟨fun c hc => ?_, rfl⟩
    rw [CacheUse.call, call_flight] at hc
    cases hc
    exact zero_lt_one

theorem recorded_floodRun (hn : n ≤ 513) :
    recorded floodRun n = ((range n).map fun i => ⟨bigEndian 16 i, 1⟩).reverse := by
  refine Recent.log_of_fresh (take_subset replaySlots) ?_ ?_
  · intro k hk
    have hmod : k % 513 = k := Nat.mod_eq_of_lt (hk.trans_le hn)
    rw [← call_flight, ← hmod, calls, floodRun, CacheUse.call, Nat.mod_mod]
  · rintro j k hjk hk ⟨hnonce, -⟩
    exact hjk.ne (bigEndian_inj (by omega) (by omega) hnonce)

theorem accepted_floodRun_iff (hn : n < 514) :
    (flight (n % 513)).Accepted plainEarly (floodRun.state n) ↔
      ¬Recent.Repeats (Within 60) ((recorded floodRun n).take replaySlots)
        ⟨bigEndian 16 (n % 513), 1⟩ := by
  rw [(Accept0rtt.reached (call_flight _)).2, ← (recorded_of_run n hn.le).seen_iff,
    Bool.not_eq_true]

theorem floodRun_accepts_twice :
    floodRun.event 0 = .accept (flight 0) ∧ floodRun.event 513 = .accept (flight 0) ∧
      (flight 0).Accepted plainEarly (floodRun.state 0) ∧
        (flight 0).Accepted plainEarly (floodRun.state 513) ∧ ¬AcceptedOnce floodRun := by
  have hfirst : (flight 0).Accepted plainEarly (floodRun.state 0) := by
    refine (accepted_floodRun_iff (n := 0) (by decide)).mpr ?_
    rintro ⟨e, he, -⟩
    cases he
  have hsecond : (flight 0).Accepted plainEarly (floodRun.state 513) := by
    refine (accepted_floodRun_iff (n := 513) (by decide)).mpr ?_
    rintro ⟨e, he, hnonce, -⟩
    rw [recorded_floodRun le_rfl, range_succ_eq_map, map_cons, reverse_cons,
      take_left' (by simp [replaySlots]), mem_reverse] at he
    obtain ⟨i, hi, rfl⟩ := mem_map.mp he
    obtain ⟨j, hj, rfl⟩ := mem_map.mp hi
    have hlt := mem_range.mp hj
    cases bigEndian_inj (by omega) (by decide) hnonce
  refine ⟨rfl, rfl, hfirst, hsecond, fun honce => ?_⟩
  have h := honce 0 513 (by decide) (by decide) _ _ rfl rfl rfl hfirst hsecond
  exact absurd h (by decide)

end ReplayCache
end Norn
