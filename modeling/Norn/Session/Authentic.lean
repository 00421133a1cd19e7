import Norn.Session.Changes

/-!
# Which sessions are authenticated

A probe would establish a session without a handshake, but is only taken for a pending hole punch,
and no run has one: the rendezvous is looked up in a cache that nothing fills.
-/

namespace Norn
open List Option

/-- As `plainSuite`, but a signature belongs to a message and a key. -/
def keyedSuite : Suite Bytes :=
  { plainSuite with
    sign := fun key msg => zipWith (· ^^^ ·) (key ++ key) msg
    verify := fun pub msg sig => sig == zipWith (· ^^^ ·) (pub ++ pub) msg }

def signedResp (pub initEph eph : Bytes) : RespMsg Bytes :=
  ⟨pub, eph, keyedSuite.sign pub (keyedSuite.join initEph eph)⟩

namespace Session
variable {S : Suite Bytes} {s s' : Session}

def getPeer (s : Session) : Option Bytes :=
  if s.state = .established then some s.peerPubkey else none

def presented (S : Suite Bytes) (s : Session) (a : Arrival) : Option Bytes :=
  if s.isInitiator then (parseResp a.data).map RespMsg.sig
  else (parseConfirm a.data).bind (S.secretboxOpen s.channel.rxKey)

def transcript (S : Suite Bytes) (s : Session) : Bytes :=
  S.join (channelTranscript s.channel).1 (channelTranscript s.channel).2

/-- A session that waits for a response accepts this one. -/
structure Accepts (S : Suite Bytes) (s : Session) (a : Arrival) (resp : RespMsg Bytes) : Prop where
  role : s.isInitiator = true
  connecting : s.state = .connecting
  sent : s.hsState = .initSent
  source : s.FromPeer a
  parse : parseResp a.data = some resp
  confirm : (channelHsConfirmSigned S s.channel (s.sign S) a.random resp).2.isSome

def Ready (S : Suite Bytes) (s : Session) : Prop :=
  s.isInitiator = false → s.hsState = .respSent → s.channel.Derived S

theorem Ready.change {e : SessionEvent} (h : s.Ready S) (hc : Change S s e s') : s'.Ready S := by
  cases hc with
  | streams only =>
    obtain ⟨svc, streams, rfl⟩ := only
    exact h
  | pending seed sendOk hs state role => exact fun hno _ => absurd role (by rw [hno]; decide)
  | closed callback => exact h
  | handshake a state source step =>
    cases step with
    | rejected => exact h
    | rekeyed c hs => exact fun _ hsent => absurd hsent hs
    | accepted init c resp hs role parse accept next =>
      exact fun _ _ => (channelDerive_spec (channelHsAcceptSigned_some accept).1).1
    | confirmed resp c box hs role state sent parse confirm next =>
      exact fun hno _ => absurd role (by rw [hno]; decide)
    | finished box role state sent parse finish => exact fun _ hsent => nomatch hsent

variable {a : Arrival}

theorem HandshakeStep.of_established {P : Session → Prop} (hstep : HandshakeStep S s a s')
    (hstate : s.state = .connecting) (hest : s'.state = .established)
    (confirmed : ∀ resp c box hs, s.isInitiator = true → s.hsState = .initSent →
      parseResp a.data = some resp →
      channelHsConfirmSigned S s.channel (s.sign S) a.random resp = (c, some box) →
      P { s with channel := c, peerPubkey := resp.pub, state := .established, hsState := hs })
    (finished : ∀ box, s.isInitiator = false → s.hsState = .respSent →
      parseConfirm a.data = some box → channelHsFinish S s.channel s.peerPubkey box = true →
      P { s with state := .established, hsState := .established }) : P s' := by
  cases hstep with
  | rejected | rekeyed c hs | accepted init c resp hs role parse accept next =>
    exact absurd (hstate.symm.trans hest) (by decide)
  | confirmed resp c box hs role state sent parse confirm next =>
    exact confirmed resp c box hs role sent parse confirm
  | finished box role state sent parse finish => exact finished box role sent parse finish

theorem handshakeStep_of_established {reg : Registry} (hstate : s.state = .connecting)
    (hest : (s.processPacket S reg a).session.state = .established) :
    s.FromPeer a ∧ HandshakeStep S s a (s.processPacket S reg a).session := by
  have hchange := change_processPacket S reg s a
  generalize (s.processPacket S reg a).session = s' at hchange hest ⊢
  cases hchange with
  | streams only =>
    obtain ⟨svc, streams, rfl⟩ := only
    exact absurd (hstate.symm.trans hest) (by decide)
  | handshake _ state source step => exact ⟨source, step⟩

theorem verified_of_handshakeStep (hready : s.Ready S) (hstate : s.state = .connecting)
    (hstep : HandshakeStep S s a s') (hest : s'.state = .established) :
    s'.channel.Derived S ∧ ∃ sig, s.presented S a = some sig ∧
      S.verify s'.peerPubkey (s'.transcript S) sig = true := by
  refine hstep.of_established (P := fun s' => s'.channel.Derived S ∧ ∃ sig,
    s.presented S a = some sig ∧ S.verify s'.peerPubkey (s'.transcript S) sig = true) hstate hest
    ?_ ?_
  · intro resp c box hs role sent parse confirm
    obtain ⟨hverify, hderive, _⟩ := channelHsConfirmSigned_some confirm
    obtain ⟨hderived, heph, _, hpeer, hinit, _⟩ := channelDerive_spec hderive
    refine ⟨hderived, resp.sig, ?_, ?_⟩
    · rw [presented, if_pos role, parse, Option.map_some]
    · have htranscript : channelTranscript c = (s.channel.ephPub, resp.eph) := by
        rw [channelTranscript, if_pos hinit, heph, hpeer]
      change S.verify resp.pub (S.join (channelTranscript c).1 (channelTranscript c).2) resp.sig = _
      rw [htranscript]
      exact hverify
  · intro box role sent parse finish
    refine ⟨hready role sent, ?_⟩
    obtain ⟨_, hopen⟩ := Bool.and_eq_true_iff.mp finish
    rw [Option.any_eq_true] at hopen
    obtain ⟨sig, hsig, hverify⟩ := hopen
    refine ⟨sig, ?_, hverify⟩
    rw [presented, if_neg (by rw [role]; decide), parse]
    exact hsig

theorem Accepts.established {resp : RespMsg Bytes} (h : s.Accepts S a resp) (reg : Registry) :
    (s.processPacket S reg a).session.state = .established ∧
      (s.processPacket S reg a).session.peerPubkey = resp.pub := by
  have hdata : ¬ (a.data = [] ∨ ¬ s.FromPeer a) := by
    rintro (hnil | hno)
    · have hparse := h.parse
      rw [hnil] at hparse
      cases hparse
    · exact hno h.source
  rw [processPacket, if_neg hdata, h.connecting]
  simp only
  rw [processHandshake, if_pos h.role, processResp, if_neg (not_not.mpr h.sent)]
  obtain ⟨box, hbox⟩ := isSome_iff_exists.mp h.confirm
  have hconfirm : s.confirmResp S a.random a.data = ({ s with
      channel := (channelHsConfirmSigned S s.channel (s.sign S) a.random resp).1
      peerPubkey := resp.pub, state := .established }, some (encodeConfirm box)) := by
    have hguard : ¬ (s.isInitiator = false ∨ s.state ≠ .connecting) := by
      simp [h.role, h.connecting]
    rw [confirmResp, if_neg hguard, h.parse]
    simp only
    generalize channelHsConfirmSigned S s.channel (s.sign S) a.random resp = out at hbox
    obtain ⟨c, msg⟩ := out
    cases hbox
    rfl
  rw [hconfirm]
  by_cases hsend : a.sendOk = true
  · simp only [if_pos hsend]
    exact ⟨rfl, rfl⟩
  · simp only [if_neg hsend]
    exact ⟨trivial, trivial⟩

theorem accepts_of_handshakeStep (hstate : s.state = .connecting) (hsource : s.FromPeer a)
    (hrole : s.isInitiator = true) (hstep : HandshakeStep S s a s')
    (hest : s'.state = .established) : ∃ resp, s.Accepts S a resp ∧ s'.peerPubkey = resp.pub := by
  refine hstep.of_established
    (P := fun s' => ∃ resp, s.Accepts S a resp ∧ s'.peerPubkey = resp.pub) hstate hest ?_ ?_
  · intro resp c box hs role sent parse confirm
    refine ⟨resp, ⟨hrole, hstate, sent, hsource, parse, ?_⟩, rfl⟩
    rw [confirm]
    rfl
  · intro box role
    exact absurd hrole (by rw [role]; decide)

end Session

namespace Client
variable {S : Suite Bytes} (run : Run (Client.system S))

structure EstablishedAt (h j : ℕ) (s : Session) (a : Arrival) : Prop where
  event : run.event j = .session h (.packet a)
  before : (run.state j).heap h = some s
  connecting : s.state = .connecting
  established : (s.processPacket S (run.state j).registry a).session.state = .established

/-- The keys are derived from the session's two ephemeral keys, and a signature over its transcript
was verified under the key of its peer before it was established. -/
structure Authenticated (h k : ℕ) (s : Session) : Prop where
  derived : s.channel.Derived S
  verified : ∃ j < k, ∃ s₁ a sig, EstablishedAt run h j s₁ a ∧ s₁.presented S a = some sig ∧
    ∃ peer, s.getPeer = some peer ∧ S.verify peer (s.transcript S) sig = true

variable {run} {h j k : ℕ} {s : Session} {P : Bytes}

theorem fresh_act (c : Client) (a : Action) : c.fresh ≤ (c.act S a).fresh := by
  cases a with
  | create o => exact Nat.le_succ _
  | session h e =>
    change c.fresh ≤ (c.onSession h _).1.fresh
    unfold onSession
    cases c.heap h <;> exact le_rfl
  | holepunchResp ephemeral =>
    obtain ⟨_, heq⟩ := c.onHolepunchResp_eq ephemeral
    rw [act, heq]
  | probe ephemeral ip port =>
    obtain ⟨_, heq⟩ := c.onProbe_eq (S := S) ephemeral ip port
    rw [act, heq]
    cases c.punched ephemeral with
    | none => exact le_rfl
    | some ctx => exact Nat.le_succ _
  | _ => exact le_rfl

theorem fresh_mono (run : Run (Client.system S)) {i : ℕ} (hij : i ≤ j) (hj : j ≤ run.len) :
    (run.state i).fresh ≤ (run.state j).fresh :=
  run.monotone_of_step (f := Client.fresh)
    (fun k hk => by rw [run.steps k hk]; exact fresh_act _ _) hij hj

theorem lt_fresh_of_heap : ∀ k ≤ run.len, ∀ h s, (run.state k).heap h = some s →
    h < (run.state k).fresh := by
  refine run.position_induction (fun h s hs => ?_) fun k hk ih h s hs => ?_
  · rw [run.start.1] at hs
    cases hs
  · have hgrow := fresh_mono run (Nat.le_succ k) hk
    rcases heap_step run hk hs with hs | ⟨o, ho, rfl, _⟩ | ⟨e, s₀, _, hs₀, _⟩
    · exact (ih h s hs).trans_le hgrow
    · rw [run.steps k hk, ho]
      exact Nat.lt_succ_self _
    · exact (ih h s₀ hs₀).trans_le hgrow

theorem ready_of_run : ∀ k ≤ run.len, ∀ h s, (run.state k).heap h = some s → s.Ready S := by
  refine run.invariant (I := fun c => ∀ h s, c.heap h = some s → s.Ready S) (fun c hc h s hs => ?_)
    fun k hk ih => ?_
  · rw [hc.1] at hs
    cases hs
  · rw [run.steps k hk]
    refine sessions_act (fun c o => ?_) (fun _ _ _ _ hno => nomatch hno)
      (fun reg s e hs => hs.change (Session.change_apply S reg s e)) ih
    cases o with
    | dial ip port pubkey seed fd callback => exact fun hno _ => nomatch hno
    | accept a seed => exact fun _ hsent => nomatch hsent

theorem exists_establishedAt : ∀ k ≤ run.len, ∀ h s, (run.state k).heap h = some s →
    s.state = .established → ∃ j < k, ∃ s₁ a, EstablishedAt run h j s₁ a ∧
      ((s₁.processPacket S (run.state j).registry a).session.channel = s.channel ∧
        (s₁.processPacket S (run.state j).registry a).session.peerPubkey = s.peerPubkey) := by
  refine run.position_induction (fun h s hs => ?_) fun k hk ih h s hs hest => ?_
  · rw [run.start.1] at hs
    cases hs
  rcases heap_step run hk hs with hs | ⟨o, _, _, rfl⟩ | ⟨e, s₀, he, hs₀, rfl⟩
  · obtain ⟨j, hj, hrest⟩ := ih h s hs hest
    exact ⟨j, hj.trans (Nat.lt_succ_self k), hrest⟩
  · cases o <;> cases hest
  · have hchange := Session.change_apply S (run.state k).registry s₀ e
    generalize hs' : (s₀.apply S (run.state k).registry e).1 = s' at hchange hest ⊢
    cases hchange with
    | streams only =>
      obtain ⟨svc, streams, rfl⟩ := only
      obtain ⟨j, hj, hrest⟩ := ih h s₀ hs₀ hest
      exact ⟨j, hj.trans (Nat.lt_succ_self k), hrest⟩
    | pending seed sendOk hs state role => exact absurd (state.symm.trans hest) (by decide)
    | closed callback => cases hest
    | handshake a state source step =>
      change (s₀.processPacket S (run.state k).registry a).session = s' at hs'
      exact ⟨k, Nat.lt_succ_self k, s₀, a, ⟨he, hs₀, state, by rw [hs', hest]⟩, by rw [hs'],
        by rw [hs']⟩

theorem authenticated_of_established (hk : k ≤ run.len) (hs : (run.state k).heap h = some s)
    (hest : s.state = .established) : Authenticated run h k s := by
  obtain ⟨j, hj, s₁, a, hat, hchan, hpeer⟩ := exists_establishedAt k hk h s hs hest
  have hready := ready_of_run j (hj.le.trans hk) h s₁ hat.before
  have hstep := (Session.handshakeStep_of_established hat.connecting hat.established).2
  have htranscript : (s₁.processPacket S (run.state j).registry a).session.transcript S =
      s.transcript S := by
    rw [Session.transcript, Session.transcript, hchan]
  obtain ⟨hderived, sig, hsig, hverify⟩ :=
    Session.verified_of_handshakeStep hready hat.connecting hstep hat.established
  rw [hchan] at hderived
  rw [htranscript, hpeer] at hverify
  exact ⟨hderived, j, hj, s₁, a, sig, hat, hsig, s.peerPubkey, if_pos hest, hverify⟩

/-- Every established session of a client is authenticated, whatever hole punches and probes the run
has. -/
theorem established_authenticated (run : Run (Client.system S)) : ∀ k ≤ run.len, ∀ h s,
    (run.state k).heap h = some s → s.state = .established → Authenticated run h k s :=
  fun _ hk _ _ hs hest => authenticated_of_established hk hs hest

def dialRun : Run (Client.system keyedSuite) :=
  runOf keyedSuite (replicate 32 1) (replicate 32 1)
    [.create (.dial 1 1 (some (replicate 32 7)) (replicate 32 3) 5 true),
      .session 0 (.pending (replicate 32 9) true),
      .probe (replicate 32 9) 1 1,
      .session 0 (.packet ⟨encodeResp (signedResp (replicate 32 7) (replicate 32 9)
        (replicate 32 8)), 1, 1, replicate 24 0, true⟩)]

def dialRunSession : Session :=
  ((dialRun.state 4).heap 0).getD ((dialRun.state 4).sessionNew keyedSuite)

theorem dialRun_authenticated : Authenticated dialRun 0 4 dialRunSession := by
  have hs : (dialRun.state 4).heap 0 = some dialRunSession := eq_some_getD (by decide +kernel) _
  have hest : dialRunSession.state = .established := by decide +kernel
  exact established_authenticated dialRun 4 (by decide) 0 _ hs hest

def Dialed (run : Run (Client.system S)) (h k : ℕ) (P : Bytes) : Prop :=
  ∃ i < k, ∃ ip port seed fd callback,
    run.event i = .create (.dial ip port (some P) seed fd callback) ∧ (run.state i).fresh = h

/-- The session is authenticated, and its peer is the owner of the key. -/
def AuthenticatedAs (run : Run (Client.system S)) (h k : ℕ) (s : Session) (P : Bytes) : Prop :=
  s.getPeer = some P ∧ Authenticated run h k s

theorem fresh_lt_of_create {i : ℕ} {o : Origin} (hij : i < j) (hj : j ≤ run.len)
    (hevent : run.event i = .create o) : (run.state i).fresh < (run.state j).fresh := by
  have hnext := run.steps i (hij.trans_le hj)
  have hgrow := fresh_mono run (Nat.succ_le_of_lt hij) hj
  rw [hnext, hevent] at hgrow
  exact hgrow

theorem create_unique (run : Run (Client.system S)) {i : ℕ} {o o' : Origin} (hi : i < run.len)
    (hj : j < run.len) (ho : run.event i = .create o) (ho' : run.event j = .create o')
    (hfresh : (run.state i).fresh = (run.state j).fresh) : i = j := by
  rcases lt_trichotomy i j with hlt | heq | hlt
  · have := fresh_lt_of_create hlt hj.le ho
    omega
  · exact heq
  · have := fresh_lt_of_create hlt hi.le ho'
    omega

theorem Dialed.of_succ (hd : Dialed run h (k + 1) P) (hk : k < run.len) :
    Dialed run h k P ∨ ∃ ip port seed fd callback,
      run.event k = .create (.dial ip port (some P) seed fd callback) ∧ (run.state k).fresh = h := by
  obtain ⟨i, hi, hrest⟩ := hd
  rcases Nat.lt_succ_iff_lt_or_eq.mp hi with hi | rfl
  · exact .inl ⟨i, hi, hrest⟩
  · exact .inr hrest

theorem Dialed.initiator : ∀ k ≤ run.len, Dialed run h k P → ∀ s,
    (run.state k).heap h = some s → s.isInitiator = true := by
  refine run.position_induction (fun _ s hs => ?_) fun k hk ih hd s hs => ?_
  · rw [run.start.1] at hs
    cases hs
  have hold : ∀ s₀, (run.state k).heap h = some s₀ → Dialed run h k P := by
    intro s₀ hs₀
    rcases hd.of_succ hk with hd | ⟨_, _, _, _, _, _, hfresh⟩
    · exact hd
    · exact absurd (lt_fresh_of_heap k hk.le h s₀ hs₀) (by rw [hfresh]; exact lt_irrefl h)
  rcases heap_step run hk hs with hs | ⟨o, ho, hfresh, rfl⟩ | ⟨e, s₀, _, hs₀, rfl⟩
  · exact ih (hold s hs) s hs
  · obtain ⟨i, hi, _, _, _, _, _, hdial, hfresh'⟩ := hd
    obtain rfl := create_unique run ((Nat.lt_succ_iff.mp hi).trans_lt hk) hk hdial ho
      (hfresh'.trans hfresh)
    rw [ho] at hdial
    cases hdial
    rfl
  · exact (Session.change_apply S _ s₀ e).isInitiator.trans (ih (hold s₀ hs₀) s₀ hs₀)

theorem peer_of_accepts {s₁ : Session} {a : Arrival} {resp : RespMsg Bytes}
    (hevent : run.event j = .session h (.packet a)) (hs₁ : (run.state j).heap h = some s₁)
    (haccept : s₁.Accepts S a resp) : ∀ k ≤ run.len, j < k → ∀ s,
      (run.state k).heap h = some s → s.state ≠ .connecting ∧ s.peerPubkey = resp.pub := by
  refine run.position_induction (fun hj => absurd hj j.not_lt_zero) fun k hk ih hj s hs => ?_
  rcases Nat.lt_succ_iff_lt_or_eq.mp hj with hj | rfl
  · rcases heap_step run hk hs with hs | ⟨o, ho, hfresh, rfl⟩ | ⟨e, s₀, _, hs₀, rfl⟩
    · exact ih hj s hs
    · have hlt := lt_fresh_of_heap j (hj.le.trans hk.le) h s₁ hs₁
      have hle := fresh_mono run hj.le hk.le
      omega
    · obtain ⟨hstate, hpeer⟩ := ih hj s₀ hs₀
      have hchange := Session.change_apply S (run.state k).registry s₀ e
      generalize (s₀.apply S (run.state k).registry e).1 = s' at hchange ⊢
      cases hchange with
      | streams only =>
        obtain ⟨svc, streams, rfl⟩ := only
        exact ⟨hstate, hpeer⟩
      | pending seed sendOk hs state role | handshake a state source step =>
        exact absurd state hstate
      | closed callback => exact ⟨fun hconn => (nomatch hconn), hpeer⟩
  · rw [run.steps j hk, hevent] at hs
    change ((run.state j).onSession h _).1.heap h = some s at hs
    rw [heap_onSession, if_pos rfl, hs₁, map_some] at hs
    obtain ⟨hest, hpeer⟩ := haccept.established (run.state j).registry
    rw [← some.inj hs]
    exact ⟨fun hconn => absurd (hest.symm.trans hconn) (by decide), hpeer⟩

theorem Dialed.authenticatedAs_iff (hd : Dialed run h k P) (hk : k ≤ run.len)
    (hs : (run.state k).heap h = some s) (hest : s.state = .established) :
    AuthenticatedAs run h k s P ↔ ∀ j < k, ∀ s₁ a resp, run.event j = .session h (.packet a) →
      (run.state j).heap h = some s₁ → s₁.Accepts S a resp → resp.pub = P := by
  have hget : s.getPeer = some s.peerPubkey := if_pos hest
  constructor
  · rintro ⟨hpeer, _⟩ j hj s₁ a resp hevent hs₁ haccept
    rw [← (peer_of_accepts hevent hs₁ haccept k hk hj s hs).2]
    exact some.inj (hget.symm.trans hpeer)
  · intro hall
    obtain ⟨j, hj, s₁, a, hat, _, hpeer⟩ := exists_establishedAt k hk h s hs hest
    have hold : Dialed run h j P := by
      obtain ⟨i, hi, ip, port, seed, fd, callback, hdial, hfresh⟩ := hd
      have hlt := lt_fresh_of_heap j (hj.le.trans hk) h s₁ hat.before
      refine ⟨i, ?_, ip, port, seed, fd, callback, hdial, hfresh⟩
      by_contra hij
      have hle := fresh_mono run (not_lt.mp hij) (hi.le.trans hk)
      omega
    have hrole := hold.initiator j (hj.le.trans hk) s₁ hat.before
    obtain ⟨hsource, hstep⟩ :=
      Session.handshakeStep_of_established hat.connecting hat.established
    obtain ⟨resp, haccept, hresp⟩ :=
      Session.accepts_of_handshakeStep hat.connecting hsource hrole hstep hat.established
    have hkey := hall j hj s₁ a resp hat.event hat.before haccept
    refine ⟨?_, authenticated_of_established hk hs hest⟩
    rw [hget, ← hpeer, hresp, hkey]

end Client
end Norn
