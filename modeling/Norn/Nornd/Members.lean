import Norn.Nornd.Transport

/-!
# The sessions of the transport

Every event of the daemon is one action of its client, so its runs are runs of the client.
-/

namespace Norn
open Function Option List

def Origin.pubkey? : Origin → Option Bytes
  | .dial _ _ pubkey _ _ _ => pubkey
  | .accept _ _ => none

structure Transport where
  client : Client
  peers : List OutPeer
  /-- The entry that the callback of a session gets. -/
  owner : ℕ → Option ℕ
  /-- The entry that the callback of a stream gets. -/
  streamOwner : ℕ × ℕ → Option ℕ
  /-- The entry and the session for which a callback is about to open a stream. -/
  opening : Option (ℕ × ℕ)

inductive TransportEvent
  /-- What the library and the other parts of the daemon do. -/
  | act (a : Action)
  /-- A dial of a member with an address, which may be malformed. -/
  | dialPeer (p : ℕ) (address : Option (UInt32 × UInt16)) (seed : Bytes) (fd : Option ℕ)
  /-- A dial of a member whose address is looked up. -/
  | dialDht (p now : ℕ)
  /-- The endpoint of a member has been found, in the cache or by a lookup, or was not. -/
  | resolved (p : ℕ) (endpoint : Option NornEndpoint) (now : ℕ) (seed : Bytes) (fd : Option ℕ)
      (ephemeral : Bytes × Bytes) (sent : Bool)
  | countdown (p : ℕ)
  /-- The callback that is running opens its stream. -/
  | openRaft
  | send (pubkey data : Bytes)

instance : Inhabited TransportEvent := ⟨.act .idle⟩

namespace Transport
variable (d : Transport)

def setPeer (p : ℕ) (f : OutPeer → OutPeer) : Transport :=
  { d with peers := d.peers.modify p f }

def onOutStream (p : ℕ) (st : ℕ × ℕ) : StreamState → Transport
  | .ready => d.setPeer p fun op => { op with stream := some st }
  | .closed | .reset => d.setPeer p fun op => { op with stream := none }

/-- A dial without a session has failed. -/
def failed (p : ℕ) : Transport := d.setPeer p fun op =>
  { op with established := false, session := none, stream := none, redial := redialTicks }

def onOutSession (p h : ℕ) : SessionState → Transport
  | .established =>
    { d.setPeer p fun op => { op with session := some h, established := true } with
      opening := if (d.peers[p]?).any fun op => op.stream.isNone then some (p, h) else d.opening }
  | .closing | .closed => d.failed p
  | .resolving | .connecting => d.setPeer p fun op => { op with session := some h }

def deliver (h : ℕ) (d : Transport) : Effect → Transport
  | .session state => (d.owner h).elim d fun p => d.onOutSession p h state
  | .stream i state => (d.streamOwner (h, i)).elim d fun p => d.onOutStream p (h, i) state
  | _ => d

def callbacks (h : ℕ) (effects : List Effect) : Transport := effects.foldl (deliver h) d

def action : TransportEvent → Action
  | .act a => a
  | .dialPeer p (some (ip, port)) seed (some fd) =>
    (d.peers[p]?).elim .idle fun op => .create (.dial ip port (some op.pubkey) seed fd true)
  | .dialDht p now => (d.peers[p]?).elim .idle fun op => .lookup op.pubkey now
  | .resolved p endpoint now seed fd ephemeral sent =>
    match endpoint with
    | none => .idle
    | some ep =>
      match ep.dials fd with
      | some fd =>
        (d.peers[p]?).elim .idle fun op => .create (.dial ep.ip ep.port (some op.pubkey) seed fd true)
      | none =>
        if ep.rendezvous then
          (d.peers[p]?).elim .idle fun op =>
            .holepunchReq ⟨op.pubkey, true, p, ephemeral.1, ephemeral.2⟩ ep.pubkey now sent
        else .idle
  | .openRaft => d.opening.elim .idle fun o => .session o.2 (.openSvc nornSvcRaft)
  | .send pubkey data =>
    (transportSend d.peers pubkey data).elim .idle fun out => .session out.1.1 (.write out.1.2 out.2)
  | .dialPeer .. | .countdown _ => .idle

variable (S : Suite Bytes)

def effects (d : Transport) (h : ℕ) (e : SessionEvent) : List Effect :=
  (d.client.heap h).elim [] fun s => (s.apply S d.client.registry e).2

def own (p : ℕ) : Transport :=
  { d with owner := update d.owner d.client.fresh (some p) }

def react (d : Transport) : TransportEvent → Transport
  | .act (.session h (.closeSession callback)) =>
    -- the callback of the session is replaced by one that is not of the transport
    callbacks { d with owner := update d.owner h none } h
      (d.effects S h (.closeSession callback))
  | .act (.session h e) => d.callbacks h (d.effects S h e)
  | .act (.probe ephemeral _ _) => (d.client.punched ephemeral).elim d fun ctx =>
      (d.own ctx.userData).onOutSession ctx.userData d.client.fresh .established
  | .act _ => d
  | .dialPeer p none _ _ => d.failed p
  | .dialPeer p (some _) _ fd =>
    let d := d.setPeer p fun op => { op with established := false, stream := none, session := none }
    if fd.isSome then d.own p else d
  | .dialDht p _ => d.setPeer p fun op =>
      { op with established := false, stream := none, session := none }
  | .resolved p endpoint now _ fd _ sent =>
    match endpoint with
    | none => d.failed p
    | some ep =>
      if (ep.dials fd).isSome then d.own p
      else if ep.rendezvous ∧ d.client.holepunchSent ep.pubkey now sent then d
      else d.failed p
  | .countdown p => d.setPeer p fun op => { op with redial := op.redial - 1 }
  | .openRaft =>
    match d.opening with
    | none => d
    | some (p, h) =>
      match (d.client.heap h).bind fun s => (s.streamOpenSvc nornSvcRaft).2.1 with
      | none => { d with opening := none }
      | some i =>
        { d with
          streamOwner := update d.streamOwner (h, i) (some p)
          opening := none }.onOutStream p (h, i) .ready
  | .send _ _ => d

def Idle (p : ℕ) (f : ℕ → Bool) : Prop :=
  (d.peers[p]?).any fun op => op.session.isNone && op.stream.isNone && f op.redial

instance (d : Transport) (p : ℕ) (f : ℕ → Bool) : Decidable (d.Idle p f) :=
  inferInstanceAs (Decidable (_ = true))

def Enabled : TransportEvent → Prop
  | .openRaft => d.opening ≠ none
  | .dialPeer p _ _ _ | .dialDht p _ => d.opening = none ∧ d.Idle p (· == 0)
  | .countdown p => d.opening = none ∧ d.Idle p (0 < ·)
  | _ => d.opening = none

instance (d : Transport) (e : TransportEvent) : Decidable (d.Enabled e) := by
  cases e <;> unfold Enabled <;> infer_instance

def step (d : Transport) (e : TransportEvent) : Option Transport :=
  if d.Enabled e then some { d.react S e with client := d.client.act S (d.action e) } else none

def system : System Transport TransportEvent where
  init d := (Client.system S).init d.client ∧ (∀ op ∈ d.peers, op.stream = none) ∧
    d.owner = (fun _ => none) ∧ d.streamOwner = (fun _ => none) ∧ d.opening = none
  next d e d' := d.step S e = some d'

variable {S : Suite Bytes} {e : TransportEvent}

theorem step_eq {d d' : Transport} (h : d.step S e = some d') :
    d' = { d.react S e with client := d.client.act S (d.action e) } := by
  unfold step at h
  split_ifs at h
  exact (some.inj h).symm

def clientRun {S : Suite Bytes} (run : Run (system S)) : Run (Client.system S) where
  len := run.len
  state k := (run.state k).client
  event k := (run.state k).action (run.event k)
  start := run.start.1
  steps k hk := by rw [step_eq (run.steps k hk)]; rfl

theorem event_clientRun (run : Run (system S)) (k : ℕ) :
    (clientRun run).event k = (run.state k).action (run.event k) := rfl

theorem action_openRaft : d.action .openRaft =
    d.opening.elim .idle fun o => .session o.2 (.openSvc nornSvcRaft) := rfl

section
variable {M : ℕ → Bytes → Prop} {d : Transport}

/-- What the entries of the transport refer to belongs to their keys. -/
structure Bound (M : ℕ → Bytes → Prop) (d : Transport) : Prop where
  owner : ∀ (h p : ℕ) (op : OutPeer), d.owner h = some p → d.peers[p]? = some op → M h op.pubkey
  streamOwner : ∀ (h i p : ℕ) (op : OutPeer), d.streamOwner (h, i) = some p → d.peers[p]? = some op →
    M h op.pubkey
  opening : ∀ (p h : ℕ) (op : OutPeer), d.opening = some (p, h) → d.peers[p]? = some op → M h op.pubkey
  stream : ∀ (p : ℕ) (op : OutPeer) (h i : ℕ), d.peers[p]? = some op → op.stream = some (h, i) →
    M h op.pubkey

theorem Bound.mono {N : ℕ → Bytes → Prop} (hb : Bound M d) (hM : ∀ h P, M h P → N h P) :
    Bound N d where
  owner h p op ho hp := hM _ _ (hb.owner h p op ho hp)
  streamOwner h i p op ho hp := hM _ _ (hb.streamOwner h i p op ho hp)
  opening p h op ho hp := hM _ _ (hb.opening p h op ho hp)
  stream p op h i hp hs := hM _ _ (hb.stream p op h i hp hs)

variable {p : ℕ} {f : OutPeer → OutPeer}

theorem getElem?_setPeer {q : ℕ} {op : OutPeer} (h : (d.setPeer p f).peers[q]? = some op)
    (hkey : ∀ op, (f op).pubkey = op.pubkey) :
    ∃ op₀, d.peers[q]? = some op₀ ∧ op.pubkey = op₀.pubkey ∧ (op = op₀ ∨ q = p ∧ op = f op₀) := by
  change (d.peers.modify p f)[q]? = some op at h
  rw [getElem?_modify] at h
  obtain ⟨op₀, hop₀, rfl⟩ := map_eq_some_iff.mp h
  refine ⟨op₀, hop₀, ?_⟩
  by_cases hpq : p = q
  · rw [if_pos hpq]
    exact ⟨hkey op₀, .inr ⟨hpq.symm, rfl⟩⟩
  · rw [if_neg hpq]
    exact ⟨rfl, .inl rfl⟩

section
variable (hb : Bound M d)
include hb

theorem Bound.setPeer (hkey : ∀ op, (f op).pubkey = op.pubkey)
    (hstream : ∀ op, d.peers[p]? = some op → ∀ h i, (f op).stream = some (h, i) →
      op.stream = some (h, i) ∨ M h op.pubkey) : Bound M (d.setPeer p f) where
  owner h q op ho hq := by
    obtain ⟨op₀, hop₀, hpub, _⟩ := getElem?_setPeer hq hkey
    rw [hpub]
    exact hb.owner h q op₀ ho hop₀
  streamOwner h i q op ho hq := by
    obtain ⟨op₀, hop₀, hpub, _⟩ := getElem?_setPeer hq hkey
    rw [hpub]
    exact hb.streamOwner h i q op₀ ho hop₀
  opening q h op ho hq := by
    obtain ⟨op₀, hop₀, hpub, _⟩ := getElem?_setPeer hq hkey
    rw [hpub]
    exact hb.opening q h op₀ ho hop₀
  stream q op h i hq hs := by
    obtain ⟨op₀, hop₀, hpub, hor⟩ := getElem?_setPeer hq hkey
    rw [hpub]
    rcases hor with rfl | ⟨rfl, rfl⟩
    · exact hb.stream q op h i hop₀ hs
    · rcases hstream op₀ hop₀ h i hs with hold | hnew
      · exact hb.stream q op₀ h i hop₀ hold
      · exact hnew

theorem Bound.onOutStream {st : ℕ × ℕ} (hM : ∀ op, d.peers[p]? = some op → M st.1 op.pubkey)
    (state : StreamState) : Bound M (d.onOutStream p st state) := by
  cases state with
  | ready =>
    refine hb.setPeer (fun _ => rfl) fun op hop h i hs => .inr ?_
    cases some.inj hs
    exact hM op hop
  | closed | reset => exact hb.setPeer (fun _ => rfl) fun op _ h i hs => nomatch hs

theorem Bound.failed (p : ℕ) : Bound M (d.failed p) :=
  hb.setPeer (fun _ => rfl) fun _ _ _ _ hs => nomatch hs

theorem Bound.onOutSession {h : ℕ} (hM : ∀ op, d.peers[p]? = some op → M h op.pubkey)
    (state : SessionState) : Bound M (d.onOutSession p h state) := by
  cases state with
  | established =>
    have hset : Bound M (d.setPeer p fun op => { op with session := some h, established := true }) :=
      hb.setPeer (fun _ => rfl) fun op _ h i hs => .inl hs
    refine ⟨hset.owner, hset.streamOwner, fun q j op ho hq => ?_, hset.stream⟩
    change (d.setPeer p fun op => { op with session := some h, established := true }).peers[q]? = _
      at hq
    change (if _ then some (p, h) else d.opening) = some (q, j) at ho
    split_ifs at ho with hnone
    · cases some.inj ho
      obtain ⟨op₀, hop₀, hpub, _⟩ := getElem?_setPeer hq fun _ => rfl
      rw [hpub]
      exact hM op₀ hop₀
    · exact hset.opening q j op ho hq
  | closing | closed => exact hb.failed p
  | resolving | connecting => exact hb.setPeer (fun _ => rfl) fun op _ h i hs => .inl hs

theorem Bound.deliver (h : ℕ) (e : Effect) : Bound M (deliver h d e) := by
  cases e with
  | session state =>
    change Bound M ((d.owner h).elim d fun p => d.onOutSession p h state)
    cases ho : d.owner h with
    | none => exact hb
    | some p => exact hb.onOutSession (fun op hop => hb.owner h p op ho hop) state
  | stream i state =>
    change Bound M ((d.streamOwner (h, i)).elim d fun p => d.onOutStream p (h, i) state)
    cases ho : d.streamOwner (h, i) with
    | none => exact hb
    | some p => exact hb.onOutStream (fun op hop => hb.streamOwner h i p op ho hop) state
  | send data | sealed frame | accept service sid | datagram service body => exact hb

theorem Bound.callbacks (h : ℕ) (effects : List Effect) : Bound M (d.callbacks h effects) := by
  unfold Transport.callbacks
  induction effects generalizing d with
  | nil => exact hb
  | cons e effects ih => exact ih (hb.deliver h e)

theorem Bound.own (hM : ∀ op, d.peers[p]? = some op → M d.client.fresh op.pubkey) :
    Bound M (d.own p) where
  owner h q op ho hq := by
    change update d.owner d.client.fresh (some p) h = some q at ho
    rw [update_apply] at ho
    split_ifs at ho with hh
    · cases ho
      rw [hh]
      exact hM op hq
    · exact hb.owner h q op ho hq
  streamOwner := hb.streamOwner
  opening := hb.opening
  stream := hb.stream

theorem Bound.react (hun : d.client.Unpunched)
    (hM : ∀ o P, d.action e = .create o → o.pubkey? = some P → M d.client.fresh P) : Bound M (d.react S e) := by
  have hnew : ∀ (p : ℕ) (ip : UInt32) (port : UInt16) (seed : Bytes) (fd : ℕ),
      (d.action e = (d.peers[p]?).elim .idle fun op =>
        .create (.dial ip port (some op.pubkey) seed fd true)) →
      ∀ op : OutPeer, d.peers[p]? = some op → M d.client.fresh op.pubkey := by
    intro p ip port seed fd haction op hop
    rw [hop] at haction
    exact hM _ _ haction rfl
  cases e with
  | act a =>
    cases a with
    | session h e =>
      cases e with
      | closeSession callback =>
        refine Bound.callbacks (d := { d with owner := update d.owner h none })
          ⟨fun j p op ho hp => ?_, hb.streamOwner, hb.opening, hb.stream⟩ h _
        change update d.owner h none j = some p at ho
        rw [update_apply] at ho
        split_ifs at ho
        exact hb.owner j p op ho hp
      | _ => exact hb.callbacks h _
    | probe ephemeral ip port =>
      change Bound M ((d.client.punched ephemeral).elim d _)
      rw [hun.punched_eq_none]
      exact hb
    | _ => exact hb
  | dialPeer p address seed fd =>
    cases address with
    | none => exact hb.failed p
    | some address =>
      have hset : Bound M (d.setPeer p fun op =>
          { op with established := false, stream := none, session := none }) :=
        hb.setPeer (fun _ => rfl) fun op _ h i hs => nomatch hs
      cases fd with
      | none => exact hset
      | some fd =>
        refine hset.own fun op hop => ?_
        obtain ⟨op₀, hop₀, hpub, _⟩ := getElem?_setPeer hop fun _ => rfl
        rw [hpub]
        exact hnew p address.1 address.2 seed fd rfl op₀ hop₀
  | dialDht p now => exact hb.setPeer (fun _ => rfl) fun op _ h i hs => nomatch hs
  | resolved p endpoint now seed fd ephemeral sent =>
    cases endpoint with
    | none => exact hb.failed p
    | some ep =>
      change Bound M (if (ep.dials fd).isSome then _ else _)
      cases hfd : ep.dials fd with
      | some fd' =>
        refine hb.own (hnew p ep.ip ep.port seed fd' ?_)
        change (match ep.dials fd with | some fd => _ | none => _) = _
        rw [hfd]
      | none =>
        rw [if_neg (by decide)]
        split_ifs
        · exact hb
        · exact hb.failed p
  | countdown p => exact hb.setPeer (fun _ => rfl) fun op _ h i hs => .inl hs
  | openRaft =>
    change Bound M (match d.opening with | none => d | some (p, h) => _)
    cases hopening : d.opening with
    | none => exact hb
    | some o =>
      obtain ⟨p, h⟩ := o
      simp only
      have hclosed : Bound M { d with opening := none } :=
        ⟨hb.owner, hb.streamOwner, fun _ _ _ ho => (nomatch ho), hb.stream⟩
      cases (d.client.heap h).bind fun s => (s.streamOpenSvc nornSvcRaft).2.1 with
      | none => exact hclosed
      | some i =>
        have hkey := fun op hop => hb.opening p h op hopening hop
        refine Bound.onOutStream (d := { d with
            streamOwner := update d.streamOwner (h, i) (some p), opening := none })
          ⟨hb.owner, fun j i' q op ho hq => ?_, hclosed.opening, hb.stream⟩ hkey .ready
        change update d.streamOwner (h, i) (some p) (j, i') = some q at ho
        rw [update_apply] at ho
        split_ifs at ho with hst
        · cases ho
          cases hst
          exact hkey op hq
        · exact hb.streamOwner j i' q op ho hq
  | send pubkey data => exact hb

end
end

section
variable {S : Suite Bytes} (run : Run (system S))

/-- The session was made by a dial of the key. -/
def MadeFor (h k : ℕ) (P : Bytes) : Prop :=
  ∃ i < k, ∃ o, (clientRun run).event i = .create o ∧ (run.state i).client.fresh = h ∧
    o.pubkey? = some P

theorem bound_of_run : ∀ k ≤ run.len, Bound (fun h => MadeFor run h k) (run.state k) := by
  refine run.position_induction ?_ fun k hk ih => ?_
  · obtain ⟨_, hstream, howner, hstreamOwner, hopening⟩ := run.start
    refine ⟨fun h p op ho => ?_, fun h i p op ho => ?_, fun p h op ho => ?_, fun p op h i hp hs => ?_⟩
    · rw [howner] at ho
      cases ho
    · rw [hstreamOwner] at ho
      cases ho
    · rw [hopening] at ho
      cases ho
    · rw [hstream op (mem_of_getElem? hp)] at hs
      cases hs
  · rw [step_eq (run.steps k hk)]
    have hmore := ih.mono (N := fun h => MadeFor run h (k + 1)) fun h P ⟨i, hi, hrest⟩ =>
      ⟨i, hi.trans (Nat.lt_succ_self k), hrest⟩
    have hreact := hmore.react (S := S) (e := run.event k)
      (Client.unpunched_of_run (clientRun run) k hk.le) fun o P haction hkey =>
        ⟨k, Nat.lt_succ_self k, o, haction, rfl, hkey⟩
    exact ⟨hreact.owner, hreact.streamOwner, hreact.opening, hreact.stream⟩

theorem madeFor_of_transportSend {k : ℕ} (hk : k ≤ run.len) {P data frame : Bytes} {h i : ℕ}
    (hsend : transportSend (run.state k).peers P data = some ((h, i), frame)) :
    MadeFor run h k P := by
  obtain ⟨op, hfind, hsend⟩ := bind_eq_some_iff.mp hsend
  obtain ⟨st, hst, hsend⟩ := bind_eq_some_iff.mp hsend
  obtain ⟨frame', _, heq⟩ := map_eq_some_iff.mp hsend
  cases heq
  obtain ⟨p, hp⟩ := getElem?_of_mem (mem_of_find?_eq_some hfind)
  have hkey : op.pubkey = P := by
    have hprop := find?_some hfind
    simp only [decide_eq_true_eq] at hprop
    exact hprop.2
  rw [← hkey]
  exact (bound_of_run run k hk).stream p op h i hp hst

variable {run}

theorem MadeFor.eq_of_dialed {h k : ℕ} {P Q : Bytes} (hk : k ≤ run.len) (hm : MadeFor run h k Q)
    (hd : Client.Dialed (clientRun run) h k P) : Q = P := by
  obtain ⟨i, hi, o, ho, hfresh, hkey⟩ := hm
  obtain ⟨j, hj, _, _, _, _, _, hdial, hfresh'⟩ := hd
  obtain rfl := Client.create_unique (clientRun run) (hi.trans_le hk) (hj.trans_le hk) ho
    hdial (hfresh.trans hfresh'.symm)
  rw [hdial] at ho
  cases ho
  exact (some.inj hkey).symm

/-- Dialed sessions are authenticated as the key dialed, and frames written only to such sessions,
exactly if every response accepted carries that key. -/
theorem dialed_authenticated_iff (run : Run (system S)) {h k : ℕ} {P : Bytes} {s : Session}
    (hk : k ≤ run.len) (hd : Client.Dialed (clientRun run) h k P)
    (hs : (run.state k).client.heap h = some s) (hest : s.state = .established) :
    (Client.AuthenticatedAs (clientRun run) h k s P ∧ ∀ Q data i frame,
        transportSend (run.state k).peers Q data = some ((h, i), frame) →
          Client.AuthenticatedAs (clientRun run) h k s Q) ↔
      ∀ j < k, ∀ s₁ a resp, (clientRun run).event j = .session h (.packet a) →
        (run.state j).client.heap h = some s₁ → s₁.Accepts S a resp → resp.pub = P := by
  refine Iff.trans ?_ (hd.authenticatedAs_iff hk hs hest)
  refine ⟨And.left, fun hauth => ⟨hauth, fun Q data i frame hsend => ?_⟩⟩
  rw [(madeFor_of_transportSend run hk hsend).eq_of_dialed hk hd]
  exact hauth

end

def boot (pubkey : Bytes) : Transport where
  client := (World.boot (replicate 32 1) (replicate 32 1)).client
  peers := [⟨pubkey, none, none, false, 0⟩]
  owner := fun _ => none
  streamOwner := fun _ => none
  opening := none

def greeting (resp : RespMsg Bytes) : List TransportEvent :=
  [.dialPeer 0 (some (1, 1)) (replicate 32 3) (some 5),
    .act (.session 0 (.pending (replicate 32 9) true)),
    .act (.session 0 (.packet ⟨encodeResp resp, 1, 1, replicate 24 0, true⟩)),
    .openRaft]

def answer (pubkey : Bytes) : RespMsg Bytes :=
  signedResp pubkey (replicate 32 9) (replicate 32 8)

def greetingRun (resp : RespMsg Bytes)
    (h : (execute (step keyedSuite) (boot (replicate 32 7)) (greeting resp)).isSome) :
    Run (system keyedSuite) :=
  Run.ofEvents (fun _ _ _ hs => hs) (boot (replicate 32 7))
    ⟨World.boot_init _ _, by simp [boot], rfl, rfl, rfl⟩ (greeting resp) h

def memberRun : Run (system keyedSuite) :=
  greetingRun (answer (replicate 32 7)) (by decide +kernel)

def strangerRun : Run (system keyedSuite) :=
  greetingRun (answer (replicate 32 6)) (by decide +kernel)

def greeted (run : Run (system keyedSuite)) : Session :=
  ((run.state 4).client.heap 0).getD ((run.state 4).client.sessionNew keyedSuite)

theorem memberRun_authenticated :
    Client.AuthenticatedAs (clientRun memberRun) 0 4 (greeted memberRun) (replicate 32 7) ∧
      ∀ Q data i frame, transportSend (memberRun.state 4).peers Q data = some ((0, i), frame) →
        Client.AuthenticatedAs (clientRun memberRun) 0 4 (greeted memberRun) Q := by
  have hs : (memberRun.state 4).client.heap 0 = some (greeted memberRun) :=
    eq_some_getD (by decide +kernel) _
  have hest : (greeted memberRun).state = .established := by decide +kernel
  have hd : Client.Dialed (clientRun memberRun) 0 4 (replicate 32 7) :=
    ⟨0, by decide, 1, 1, replicate 32 3, 5, true, rfl, rfl⟩
  refine (dialed_authenticated_iff memberRun (by decide) hd hs hest).mpr ?_
  intro j hj s₁ a resp hevent _ haccept
  have hparse := haccept.parse
  interval_cases j
  · cases hevent
  · cases hevent
  · cases hevent
    have hresp : parseResp (encodeResp (answer (replicate 32 7))) =
        some (answer (replicate 32 7)) := by decide +kernel
    rw [← some.inj (hresp.symm.trans hparse)]
    rfl
  · have hopening : (memberRun.state 3).opening = some (0, 0) := by decide +kernel
    have hlast : memberRun.event 3 = .openRaft := rfl
    rw [event_clientRun, hlast, action_openRaft, hopening] at hevent
    cases hevent

theorem strangerRun_not_authenticated :
    Client.Dialed (clientRun strangerRun) 0 4 (replicate 32 7) ∧
      (strangerRun.state 4).client.heap 0 = some (greeted strangerRun) ∧
      (greeted strangerRun).state = .established ∧
      (greeted strangerRun).getPeer = some (replicate 32 6) ∧
      transportSend (strangerRun.state 4).peers (replicate 32 7) [9] =
        some ((0, 0), [0, 0, 0, 1, 9]) ∧
      ¬ Client.AuthenticatedAs (clientRun strangerRun) 0 4 (greeted strangerRun)
        (replicate 32 7) := by
  have hpeer : (greeted strangerRun).getPeer = some (replicate 32 6) := by decide +kernel
  refine ⟨⟨0, by decide, 1, 1, replicate 32 3, 5, true, rfl, rfl⟩,
    eq_some_getD (by decide +kernel) _, by decide +kernel, hpeer, by decide +kernel, ?_⟩
  rintro ⟨hother, _⟩
  rw [hpeer] at hother
  exact absurd (some.inj hother) (by decide)

end Transport
end Norn
