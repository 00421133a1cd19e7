import Norn.Session.Client

/-!
# What a call is made of

A call of a client is a sequence of actions: a new session, or one thing that happens to one session.
-/

namespace Norn
open Relation List Option Function

inductive SessionEvent
  | packet (a : Arrival)
  | pending (seed : Bytes) (sendOk : Bool)
  | timers
  | openSvc (service : UInt16)
  | write (i : ℕ) (data : Bytes)
  | read (i cap : ℕ)
  | close (i : ℕ)
  | reset (i : ℕ)
  | datagram (service : UInt16) (data : Bytes)
  | closeSession (callback : Bool)

namespace Session
variable (S : Suite Bytes)

def apply (reg : Registry) (s : Session) : SessionEvent → Session × List Effect
  | .packet a => ((s.processPacket S reg a).session, (s.processPacket S reg a).effects)
  | .pending seed sendOk => s.sendPending S seed sendOk
  | .timers => s.tickMuxes 0
  | .openSvc service => ((s.streamOpenSvc service).1, (s.streamOpenSvc service).2.2)
  | .write i data => ((s.streamWrite i data).1, (s.streamWrite i data).2.2)
  | .read i cap => ((s.streamRead i cap).1, [])
  | .close i => s.streamClose i
  | .reset i => s.streamReset i
  | .datagram service data => (s, s.sendDatagram service data)
  | .closeSession callback => s.closeAsync callback

def Move (reg : Registry) (s s' : Session) : Prop :=
  ∃ e, (s.apply S reg e).1 = s'

abbrev Moves (reg : Registry) : Session → Session → Prop :=
  ReflTransGen (Move S reg)

variable {S : Suite Bytes} {reg : Registry} (s : Session)

theorem moves_drain (l : List Arrival) : Moves S reg s (s.drain S reg l).1 := by
  induction l generalizing s with
  | nil => exact .refl
  | cons a l ih => exact .head ⟨.packet a, rfl⟩ (ih _)

variable (input : TickInput)

theorem moves_tickPending : Moves S reg s (s.tickPending S input).1 := by
  unfold tickPending
  split_ifs
  · exact .single ⟨.pending _ _, rfl⟩
  · exact .refl

theorem moves_tickTimers : Moves S reg s (s.tickTimers 0).1 := by
  unfold tickTimers
  split_ifs
  · exact .single ⟨.timers, rfl⟩
  · exact .refl

theorem moves_tickDrain : Moves S reg s (s.tickDrain S reg input).1 := by
  unfold tickDrain
  split_ifs
  · exact moves_drain s _
  · exact .refl

theorem moves_tick : Moves S reg s (s.tick S reg input).1 := by
  unfold tick
  split_ifs
  · exact .refl
  · exact ((moves_tickPending s input).trans (moves_tickTimers _)).trans (moves_tickDrain _ input)

end Session

inductive Origin
  | dial (ip : UInt32) (port : UInt16) (pubkey : Option Bytes) (seed : Bytes) (fd : ℕ)
      (callback : Bool)
  | accept (a : Arrival) (seed : Bytes)

def Origin.session (S : Suite Bytes) (c : Client) : Origin → Session
  | .dial ip port pubkey seed fd callback => c.dialed S ip port pubkey seed fd callback
  | .accept a seed => c.accepted S a seed

inductive Action
  | idle
  | listen (fd : ℕ)
  | create (o : Origin)
  | lookup (pubkey : Bytes) (now : ℕ)
  | holepunchReq (ctx : DialContext) (rendezvousPubkey : Bytes) (now : ℕ) (sent : Bool)
  | holepunchResp (ephemeral : Bytes)
  | probe (ephemeral : Bytes) (ip : UInt32) (port : UInt16)
  | session (h : ℕ) (e : SessionEvent)
  | free (h : ℕ)

instance : Inhabited Action := ⟨.idle⟩

namespace Client
variable {S : Suite Bytes}

def create (S : Suite Bytes) (c : Client) (o : Origin) : Client := c.addSession (o.session S c)

def act (S : Suite Bytes) (c : Client) : Action → Client
  | .idle => c
  | .listen fd => { c with listenFd := some fd, listening := true }
  | .create o => c.create S o
  | .lookup pubkey now =>
    { c with endpointCache := (endpointCacheLookup now pubkey c.endpointCache).2 }
  | .holepunchReq ctx rendezvousPubkey now sent =>
    c.sendHolepunchReqAsync ctx rendezvousPubkey now sent
  | .holepunchResp ephemeral => c.onHolepunchResp ephemeral
  | .probe ephemeral ip port => (c.onProbe S ephemeral ip port).1
  | .session h e => (c.onSession h fun s => s.apply S c.registry e).1
  | .free h => c.freeSession h

def system (S : Suite Bytes) : System Client Action where
  init c := c.heap = (fun _ => none) ∧ c.sessions = [] ∧ c.Unpunched
  next c a c' := c' = c.act S a

def runOf (S : Suite Bytes) (pub sec : Bytes) (as : List Action) : Run (system S) :=
  Run.ofTotal (act S) (fun _ _ => rfl) (World.boot pub sec).client (World.boot_init pub sec) as

def Acts (S : Suite Bytes) (c c' : Client) : Prop := ∃ as : List Action, c' = as.foldl (act S) c

variable (c : Client)

theorem Acts.refl : Acts S c c := ⟨[], rfl⟩

theorem Acts.single (a : Action) : Acts S c (c.act S a) := ⟨[a], rfl⟩

theorem Acts.trans {c₁ c₂ c₃ : Client} (h₁ : Acts S c₁ c₂) (h₂ : Acts S c₂ c₃) : Acts S c₁ c₃ := by
  obtain ⟨as, rfl⟩ := h₁
  obtain ⟨bs, rfl⟩ := h₂
  exact ⟨as ++ bs, by rw [foldl_append]⟩

theorem heap_onSession (h : ℕ) (f : Session → Session × List Effect) (j : ℕ) :
    (c.onSession h f).1.heap j =
      if j = h then (c.heap j).map fun s => (f s).1 else c.heap j := by
  unfold onSession
  cases hs : c.heap h with
  | none =>
    split_ifs with hj
    · rw [hj, hs, map_none]
    · rfl
  | some s =>
    change update c.heap h (some (f s).1) j = _
    rw [update_apply]
    split_ifs with hj
    · rw [hj, hs, map_some]
    · rfl

theorem registry_onSession (h : ℕ) (f : Session → Session × List Effect) :
    (c.onSession h f).1.registry = c.registry := by
  unfold onSession
  cases c.heap h <;> rfl

variable {j h : ℕ} {e : Effect} {c : Client} {s s' : Session} {a : Action}

theorem effects_onSession (c : Client) (h : ℕ) (f : Session → Session × List Effect) :
    (j, e) ∈ (c.onSession h f).2 ↔ j = h ∧ ∃ s, c.heap j = some s ∧ e ∈ (f s).2 := by
  unfold onSession
  constructor
  · intro he
    cases hs : c.heap h with
    | none => rw [hs] at he; cases he
    | some s =>
      rw [hs] at he
      obtain ⟨e', he', heq⟩ := mem_map.mp he
      cases heq
      exact ⟨rfl, s, hs, he'⟩
  · rintro ⟨rfl, s, hs, he⟩
    rw [hs]
    exact mem_map.mpr ⟨e, he, rfl⟩

variable {input : TickInputs}

theorem effects_tickLoop {l : List ℕ} (hl : l.Nodup) (c : Client) :
    (j, e) ∈ (tickLoop S input l c).2 ↔
      j ∈ l ∧ ∃ s, c.heap j = some s ∧ e ∈ (s.tick S c.registry (input j)).2 := by
  induction l generalizing c with
  | nil => simp [tickLoop]
  | cons h l ih =>
    obtain ⟨hno, hl⟩ := nodup_cons.mp hl
    rw [tickLoop, mem_append, ih hl, effects_onSession, heap_onSession, registry_onSession]
    by_cases hj : j = h
    · subst hj
      simp [hno]
    · simp [hj]

theorem onSession_of_none (hs : c.heap h = none) (f : Session → Session × List Effect) :
    (c.onSession h f).1 = c := by
  unfold onSession
  rw [hs]

theorem onSession_of_some (hs : c.heap h = some s) (f : Session → Session × List Effect) :
    (c.onSession h f).1 = { c with heap := update c.heap h (some (f s).1) } := by
  unfold onSession
  rw [hs]

theorem acts_of_moves (hs : c.heap h = some s) (hm : Session.Moves S c.registry s s') :
    Acts S c { c with heap := update c.heap h (some s') } := by
  induction hm with
  | refl =>
    have hsame : update c.heap h (some s) = c.heap := by
      rw [← hs, update_eq_self]
    rw [hsame]
    exact Acts.refl c
  | tail _ hlast ih =>
    obtain ⟨e, rfl⟩ := hlast
    refine ih.trans ?_
    refine ⟨[.session h e], ?_⟩
    change _ = (onSession _ h _).1
    rw [onSession_of_some (update_self h _ _)]
    change _ = { c with heap := update (update c.heap h _) h _ }
    rw [update_idem]

theorem acts_onSession {f : Session → Session × List Effect}
    (hf : ∀ s, Session.Moves S c.registry s (f s).1) : Acts S c (c.onSession h f).1 := by
  cases hs : c.heap h with
  | none =>
    rw [onSession_of_none hs]
    exact Acts.refl c
  | some s =>
    rw [onSession_of_some hs]
    exact acts_of_moves hs (hf s)

theorem acts_tickLoop (l : List ℕ) (c : Client) : Acts S c (tickLoop S input l c).1 := by
  induction l generalizing c with
  | nil => exact Acts.refl c
  | cons h l ih => exact (acts_onSession fun s => Session.moves_tick s _).trans (ih _)

theorem acts_process (c : Client) (h : ℕ) (a : Arrival) : Acts S c (c.process S h a).1 :=
  acts_onSession fun _ => .single ⟨.packet a, rfl⟩

theorem acts_acceptOrRoute (c : Client) (a : Arrival) (seed : Bytes) :
    Acts S c (c.acceptOrRoute S a seed).2.1 := by
  unfold acceptOrRoute
  cases c.route a with
  | some h => exact acts_process c h a
  | none =>
    simp only
    split_ifs
    · exact Acts.refl c
    · exact (Acts.single c (.create (.accept a seed))).trans (acts_process _ _ _)

theorem acts_dialDirectAsync (c : Client) (ip : UInt32) (port : UInt16) (pubkey : Option Bytes)
    (seed : Bytes) (fd : Option ℕ) (cb : Bool) :
    Acts S c (c.dialDirectAsync S ip port pubkey seed fd cb) := by
  cases fd with
  | none => exact Acts.refl c
  | some fd => exact Acts.single c (.create (.dial ip port pubkey seed fd cb))

theorem acts_dialAsync (c : Client) (ctx : DialContext) (now : ℕ) (seed : Bytes) (fd : Option ℕ) :
    Acts S c (c.dialAsync S ctx now seed fd) := by
  refine (Acts.single c (.lookup ctx.peerPubkey now)).trans ?_
  unfold dialAsync
  dsimp only
  cases (endpointCacheLookup now ctx.peerPubkey c.endpointCache).1 with
  | none => exact Acts.refl _
  | some ep => exact acts_dialDirectAsync _ _ _ _ _ _ _

theorem acts_onEndpointResolved (c : Client) (ctx : DialContext) (endpoint : Option NornEndpoint)
    (now : ℕ) (seed : Bytes) (fd : Option ℕ) (sent : Bool) :
    Acts S c (c.onEndpointResolved S ctx endpoint now seed fd sent) := by
  unfold onEndpointResolved
  cases endpoint with
  | none => exact Acts.refl c
  | some ep =>
    dsimp only
    split_ifs
    · exact acts_dialDirectAsync _ _ _ _ _ _ _
    · exact Acts.single c (.holepunchReq ctx ep.pubkey now sent)
    · exact Acts.refl c

theorem acts_call (c : Client) (e : ClientCall) : Acts S c (c.call S e).1 := by
  cases e with
  | listen fd => exact Acts.single c (.listen fd)
  | dialDirect ip port pubkey seed fd cb => exact acts_dialDirectAsync c ip port pubkey seed fd cb
  | udp a seed => exact acts_acceptOrRoute c a seed
  | dial ctx now seed fd => exact acts_dialAsync c ctx now seed fd
  | resolved ctx endpoint now seed fd sent =>
    exact acts_onEndpointResolved c ctx endpoint now seed fd sent
  | holepunchResp ephemeral => exact Acts.single c (.holepunchResp ephemeral)
  | probe ephemeral ip port => exact Acts.single c (.probe ephemeral ip port)
  | tick input => exact acts_tickLoop c.sessions c
  | openSvc h service => exact acts_onSession fun _ => .single ⟨.openSvc service, rfl⟩
  | write h i data => exact acts_onSession fun _ => .single ⟨.write i data, rfl⟩
  | read h i cap => exact acts_onSession fun _ => .single ⟨.read i cap, rfl⟩
  | close h i => exact acts_onSession fun _ => .single ⟨.close i, rfl⟩
  | reset h i => exact acts_onSession fun _ => .single ⟨.reset i, rfl⟩
  | datagram h service data => exact acts_onSession fun _ => .refl
  | closeSession h cb => exact acts_onSession fun _ => .single ⟨.closeSession cb, rfl⟩
  | freeSession h => exact Acts.single c (.free h)

theorem onHolepunchResp_eq (c : Client) (ephemeral : Bytes) :
    ∃ pending, c.onHolepunchResp ephemeral = { c with holepunchPending := pending } := by
  unfold onHolepunchResp
  cases c.pendingFor ephemeral <;> exact ⟨_, rfl⟩

theorem onProbe_eq (c : Client) (ephemeral : Bytes) (ip : UInt32) (port : UInt16) :
    ∃ pending, (c.onProbe S ephemeral ip port).1 =
      (c.punched ephemeral).elim { c with holepunchPending := pending } fun ctx =>
        { c with holepunchPending := pending }.allocate (c.probed S ctx ip port) := by
  obtain ⟨pending, heq⟩ := c.onHolepunchResp_eq ephemeral
  refine ⟨pending, ?_⟩
  unfold onProbe
  rw [heq]
  cases c.punched ephemeral <;> rfl

/-- A session after an action stood there before, is a new one, or has had its event. -/
theorem heap_act (hs' : (c.act S a).heap h = some s') :
    c.heap h = some s' ∨ (∃ o, a = .create o ∧ h = c.fresh ∧ s' = o.session S c) ∨
      (∃ e s, a = .session h e ∧ c.heap h = some s ∧ s' = (s.apply S c.registry e).1) ∨
      ∃ ephemeral ip port ctx, a = .probe ephemeral ip port ∧ c.punched ephemeral = some ctx ∧
        h = c.fresh ∧ s' = c.probed S ctx ip port := by
  cases a with
  | idle | listen fd | lookup pubkey now | holepunchReq ctx rendezvousPubkey now sent => exact .inl hs'
  | create o =>
    change update c.heap c.fresh (some (o.session S c)) h = some s' at hs'
    rw [update_apply] at hs'
    split_ifs at hs' with hh
    · exact .inr (.inl ⟨o, rfl, hh, (some.inj hs').symm⟩)
    · exact .inl hs'
  | holepunchResp ephemeral =>
    obtain ⟨_, heq⟩ := c.onHolepunchResp_eq ephemeral
    rw [act, heq] at hs'
    exact .inl hs'
  | probe ephemeral ip port =>
    obtain ⟨_, heq⟩ := c.onProbe_eq (S := S) ephemeral ip port
    rw [act, heq] at hs'
    cases hpunched : c.punched ephemeral with
    | none =>
      rw [hpunched] at hs'
      exact .inl hs'
    | some ctx =>
      rw [hpunched] at hs'
      change update c.heap c.fresh (some (c.probed S ctx ip port)) h = some s' at hs'
      rw [update_apply] at hs'
      split_ifs at hs' with hh
      · exact .inr (.inr (.inr ⟨ephemeral, ip, port, ctx, rfl, hpunched, hh,
          (some.inj hs').symm⟩))
      · exact .inl hs'
  | session j e =>
    change (c.onSession j _).1.heap h = some s' at hs'
    rw [heap_onSession] at hs'
    split_ifs at hs' with hh
    · obtain ⟨s, hs, rfl⟩ := map_eq_some_iff.mp hs'
      exact .inr (.inr (.inl ⟨e, s, by rw [hh], hs, rfl⟩))
    · exact .inl hs'
  | free j =>
    change update c.heap j none h = some s' at hs'
    rw [update_apply] at hs'
    split_ifs at hs'
    exact .inl hs'

section
variable {I : Session → Prop} (horigin : ∀ c o, I (Origin.session S c o))
  (hprobed : ∀ c ctx ip port, I (Client.probed S c ctx ip port))
  (hevent : ∀ reg s e, I s → I (Session.apply S reg s e).1)

include horigin hprobed hevent

theorem sessions_act (hc : ∀ h s, c.heap h = some s → I s) :
    ∀ h s, (c.act S a).heap h = some s → I s := by
  intro h s hs
  rcases heap_act hs with hs | ⟨o, _, _, rfl⟩ | ⟨e, s₀, _, hs₀, rfl⟩ | ⟨_, ip, port, ctx, _, _, _, rfl⟩
  · exact hc h s hs
  · exact horigin c o
  · exact hevent _ s₀ e (hc h s₀ hs₀)
  · exact hprobed c ctx ip port

theorem sessions_acts {c' : Client} (hacts : Acts S c c') (hc : ∀ h s, c.heap h = some s → I s) :
    ∀ h s, c'.heap h = some s → I s := by
  obtain ⟨as, rfl⟩ := hacts
  induction as generalizing c with
  | nil => exact hc
  | cons a as ih => exact ih (sessions_act horigin hprobed hevent hc)

end

namespace Unpunched
variable (hc : c.Unpunched)
include hc

variable (ephemeral : Bytes)

theorem pendingFor_eq_none : c.pendingFor ephemeral = none := by
  unfold pendingFor
  rw [hc.holepunchPending]
  rfl

theorem punched_eq_none : c.punched ephemeral = none := by
  unfold punched
  rw [hc.pendingFor_eq_none]
  rfl

theorem onHolepunchResp_eq : c.onHolepunchResp ephemeral = c := by
  unfold onHolepunchResp
  rw [hc.pendingFor_eq_none]
  rfl

theorem onProbe_eq (ip : UInt32) (port : UInt16) :
    c.onProbe S ephemeral ip port = (c, []) := by
  unfold onProbe
  rw [hc.punched_eq_none, hc.onHolepunchResp_eq]

/-- No action stores an endpoint, so that no request for a hole punch is ever sent. -/
theorem act (a : Action) : (c.act S a).Unpunched := by
  cases a with
  | idle | listen fd | create o | free h => exact ⟨hc.endpointCache, hc.holepunchPending⟩
  | lookup pubkey now =>
    refine ⟨?_, hc.holepunchPending⟩
    change (endpointCacheLookup now pubkey c.endpointCache).2 = []
    rw [hc.endpointCache]
    rfl
  | holepunchReq ctx rendezvousPubkey now sent =>
    unfold Client.act sendHolepunchReqAsync holepunchSent
    rw [hc.endpointCache]
    exact ⟨rfl, hc.holepunchPending⟩
  | holepunchResp ephemeral =>
    rw [Client.act, hc.onHolepunchResp_eq]
    exact hc
  | probe ephemeral ip port =>
    rw [Client.act, hc.onProbe_eq]
    exact hc
  | session h e =>
    rw [Client.act]
    cases hs : c.heap h with
    | none =>
      rw [onSession_of_none hs]
      exact hc
    | some s =>
      rw [onSession_of_some hs]
      exact ⟨hc.endpointCache, hc.holepunchPending⟩

end Unpunched

theorem unpunched_of_run (run : Run (system S)) : ∀ k ≤ run.len, (run.state k).Unpunched :=
  run.invariant (fun _ hstart => hstart.2.2) fun k hk ih => run.steps k hk ▸ ih.act _

/-- In a run no session comes from a probe. -/
theorem heap_step (run : Run (system S)) {k : ℕ} (hk : k < run.len)
    (hs' : (run.state (k + 1)).heap h = some s') :
    (run.state k).heap h = some s' ∨
      (∃ o, run.event k = .create o ∧ h = (run.state k).fresh ∧ s' = o.session S (run.state k)) ∨
      ∃ e s, run.event k = .session h e ∧ (run.state k).heap h = some s ∧
        s' = (s.apply S (run.state k).registry e).1 := by
  rw [run.steps k hk] at hs'
  rcases heap_act hs' with hs | hnew | hevent | ⟨_, _, _, _, _, hpunched, _⟩
  · exact .inl hs
  · exact .inr (.inl hnew)
  · exact .inr (.inr hevent)
  · rw [(unpunched_of_run run k hk.le).punched_eq_none] at hpunched
    cases hpunched

end Client

variable {S : Suite Bytes}

theorem World.step_eq {w w' : World} {e : ClientEvent} (h : w.step S e = some w') :
    w' = ⟨(w.client.call S e.call).1, e.time⟩ ∧ w.clock ≤ e.time := by
  unfold World.step at h
  split_ifs at h with hle
  exact ⟨(some.inj h).symm, hle⟩

theorem World.sessions_of_run {I : Session → Prop} (horigin : ∀ c o, I (Origin.session S c o))
    (hprobed : ∀ c ctx ip port, I (Client.probed S c ctx ip port))
    (hevent : ∀ reg s e, I s → I (Session.apply S reg s e).1) (run : Run (World.system S)) :
    ∀ k ≤ run.len, ∀ h s, (run.state k).client.heap h = some s → I s := by
  refine run.invariant (I := fun w => ∀ h s, w.client.heap h = some s → I s)
    (fun w hw h s hs => ?_) fun k hk ih => ?_
  · rw [hw.1] at hs
    cases hs
  · rw [(World.step_eq (run.steps k hk)).1]
    exact Client.sessions_acts horigin hprobed hevent (Client.acts_call _ _) ih

end Norn
