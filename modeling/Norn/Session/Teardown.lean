import Norn.Session.Changes

/-!
# The end of sessions and of a client

Freeing a session closes its descriptor only if it is its own; closing a session does so in any case.
-/

namespace Norn
open List
namespace Client

def closedByFree (c : Client) (h : ℕ) : List ℕ :=
  (c.heap h).elim [] fun s => if s.sharedFd then [] else s.fd.toList

theorem length_freeSession {c : Client} {h : ℕ} (hh : h ∈ c.sessions) :
    (c.freeSession h).sessions.length = c.sessions.length - 1 := by
  change (swapRemove c.sessions h).length = _
  rw [(swapRemove_perm c.sessions h).length_eq, length_erase_of_mem hh]

structure Freed where
  client : Client
  freed : List ℕ
  closed : List ℕ

def freeLoop (c : Client) (i : ℕ) : Freed :=
  if hi : i < c.sessions.length then
    let h := c.sessions[i]
    let out := (c.freeSession h).freeLoop (i + 1)
    ⟨out.client, h :: out.freed, c.closedByFree h ++ out.closed⟩
  else ⟨c, [], []⟩
termination_by c.sessions.length - i
decreasing_by
  rw [length_freeSession (getElem_mem hi)]
  omega

/-- The socket of the client is closed in the end; it is the listening socket if there is one. -/
def nornFree (c : Client) (netFd : ℕ) : Freed :=
  let out := c.freeLoop 0
  { out with closed := c.listenFd.toList ++ out.closed ++ [netFd] }

theorem drop_swapRemove {l : List ℕ} (hl : l.Nodup) {i : ℕ} (hi : i < l.length) :
    (swapRemove l l[i]).drop (i + 1) = (l.drop (i + 1)).dropLast := by
  rw [swapRemove, if_pos (getElem_mem hi), hl.idxOf_getElem, dropLast_eq_take,
    drop_take, drop_set_of_lt (Nat.lt_succ_self i), length_set,
    dropLast_eq_take, length_drop, Nat.sub_right_comm]

theorem freed_freeLoop (c : Client) (i : ℕ) :
    (c.freeLoop i).freed = (c.sessions.drop i).take ((c.sessions.length - i + 1) / 2) := by
  induction c, i using freeLoop.induct with
  | case1 c i hi h ih =>
    have hrest : (c.freeSession h).sessions.drop (i + 1) = (c.sessions.drop (i + 1)).dropLast :=
      drop_swapRemove c.nodup hi
    rw [freeLoop, dif_pos hi]
    change h :: ((c.freeSession h).freeLoop (i + 1)).freed = _
    rw [ih, hrest, length_freeSession (getElem_mem hi), dropLast_eq_take, take_take,
      length_drop, drop_eq_getElem_cons hi]
    have hrounds : (c.sessions.length - i + 1) / 2 =
        min ((c.sessions.length - 1 - (i + 1) + 1) / 2) (c.sessions.length - (i + 1) - 1) + 1 := by
      omega
    rw [hrounds, take_succ_cons]
  | case2 c i hi =>
    rw [freeLoop, dif_neg hi, drop_of_length_le (not_lt.mp hi), take_nil]

theorem freed_nornFree (c : Client) (netFd : ℕ) :
    (c.nornFree netFd).freed = c.sessions.take ((c.sessions.length + 1) / 2) :=
  c.freed_freeLoop 0

/-- Every session is freed once exactly if there is at most one. -/
theorem freed_once_iff_length_le (c : Client) (netFd : ℕ) :
    (∀ h ∈ c.sessions, (c.nornFree netFd).freed.count h = 1) ↔ c.sessions.length ≤ 1 := by
  rw [freed_nornFree]
  constructor
  · intro h
    have hsubset : c.sessions ⊆ c.sessions.take ((c.sessions.length + 1) / 2) :=
      fun x hx => count_pos_iff.mp (by rw [h x hx]; exact one_pos)
    have hle := (c.nodup.subperm hsubset).length_le
    rw [length_take] at hle
    omega
  · intro h x hx
    have hall : c.sessions.length ≤ (c.sessions.length + 1) / 2 := by omega
    rw [take_of_length_le hall]
    exact count_eq_one_of_mem c.nodup hx

def twoSessions : Client :=
  ((World.boot [] []).client.create plainSuite (.accept ⟨[], 1, 1, [], true⟩ [])).create plainSuite
    (.accept ⟨[], 2, 2, [], true⟩ [])

theorem twoSessions_second_not_freed :
    twoSessions.sessions = [0, 1] ∧ (twoSessions.nornFree 3).freed.count 1 = 0 := by
  refine ⟨rfl, ?_⟩
  rw [freed_nornFree]
  decide

end Client

inductive ProcessEvent
  | act (a : Action)
  | dialFailed (fd : ℕ)
  | nornFree

structure Process where
  client : Client
  netFd : ℕ
  opened : Finset ℕ
  alive : Bool

namespace Process
variable (p : Process)

def closes : ProcessEvent → List ℕ
  | .act (.session h (.closeSession _)) => ((p.client.heap h).bind Session.fd).toList
  | .act (.free h) => p.client.closedByFree h
  | .act _ => []
  | .dialFailed fd => [fd]
  | .nornFree => (p.client.nornFree p.netFd).closed

def opens : ProcessEvent → List ℕ
  | .act (.create (.dial _ _ _ _ fd _)) => [fd]
  | .dialFailed fd => [fd]
  | _ => []

def Allowed (e : ProcessEvent) : Prop :=
  (∀ fd ∈ opens e, fd ∉ p.opened) ∧
    match e with
    | .act (.listen fd) => fd = p.netFd
    | _ => True

def step (S : Suite Bytes) (p : Process) (e : ProcessEvent) : Process where
  client :=
    match e with
    | .act a => p.client.act S a
    | .dialFailed _ => p.client
    | .nornFree => (p.client.nornFree p.netFd).client
  netFd := p.netFd
  opened := (p.opened ∪ (opens e).toFinset) \ (p.closes e).toFinset
  alive :=
    match e with
    | .nornFree => false
    | _ => p.alive

def system (S : Suite Bytes) : System Process ProcessEvent where
  init p := p.client.heap = (fun _ => none) ∧ p.client.listenFd = none ∧ p.netFd ∈ p.opened
  next p e p' := p.alive = true ∧ p.Allowed e ∧ p' = p.step S e

/-- The event does not close the listening descriptor. -/
def KeepsListener (e : ProcessEvent) : Prop :=
  e ≠ .nornFree → ∀ fd, p.client.listenFd = some fd → fd ∉ p.closes e

/-- A session that came in on the listening socket is not closed, unless it was closed before. -/
def SparesInbound (e : ProcessEvent) : Prop :=
  ∀ h callback s, e = .act (.session h (.closeSession callback)) → p.client.heap h = some s →
    s.sharedFd = true → s.fd = none

/-- Which descriptors the sessions share. -/
structure Owned (p : Process) : Prop where
  opened : p.netFd ∈ p.opened
  listen : ∀ fd, p.client.listenFd = some fd → fd = p.netFd
  shared : ∀ h s fd, p.client.heap h = some s → s.sharedFd = true → s.fd = some fd →
    p.client.listenFd = some fd
  own : ∀ h s, p.client.heap h = some s → s.sharedFd = false → s.fd ≠ some p.netFd

variable {S : Suite Bytes} {p : Process} {e : ProcessEvent}

theorem Owned.netFd_notMem_closes (h : p.Owned) (hallowed : p.Allowed e) (hend : e ≠ .nornFree)
    (hspares : p.SparesInbound e) : p.netFd ∉ p.closes e := by
  cases e with
  | nornFree => exact absurd rfl hend
  | dialFailed fd =>
    intro hmem
    rw [closes, mem_singleton] at hmem
    exact hallowed.1 fd (mem_singleton_self fd) (hmem ▸ h.opened)
  | act a =>
    cases a with
    | free j =>
      rw [closes, Client.closedByFree]
      cases hs : p.client.heap j with
      | none => exact not_mem_nil
      | some s =>
        rw [Option.elim_some]
        split_ifs with hshared
        · exact not_mem_nil
        · rw [Option.mem_toList]
          exact h.own j s hs (Bool.eq_false_of_not_eq_true hshared)
    | session j ev =>
      cases ev with
      | closeSession callback =>
        rw [closes, Option.mem_toList]
        intro hfd
        obtain ⟨s, hs, hfd⟩ := Option.bind_eq_some_iff.mp hfd
        cases hshared : s.sharedFd with
        | false => exact h.own j s hs hshared hfd
        | true =>
          rw [hspares j callback s rfl hs hshared] at hfd
          cases hfd
      | _ => exact not_mem_nil
    | _ => exact not_mem_nil

theorem Owned.keepsListener_iff (h : p.Owned) (hallowed : p.Allowed e) :
    p.KeepsListener e ↔ p.SparesInbound e := by
  constructor
  · rintro hkeeps j callback s rfl hs hshared
    by_contra hfd
    obtain ⟨fd, hfd⟩ := Option.ne_none_iff_exists'.mp hfd
    refine hkeeps (by rintro ⟨⟩) fd (h.shared j s fd hs hshared hfd) ?_
    rw [closes, Option.mem_toList]
    exact Option.bind_eq_some_iff.mpr ⟨s, hs, hfd⟩
  · intro hspares hend fd hfd
    rw [h.listen fd hfd]
    exact h.netFd_notMem_closes hallowed hend hspares

end Process

theorem Session.fd_apply (S : Suite Bytes) (reg : Registry) (s : Session) (e : SessionEvent) :
    (s.apply S reg e).1.sharedFd = s.sharedFd ∧
      ((s.apply S reg e).1.fd = s.fd ∨ (s.apply S reg e).1.fd = none) := by
  have hchange := change_apply S reg s e
  generalize (s.apply S reg e).1 = s' at hchange ⊢
  cases hchange with
  | streams only =>
    obtain ⟨svc, streams, rfl⟩ := only
    exact ⟨rfl, .inl rfl⟩
  | pending seed sendOk hs state role => exact ⟨rfl, .inl rfl⟩
  | handshake a state source step => cases step <;> exact ⟨rfl, .inl rfl⟩
  | closed callback => exact ⟨rfl, .inr rfl⟩

theorem Client.fd_act {S : Suite Bytes} {c : Client} {a : Action} {h : ℕ} {s' : Session}
    (hs' : (c.act S a).heap h = some s') :
    (∃ s, c.heap h = some s ∧ s'.sharedFd = s.sharedFd ∧ (s'.fd = s.fd ∨ s'.fd = none)) ∨
      (∃ o, a = .create o ∧ s' = o.session S c) ∨ s'.fd = none := by
  rcases heap_act hs' with hs | ⟨o, ha, _, hs⟩ | ⟨e, s, _, hs, rfl⟩ | ⟨_, _, _, _, _, _, _, rfl⟩
  · exact .inl ⟨s', hs, rfl, .inl rfl⟩
  · exact .inr (.inl ⟨o, ha, hs⟩)
  · exact .inl ⟨s, hs, s.fd_apply S c.registry e⟩
  · exact .inr (.inr rfl)

theorem Client.listenFd_act (S : Suite Bytes) (c : Client) (a : Action) :
    (c.act S a).listenFd = match a with
      | .listen fd => some fd
      | _ => c.listenFd := by
  cases a with
  | session h e =>
    change (c.onSession h _).1.listenFd = _
    unfold onSession
    cases c.heap h <;> rfl
  | holepunchResp ephemeral =>
    obtain ⟨_, heq⟩ := c.onHolepunchResp_eq ephemeral
    rw [act, heq]
  | probe ephemeral ip port =>
    obtain ⟨_, heq⟩ := c.onProbe_eq (S := S) ephemeral ip port
    rw [act, heq]
    cases c.punched ephemeral <;> rfl
  | _ => rfl

namespace Process
variable {S : Suite Bytes} {p : Process} {e : ProcessEvent}

theorem Owned.step (h : p.Owned) (hallowed : p.Allowed e) (hend : e ≠ .nornFree)
    (hspares : p.SparesInbound e) : (p.step S e).Owned := by
  have hopened : (p.step S e).netFd ∈ (p.step S e).opened :=
    Finset.mem_sdiff.mpr ⟨Finset.mem_union_left _ h.opened, by
      rw [mem_toFinset]
      exact h.netFd_notMem_closes hallowed hend hspares⟩
  cases e with
  | nornFree => exact absurd rfl hend
  | dialFailed fd => exact ⟨hopened, h.listen, h.shared, h.own⟩
  | act a =>
    have hlisten : ∀ fd, (p.client.act S a).listenFd = some fd → fd = p.netFd := by
      intro fd hfd
      rw [Client.listenFd_act] at hfd
      cases a with
      | listen fd' =>
        cases hfd
        exact hallowed.2
      | _ => exact h.listen fd hfd
    have hkept : ∀ fd, p.client.listenFd = some fd → (p.client.act S a).listenFd = some fd := by
      intro fd hfd
      rw [Client.listenFd_act]
      cases a with
      | listen fd' => rw [h.listen fd hfd, hallowed.2]
      | _ => exact hfd
    refine ⟨hopened, hlisten, ?_, ?_⟩
    · intro j s fd hs hshared hfd
      rcases Client.fd_act hs with ⟨s₀, hs₀, hsame, hor⟩ | ⟨o, rfl, rfl⟩ | hnone
      · rw [hsame] at hshared
        rcases hor with heq | heq
        · exact hkept fd (h.shared j s₀ fd hs₀ hshared (heq ▸ hfd))
        · rw [heq] at hfd
          cases hfd
      · cases o with
        | accept a seed => exact hkept fd hfd
        | _ => cases hshared
      · rw [hnone] at hfd
        cases hfd
    · intro j s hs hown hfd
      rcases Client.fd_act hs with ⟨s₀, hs₀, hsame, hor⟩ | ⟨o, rfl, rfl⟩ | hnone
      · rw [hsame] at hown
        rcases hor with heq | heq
        · exact h.own j s₀ hs₀ hown (heq ▸ hfd)
        · rw [heq] at hfd
          cases hfd
      · cases o with
        | dial ip port pubkey seed fd callback =>
          have heq : fd = p.netFd := Option.some.inj hfd
          exact hallowed.1 fd (mem_singleton_self fd) (heq ▸ h.opened)
        | accept a seed => cases hown
      · rw [hnone] at hfd
        cases hfd

theorem owned_of_run (run : Run (system S))
    (h : ∀ k < run.len, (run.state k).Owned → (run.state k).SparesInbound (run.event k)) :
    ∀ k ≤ run.len, (run.state k).alive = true → (run.state k).Owned := by
  refine run.position_induction ?_ ?_
  · intro _
    obtain ⟨hheap, hlisten, hopened⟩ := run.start
    refine ⟨hopened, fun fd hfd => ?_, fun j s fd hs => ?_, fun j s hs => ?_⟩
    · rw [hlisten] at hfd
      cases hfd
    · rw [hheap] at hs
      cases hs
    · rw [hheap] at hs
      cases hs
  · intro k hk ih halive
    obtain ⟨hbefore, hallowed, hnext⟩ := run.steps k hk
    rw [hnext] at halive ⊢
    have hend : run.event k ≠ .nornFree := by
      intro heq
      rw [heq] at halive
      cases halive
    exact (ih hbefore).step hallowed hend (h k hk (ih hbefore))

/-- The listening descriptor outlives the sessions exactly if no session that came in on it is
closed. -/
theorem listener_kept_iff_sparesInbound (S : Suite Bytes) (run : Run (system S)) :
    ((∀ k < run.len, (run.state k).KeepsListener (run.event k)) ∧
      ∀ k ≤ run.len, (run.state k).alive = true → ∀ fd,
        (run.state k).client.listenFd = some fd → fd ∈ (run.state k).opened) ↔
    ∀ k < run.len, (run.state k).SparesInbound (run.event k) := by
  constructor
  · rintro ⟨hkeeps, -⟩ k hk
    have howned := owned_of_run run fun j hj hj' =>
      (hj'.keepsListener_iff (run.steps j hj).2.1).mp (hkeeps j hj)
    have hstep := run.steps k hk
    exact ((howned k hk.le hstep.1).keepsListener_iff hstep.2.1).mp (hkeeps k hk)
  · intro hspares
    have howned := owned_of_run run fun j hj _ => hspares j hj
    refine ⟨fun k hk => ?_, fun k hk halive fd hfd => ?_⟩
    · have hstep := run.steps k hk
      exact ((howned k hk.le hstep.1).keepsListener_iff hstep.2.1).mpr (hspares k hk)
    · rw [(howned k hk halive).listen fd hfd]
      exact (howned k hk halive).opened

def twoInbound : ℕ → ProcessEvent
  | 0 => .act (.listen 3)
  | 1 => .act (.create (.accept ⟨[], 1, 1, [], true⟩ []))
  | 2 => .act (.create (.accept ⟨[], 2, 2, [], true⟩ []))
  | _ => .act (.session 0 (.closeSession false))

theorem allowed_twoInbound (k : ℕ) {p : Process} (hp : p.netFd = 3) : p.Allowed (twoInbound k) :=
  match k with
  | 0 => ⟨forall_mem_nil _, hp.symm⟩
  | 1 | 2 | _ + 3 => ⟨forall_mem_nil _, trivial⟩

def twoInboundState : ℕ → Process
  | 0 => ⟨(World.boot [] []).client, 3, {0, 1, 2, 3}, true⟩
  | k + 1 => (twoInboundState k).step plainSuite (twoInbound k)

theorem netFd_twoInboundState (k : ℕ) : (twoInboundState k).netFd = 3 := by
  induction k with
  | zero => rfl
  | succ k ih => exact ih

theorem alive_twoInboundState (k : ℕ) : (twoInboundState k).alive = true := by
  induction k with
  | zero => rfl
  | succ k ih =>
    match k with
    | 0 | 1 | 2 | _ + 3 => exact ih

def twoInboundRun : Run (system plainSuite) where
  len := 4
  state := twoInboundState
  event := twoInbound
  start := ⟨rfl, rfl, by decide⟩
  steps k _ :=
    ⟨alive_twoInboundState k, allowed_twoInbound k (netFd_twoInboundState k), rfl⟩

theorem twoInboundRun_closes_listener :
    twoInboundRun.event 3 = .act (.session 0 (.closeSession false)) ∧
      (twoInboundRun.state 3).client.listenFd = some 3 ∧
      3 ∈ (twoInboundRun.state 3).closes (twoInboundRun.event 3) ∧
      ((twoInboundRun.state 4).client.heap 1).bind Session.fd = some 3 ∧
      3 ∉ (twoInboundRun.state 4).opened := by
  refine ⟨rfl, rfl, ?_, rfl, ?_⟩
  · decide
  · decide

end Process
end Norn
