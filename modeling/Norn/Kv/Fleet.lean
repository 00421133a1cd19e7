import Norn.Kv.Dispatch
import Norn.Lib.Run

/-!
# Daemons over one replicated log

Every daemon serves requests from a store that holds the commands of some prefix of one log.
-/

namespace Norn
open List Option

structure LogEntry where
  cmd : Bytes
  /-- The served request whose write this is. -/
  origin : Option ℕ
  deriving DecidableEq

structure Daemon where
  cluster : NornCluster
  /-- How many commands of the log it has applied. -/
  applied : ℕ

/-- A request with the state in which the daemon was when it served it. -/
structure Served where
  before : Daemon
  req : IpcReq

namespace Served

def out (sv : Served) : IpcResp × NornCluster := norndDispatch clusterBackend sv.before.cluster sv.req

/-- The command that the daemon handed on. -/
def cmd (sv : Served) : Option Bytes :=
  (sv.out.2.submitted.drop sv.before.cluster.submitted.length).head?

end Served

structure Fleet where
  daemons : ℕ → Daemon
  log : List LogEntry
  served : List Served

inductive FleetEvent
  | request (node : ℕ) (req : IpcReq)
  | lead (node : ℕ) (role : RaftRole) (room : Bool) (leaderPub : Option Bytes)
  | sequence (request : ℕ)
  | foreign (cmd : Bytes)
  | apply (node : ℕ)

instance : Inhabited FleetEvent := ⟨.apply 0⟩

def replay (kv : NornKv) (log : List LogEntry) : NornKv :=
  log.foldl (fun kv e => (nornKvApply kv e.cmd).2.1) kv

namespace Fleet
variable (s : Fleet)

def setDaemon (node : ℕ) (d : Daemon) : Fleet :=
  { s with daemons := Function.update s.daemons node d }

def serve (node : ℕ) (req : IpcReq) : Fleet :=
  let sv : Served := ⟨s.daemons node, req⟩
  { s.setDaemon node { s.daemons node with cluster := sv.out.2 } with served := s.served ++ [sv] }

def step : FleetEvent → Option Fleet
  | .request node req => some (s.serve node req)
  | .lead node role room leaderPub =>
    let d := s.daemons node
    some (s.setDaemon node
      { d with cluster := { d.cluster with role := role, room := room, leaderPub := leaderPub } })
  | .sequence i =>
    match (s.served[i]?).bind Served.cmd with
    | none => none
    | some cmd =>
      if s.log.any fun e => e.origin = some i then none
      else some { s with log := s.log ++ [⟨cmd, some i⟩] }
  | .foreign cmd => some { s with log := s.log ++ [⟨cmd, none⟩] }
  | .apply node =>
    let d := s.daemons node
    match s.log[d.applied]? with
    | none => none
    | some e => some (s.setDaemon node
        { d with
          cluster := { d.cluster with kv := (nornKvApply d.cluster.kv e.cmd).2.1 }
          applied := d.applied + 1 })

def system (kv₀ : NornKv) : System Fleet FleetEvent where
  init s := s.log = [] ∧ s.served = [] ∧
    ∀ n, (s.daemons n).cluster.kv = kv₀ ∧ (s.daemons n).applied = 0
  next s e s' := s.step e = some s'

def valueAt (kv₀ : NornKv) (s : Fleet) (p : ℕ) (key : Bytes) : Bytes :=
  (replay kv₀ (s.log.take p)).current key

/-- The request is a compare-and-set that was answered ok. -/
def CasOk (i : ℕ) (sv : Served) : Prop :=
  s.served[i]? = some sv ∧ sv.req.op = "cas" ∧ sv.out.1.ok = true

def WriteAt (i p : ℕ) : Prop := ∃ cmd, s.log[p]? = some ⟨cmd, some i⟩

/-- Two compare-and-sets of one key, from one value to other values, without further writes to it
from the state of the first daemon on. -/
structure Rivals (s : Fleet) (i j : ℕ) (sv sv' : Served) : Prop where
  lt : i < j
  first : s.served[i]? = some sv ∧ sv.req.op = "cas"
  second : s.served[j]? = some sv' ∧ sv'.req.op = "cas"
  key : sv.req.key = sv'.req.key
  expect : sv.req.expect = sv'.req.expect
  val : sv.req.val ≠ sv.req.expect
  val' : sv'.req.val ≠ sv'.req.expect
  only : ∀ p e, s.log[p]? = some e → min sv.before.applied sv'.before.applied ≤ p →
    commandKey e.cmd = some sv.req.key → e.origin = some i ∨ e.origin = some j

/-- An accepted compare-and-set finds the expected value where it is written, and of two rivals at
most one is accepted. -/
def CasAtomic (kv₀ : NornKv) (s : Fleet) : Prop :=
  (∀ i sv p, s.CasOk i sv → s.WriteAt i p → some (s.valueAt kv₀ p sv.req.key) = sv.req.expect) ∧
  ∀ i j sv sv', s.Rivals i j sv sv' → ¬ (s.CasOk i sv ∧ s.CasOk j sv')

/-- Behind what the daemon had applied, the log leaves the value of the key until the write. -/
def GapsQuiet (kv₀ : NornKv) (s : Fleet) : Prop :=
  ∀ i sv p, s.served[i]? = some sv → sv.req.op = "cas" → s.WriteAt i p →
    s.valueAt kv₀ p sv.req.key = s.valueAt kv₀ sv.before.applied sv.req.key

/-- Of two rivals that could both be accepted, the second is served where the write of the first has
been applied. -/
def RivalsApplied : Prop :=
  ∀ i j sv sv', s.Rivals i j sv sv' → sv.before.cluster.Matches sv.req →
    sv.before.cluster.Able sv.req → sv'.before.cluster.Able sv'.req →
      ∃ p < sv'.before.applied, s.WriteAt i p

theorem replay_append (kv : NornKv) (xs ys : List LogEntry) :
    replay kv (xs ++ ys) = replay (replay kv xs) ys := foldl_append

variable {e : LogEntry} {kv₀ : NornKv}

theorem replay_take_succ (kv : NornKv) {log : List LogEntry} {p : ℕ} (he : log[p]? = some e) :
    replay kv (log.take (p + 1)) = (nornKvApply (replay kv (log.take p)) e.cmd).2.1 := by
  rw [take_add_one, he, replay_append]
  rfl

/-- Every daemon has the state that its prefix of the log makes. -/
structure Ok (kv₀ : NornKv) (s : Fleet) : Prop where
  applied_le : ∀ n, (s.daemons n).applied ≤ s.log.length
  replica : ∀ n, (s.daemons n).cluster.kv = replay kv₀ (s.log.take (s.daemons n).applied)
  seen_le : ∀ {i : ℕ} {sv : Served}, s.served[i]? = some sv → sv.before.applied ≤ s.log.length
  seen : ∀ {i : ℕ} {sv : Served}, s.served[i]? = some sv →
    sv.before.cluster.kv = replay kv₀ (s.log.take sv.before.applied)
  placed : ∀ {p i : ℕ} {cmd : Bytes}, s.log[p]? = some ⟨cmd, some i⟩ →
    (∃ sv, s.served[i]? = some sv ∧ sv.cmd = some cmd) ∧
      ∀ j ≤ i, ∀ sv, s.served[j]? = some sv → sv.before.applied ≤ p

theorem Ok.init {s : Fleet} (h : (system kv₀).init s) : Ok kv₀ s := by
  obtain ⟨hlog, hserved, hd⟩ := h
  refine ⟨fun n => by simp [hd n], fun n => by rw [(hd n).1, (hd n).2]; rfl, ?_, ?_, ?_⟩
  · intro i sv h
    simp [hserved] at h
  · intro i sv h
    simp [hserved] at h
  · intro p i cmd h
    simp [hlog] at h

section
variable {kv₀ : NornKv} {s : Fleet} (h : Ok kv₀ s)
include h

theorem Ok.grow (he : ∀ i, e.origin = some i → ∃ sv, s.served[i]? = some sv ∧ sv.cmd = some e.cmd) :
    Ok kv₀ { s with log := s.log ++ [e] } where
  applied_le n := (h.applied_le n).trans (by simp)
  replica n := by
    rw [h.replica n, take_append_of_le_length (h.applied_le n)]
  seen_le hsv := (h.seen_le hsv).trans (by simp)
  seen hsv := by
    rw [h.seen hsv, take_append_of_le_length (h.seen_le hsv)]
  placed := by
    intro p i cmd hp
    rcases Nat.lt_or_ge p s.log.length with hlt | hge
    · simp only [getElem?_append_left hlt] at hp
      exact h.placed hp
    · obtain rfl : p = s.log.length := by
        have := (List.getElem?_eq_some_iff.mp hp).1
        simp only [length_append, length_singleton] at this
        omega
      simp only [getElem?_concat_length, Option.some.injEq] at hp
      obtain ⟨sv, hsv, hcmd⟩ := he i (by rw [hp])
      exact ⟨⟨sv, hsv, by rw [hcmd, hp]⟩, fun _ _ _ hsv => h.seen_le hsv⟩

theorem Ok.daemon {n : ℕ} {d : Daemon} (hle : d.applied ≤ s.log.length)
    (hkv : d.cluster.kv = replay kv₀ (s.log.take d.applied)) : Ok kv₀ (s.setDaemon n d) := by
  have hd : ∀ m, (s.setDaemon n d).daemons m = if m = n then d else s.daemons m :=
    fun m => Function.update_apply ..
  refine ⟨fun m => ?_, fun m => ?_, h.seen_le, h.seen, h.placed⟩
  · rw [hd m]
    by_cases hm : m = n
    · rwa [if_pos hm]
    · rw [if_neg hm]
      exact h.applied_le m
  · rw [hd m]
    by_cases hm : m = n
    · rwa [if_pos hm]
    · rw [if_neg hm]
      exact h.replica m

theorem Ok.serve (n : ℕ) (req : IpcReq) : Ok kv₀ (s.serve n req) := by
  have hd : Ok kv₀ (s.setDaemon n { s.daemons n with
      cluster := (norndDispatch clusterBackend (s.daemons n).cluster req).2 }) := by
    refine h.daemon (h.applied_le n) ?_
    rw [dispatch_kv]
    exact h.replica n
  have hsplit : ∀ {i : ℕ} {sv : Served}, (s.serve n req).served[i]? = some sv →
      s.served[i]? = some sv ∨ i = s.served.length ∧ sv = ⟨s.daemons n, req⟩ := by
    intro i sv hsv
    simp only [Fleet.serve] at hsv
    rcases Nat.lt_or_ge i s.served.length with hlt | hge
    · rw [getElem?_append_left hlt] at hsv
      exact .inl hsv
    · have hi := (List.getElem?_eq_some_iff.mp hsv).1
      rw [length_append, length_singleton] at hi
      rw [getElem?_append_right hge] at hsv
      exact .inr ⟨by omega, mem_singleton.mp (mem_of_getElem? hsv)⟩
  refine ⟨hd.applied_le, hd.replica, fun hsv => ?_, fun hsv => ?_, fun hp => ?_⟩
  · rcases hsplit hsv with hold | ⟨_, rfl⟩
    · exact h.seen_le hold
    · exact h.applied_le n
  · rcases hsplit hsv with hold | ⟨_, rfl⟩
    · exact h.seen hold
    · exact h.replica n
  · obtain ⟨⟨sv, hsv, hcmd⟩, hall⟩ := h.placed hp
    have hlt := (List.getElem?_eq_some_iff.mp hsv).1
    refine ⟨⟨sv, getElem?_append_left hlt ▸ hsv, hcmd⟩, fun j hj sv' hsv' => ?_⟩
    rcases hsplit hsv' with hold | ⟨rfl, _⟩
    · exact hall j hj sv' hold
    · omega

theorem Ok.step {e : FleetEvent} {s' : Fleet} (hs : s.step e = some s') : Ok kv₀ s' := by
  cases e with
  | request n req =>
    cases hs
    exact h.serve n req
  | lead n role room leaderPub =>
    cases hs
    exact h.daemon (h.applied_le n) (h.replica n)
  | sequence i =>
    simp only [Fleet.step] at hs
    split at hs
    · cases hs
    · rename_i cmd hcmd
      split_ifs at hs
      cases hs
      refine h.grow fun j hj => ?_
      cases hj
      simpa [Option.bind_eq_some_iff] using hcmd
  | foreign cmd =>
    cases hs
    exact h.grow fun i hi => by simp at hi
  | apply n =>
    simp only [Fleet.step] at hs
    split at hs
    · cases hs
    · rename_i entry hentry
      cases hs
      refine h.daemon (List.getElem?_eq_some_iff.mp hentry).1 ?_
      simp only [replay_take_succ kv₀ hentry, h.replica n]

end

theorem ok_of_run (run : Run (system kv₀)) : ∀ k ≤ run.len, Ok kv₀ (run.state k) :=
  run.invariant (fun _ hs => Ok.init hs) fun k hk hok => hok.step (run.steps k hk)

theorem Served.ok_iff {sv : Served} (hop : sv.req.op = "cas") :
    sv.out.1.ok = true ↔ sv.before.cluster.Matches sv.req ∧ sv.before.cluster.Able sv.req := by
  rcases @NornCluster.dispatch_cas sv.before.cluster sv.req hop with
    ⟨hm, ha, _, _, _, _, heq⟩ | ⟨hno, _, heq⟩
  · rw [Served.out, heq]
    exact ⟨fun _ => ⟨hm, ha⟩, fun _ => rfl⟩
  · rw [Served.out, heq]
    exact ⟨fun h => (nomatch h), fun h => absurd h hno⟩

/-- Only a request that is answered ok hands on a command, and that is the put of its value. -/
theorem Served.of_cmd {sv : Served} (hop : sv.req.op = "cas") {cmd : Bytes} (h : sv.cmd = some cmd) :
    sv.out.1.ok = true ∧ ∃ val, sv.req.val = some val ∧
      nornKvEncodePut cmdMax sv.req.key val = some cmd := by
  rcases @NornCluster.dispatch_cas sv.before.cluster sv.req hop with
    ⟨_, _, val, cmd', hval, hcmd, heq⟩ | ⟨_, _, heq⟩
  · rw [Served.cmd, Served.out, heq] at h
    obtain rfl : cmd' = cmd := by simpa [NornCluster.hand] using h
    rw [Served.out, heq]
    exact ⟨rfl, val, hval, hcmd⟩
  · rw [Served.cmd, Served.out, heq] at h
    simp at h

section
variable {s : Fleet} {key : Bytes} {a b : ℕ} (hab : a ≤ b) (hb : b ≤ s.log.length)
include hab hb

/-- Commands that do not write the key leave its value. -/
theorem lookup_eq_of_quiet (hquiet : ∀ q e, a ≤ q → q < b → s.log[q]? = some e →
      commandKey e.cmd ≠ some key) :
    (replay kv₀ (s.log.take b)).lookup key = (replay kv₀ (s.log.take a)).lookup key := by
  induction b, hab using Nat.le_induction with
  | base => rfl
  | succ b hab ih =>
    have he : s.log[b]? = some s.log[b] := getElem?_eq_getElem hb
    rw [replay_take_succ kv₀ he, lookup_apply_of_ne _ (hquiet b _ hab (Nat.lt_succ_self b) he)]
    exact ih (by omega) fun q e hq hqb => hquiet q e hq (by omega)

/-- If the commands that write the key all put one value, it has that value behind the first one. -/
theorem lookup_of_puts {val cmd : Bytes} (henc : nornKvEncodePut cmdMax key val = some cmd)
    (hputs : ∀ q e, a ≤ q → q < b → s.log[q]? = some e → commandKey e.cmd = some key → e.cmd = cmd)
    (ha : ((replay kv₀ (s.log.take a)).lookup key).isSome) :
    ((replay kv₀ (s.log.take b)).lookup key).isSome ∧ ∀ p e, a ≤ p → p < b → s.log[p]? = some e →
      e.cmd = cmd → (replay kv₀ (s.log.take b)).lookup key = some val := by
  induction b, hab using Nat.le_induction with
  | base => exact ⟨ha, fun p e hp hlt => absurd hlt (by omega)⟩
  | succ b hab ih =>
    have he : s.log[b]? = some s.log[b] := getElem?_eq_getElem hb
    obtain ⟨hsome, hval⟩ := ih (by omega) fun q e hq hqb => hputs q e hq (by omega)
    rw [replay_take_succ kv₀ he]
    by_cases hkey : commandKey s.log[b].cmd = some key
    · rw [hputs b _ hab (Nat.lt_succ_self b) he hkey, apply_encodePut henc,
        NornKv.lookup_storePut_self hsome val]
      exact ⟨rfl, fun _ _ _ _ _ _ => rfl⟩
    · rw [lookup_apply_of_ne _ hkey]
      refine ⟨hsome, fun p e hp hlt hpe hcmd => hval p e hp ?_ hpe hcmd⟩
      rcases Nat.lt_succ_iff_lt_or_eq.mp hlt with hlt | rfl
      · exact hlt
      · rw [he] at hpe
        cases hpe
        exact absurd (hcmd ▸ commandKey_encodePut henc) hkey

end

section
variable {kv₀ : NornKv} {s : Fleet} (h : Ok kv₀ s)
include h
variable {sv sv' : Served} {i j p : ℕ}

theorem Ok.lookup_of_matches {expect : Bytes} (hsv : s.served[i]? = some sv)
    (hexpect : sv.req.expect = some expect) (hm : sv.before.cluster.Matches sv.req) :
    (replay kv₀ (s.log.take sv.before.applied)).lookup sv.req.key = some expect := by
  obtain ⟨expect', heq, hget⟩ := hm
  obtain rfl := some.inj (hexpect.symm.trans heq)
  rw [← h.seen hsv]
  exact (NornKv.get_eq_some_iff.mp hget).2.1

theorem Ok.expected_at_write_iff :
    (∀ i sv p, s.CasOk i sv → s.WriteAt i p → some (s.valueAt kv₀ p sv.req.key) = sv.req.expect) ↔
      s.GapsQuiet kv₀ := by
  have hseen : ∀ i sv, s.CasOk i sv →
      some (s.valueAt kv₀ sv.before.applied sv.req.key) = sv.req.expect := by
    rintro i sv ⟨hsv, hop, hok⟩
    obtain ⟨⟨expect, hexpect, hget⟩, _⟩ := (Served.ok_iff hop).mp hok
    rw [valueAt, NornKv.current_eq, h.lookup_of_matches hsv hexpect ⟨expect, hexpect, hget⟩, hexpect]
    rfl
  constructor
  · intro hvalue i sv p hsv hop hwrite
    obtain ⟨cmd, hlog⟩ := hwrite
    obtain ⟨⟨sv₁, hsv₁, hcmd⟩, _⟩ := h.placed hlog
    obtain rfl := some.inj (hsv.symm.trans hsv₁)
    have hok : s.CasOk i sv := ⟨hsv, hop, (Served.of_cmd hop hcmd).1⟩
    exact some.inj ((hvalue i sv p hok ⟨cmd, hlog⟩).trans (hseen i sv hok).symm)
  · intro hquiet i sv p hok hwrite
    rw [hquiet i sv p hok.1 hok.2.1 hwrite]
    exact hseen i sv hok

/-- The only writes to the key between the states of the two daemons are those of the first rival. -/
theorem Ok.origin_of_rivals (hriv : s.Rivals i j sv sv') {e : LogEntry} (hp : s.log[p]? = some e)
    (hkey : commandKey e.cmd = some sv.req.key)
    (hle : min sv.before.applied sv'.before.applied ≤ p)
    (hlt : p < max sv.before.applied sv'.before.applied) :
    e.origin = some i ∧ sv.before.applied ≤ p := by
  obtain ⟨cmd, origin⟩ := e
  rcases hriv.only p _ hp hle hkey with heq | heq
  · obtain rfl : origin = some i := heq
    exact ⟨rfl, (h.placed hp).2 i le_rfl sv hriv.first.1⟩
  · obtain rfl : origin = some j := heq
    have hfirst := (h.placed hp).2 i hriv.lt.le sv hriv.first.1
    have hsecond := (h.placed hp).2 j le_rfl sv' hriv.second.1
    omega

theorem Ok.matches_of_rivals (hriv : s.Rivals i j sv sv') (hm : sv.before.cluster.Matches sv.req)
    (hnone : ∀ p < sv'.before.applied, ¬ s.WriteAt i p) : sv'.before.cluster.Matches sv'.req := by
  obtain ⟨expect, hexpect, hget⟩ := hm
  have hlookup := h.lookup_of_matches hriv.first.1 hexpect ⟨expect, hexpect, hget⟩
  have hquiet : ∀ q e, min sv.before.applied sv'.before.applied ≤ q →
      q < max sv.before.applied sv'.before.applied → s.log[q]? = some e →
      commandKey e.cmd ≠ some sv.req.key := by
    intro q e hle hlt he hkey
    obtain ⟨horigin, hq⟩ := h.origin_of_rivals hriv he hkey hle hlt
    refine hnone q (by omega) ⟨e.cmd, ?_⟩
    rw [he, ← horigin]
  have hsame : (replay kv₀ (s.log.take sv'.before.applied)).lookup sv.req.key =
      (replay kv₀ (s.log.take sv.before.applied)).lookup sv.req.key := by
    rcases le_total sv.before.applied sv'.before.applied with hle | hle
    · exact lookup_eq_of_quiet hle (h.seen_le hriv.second.1) fun q e hq hlt =>
        hquiet q e (by omega) (by omega)
    · exact (lookup_eq_of_quiet hle (h.seen_le hriv.first.1) fun q e hq hlt =>
        hquiet q e (by omega) (by omega)).symm
  obtain ⟨hlen, _, hcap⟩ := NornKv.get_eq_some_iff.mp hget
  refine ⟨expect, hriv.expect ▸ hexpect, NornKv.get_eq_some_iff.mpr ?_⟩
  rw [h.seen hriv.second.1, ← hriv.key, hsame]
  exact ⟨hlen, hlookup, hcap⟩

theorem Ok.not_matches_of_rivals (hriv : s.Rivals i j sv sv')
    (hm : sv.before.cluster.Matches sv.req) (hp : p < sv'.before.applied) (hwrite : s.WriteAt i p) :
    ¬ sv'.before.cluster.Matches sv'.req := by
  obtain ⟨expect, hexpect, hget⟩ := hm
  have hlookup := h.lookup_of_matches hriv.first.1 hexpect ⟨expect, hexpect, hget⟩
  have hcmd : ∀ (q : ℕ) (cmd : Bytes), s.log[q]? = some ⟨cmd, some i⟩ → sv.cmd = some cmd := by
    intro q cmd hq
    obtain ⟨⟨sv₁, hsv₁, hcmd⟩, _⟩ := h.placed hq
    rwa [some.inj (hriv.first.1.symm.trans hsv₁)]
  obtain ⟨cmd, hlog⟩ := hwrite
  have hseen := (h.placed hlog).2 i le_rfl sv hriv.first.1
  obtain ⟨_, val, hval, henc⟩ := Served.of_cmd hriv.first.2 (hcmd p cmd hlog)
  have hafter := (@lookup_of_puts kv₀ s sv.req.key _ _ (hseen.trans hp.le) (h.seen_le hriv.second.1) _ _ henc
    (fun q e hq hlt he hkey => by
      obtain ⟨horigin, _⟩ := h.origin_of_rivals hriv he hkey (by omega) (by omega)
      have he' : s.log[q]? = some ⟨e.cmd, some i⟩ := by rw [he, ← horigin]
      exact some.inj ((hcmd q _ he').symm.trans (hcmd p cmd hlog)))
    (by rw [hlookup]; rfl)).2 p _ hseen hp hlog rfl
  intro hm'
  have hlookup' := h.lookup_of_matches hriv.second.1 (hriv.expect ▸ hexpect) hm'
  rw [← hriv.key, hafter] at hlookup'
  exact hriv.val (by rw [hval, hexpect, hlookup'])

theorem Ok.one_rival_iff :
    (∀ i j sv sv', s.Rivals i j sv sv' → ¬ (s.CasOk i sv ∧ s.CasOk j sv')) ↔ s.RivalsApplied := by
  constructor
  · intro hone i j sv sv' hriv hm hable hable'
    by_contra hnone
    push Not at hnone
    have hm' := h.matches_of_rivals hriv hm hnone
    exact hone i j sv sv' hriv
      ⟨⟨hriv.first.1, hriv.first.2, (Served.ok_iff hriv.first.2).mpr ⟨hm, hable⟩⟩,
        hriv.second.1, hriv.second.2, (Served.ok_iff hriv.second.2).mpr ⟨hm', hable'⟩⟩
  · rintro happlied i j sv sv' hriv ⟨⟨_, hop, hok⟩, _, hop', hok'⟩
    obtain ⟨hm, hable⟩ := (Served.ok_iff hop).mp hok
    obtain ⟨hm', hable'⟩ := (Served.ok_iff hop').mp hok'
    obtain ⟨p, hp, hwrite⟩ := happlied i j sv sv' hriv hm hable hable'
    exact h.not_matches_of_rivals hriv hm hp hwrite hm'

end

/-- Compare-and-set is atomic exactly if the log does not change the key between check and write,
and a rival that could be accepted is served only where the write of the first has been applied. -/
theorem cas_atomic_iff (kv₀ : NornKv) (run : Run (system kv₀)) (k : ℕ) (hk : k ≤ run.len) :
    (run.state k).CasAtomic kv₀ ↔ (run.state k).GapsQuiet kv₀ ∧ (run.state k).RivalsApplied :=
  and_congr (ok_of_run run k hk).expected_at_write_iff (ok_of_run run k hk).one_rival_iff

def daemonKv : NornKv := (nornKvNew 256).get (by decide)

def boot (kv₀ : NornKv) : Fleet := ⟨fun _ => ⟨⟨kv₀, .follower, true, none, [], []⟩, 0⟩, [], []⟩

def put (val : UInt8) : IpcReq := ⟨"put", [107], some [val], none⟩

def cas (expect val : UInt8) : IpcReq := ⟨"cas", [107], some [val], some [expect]⟩

def runOf (es : List FleetEvent) (h : (execute step (boot daemonKv) es).isSome) :
    Run (system daemonKv) :=
  Run.ofEvents (fun _ _ _ h => h) (boot daemonKv) ⟨rfl, rfl, fun _ => ⟨rfl, rfl⟩⟩ es h

/-- The second compare-and-set is served after the write of the first has been applied. -/
def serialRun : Run (system daemonKv) :=
  runOf [.lead 0 .leader true none, .request 0 (put 97), .sequence 0, .apply 0,
    .request 0 (cas 97 98), .sequence 1, .apply 0, .request 0 (cas 97 99)] (by decide +kernel)

theorem serialRun_atomic :
    ((serialRun.state 8).served.map fun sv => sv.out.1.ok) = [true, true, false] ∧
      (serialRun.state 8).CasAtomic daemonKv := by
  have hserved : ∀ (i : ℕ) (sv : Served), (serialRun.state 8).served[i]? = some sv →
      [(put 97, 0), (cas 97 98, 1), (cas 97 99, 2)][i]? = some (sv.req, sv.before.applied) := by
    have hall : ((serialRun.state 8).served.map fun sv => (sv.req, sv.before.applied)) =
      [(put 97, 0), (cas 97 98, 1), (cas 97 99, 2)] := by decide +kernel
    intro i sv hsv
    rw [← hall, getElem?_map, hsv, Option.map_some]
  refine ⟨by decide +kernel, (cas_atomic_iff daemonKv serialRun 8 (by decide)).mpr ⟨?_, ?_⟩⟩
  · rintro i sv p hsv hop ⟨cmd, hp⟩
    have hlog : (serialRun.state 8).log.map LogEntry.origin = [some 0, some 1] := by decide +kernel
    have horigin : [some 0, some 1][p]? = some (some i) := by
      rw [← hlog, getElem?_map, hp, Option.map_some]
    have hreq := hserved i sv hsv
    rcases p with _ | _ | p
    · cases horigin
      rw [(Prod.mk.inj (Option.some.inj hreq)).1.symm] at hop
      exact absurd hop (by decide)
    · cases horigin
      rw [(Prod.mk.inj (Option.some.inj hreq)).2.symm]
    · cases horigin
  · intro i j sv sv' hriv _ _ _
    have hlt := hriv.lt
    have hreq := hserved i sv hriv.first.1
    have hreq' := hserved j sv' hriv.second.1
    have hj : j < 3 := (List.getElem?_eq_some_iff.mp hreq').1
    obtain rfl | ⟨rfl, rfl⟩ : i = 0 ∨ i = 1 ∧ j = 2 := by omega
    · have hop := hriv.first.2
      rw [(Prod.mk.inj (Option.some.inj hreq)).1.symm] at hop
      exact absurd hop (by decide)
    · rw [(Prod.mk.inj (Option.some.inj hreq')).2.symm]
      exact ⟨1, by decide, nornKvPut :: putU16 1 ++ [107] ++ putU16 1 ++ [98], by decide +kernel⟩

/-- Both are served before the write of the first has been applied. -/
def raceRun : Run (system daemonKv) :=
  runOf [.lead 0 .leader true none, .request 0 (put 97), .sequence 0, .apply 0,
    .request 0 (cas 97 98), .request 0 (cas 97 99), .sequence 1, .sequence 2] (by decide +kernel)

theorem raceRun_not_atomic : ¬ (raceRun.state raceRun.len).CasAtomic daemonKv := by
  rintro ⟨hvalue, _⟩
  obtain ⟨sv, hsv⟩ : ∃ sv, (raceRun.state raceRun.len).served[2]? = some sv :=
    isSome_iff_exists.mp (by decide +kernel)
  have hreq : ((raceRun.state raceRun.len).served[2]?).map (fun sv => (sv.req, sv.out.1.ok)) =
      some (cas 97 99, true) := by decide +kernel
  rw [hsv, map_some] at hreq
  obtain ⟨hreq, hok⟩ := Prod.mk.inj (some.inj hreq)
  have hwrite : (raceRun.state raceRun.len).WriteAt 2 2 := by
    refine ⟨nornKvPut :: putU16 1 ++ [107] ++ putU16 1 ++ [99], ?_⟩
    decide +kernel
  have hstale : (raceRun.state raceRun.len).valueAt daemonKv 2 [107] = [98] := by
    decide +kernel
  have hexpect := hvalue 2 sv 2 ⟨hsv, by rw [hreq]; rfl, hok⟩ hwrite
  rw [hreq] at hexpect
  change some ((raceRun.state raceRun.len).valueAt daemonKv 2 [107]) = some [97] at hexpect
  rw [hstale] at hexpect
  exact absurd hexpect (by decide)

end Fleet
end Norn
