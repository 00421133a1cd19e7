import Norn.Dht.Publish

/-!
# Looking up a peer

`mainline_lookup_ex` of `norn.c` takes every response that arrives at its socket.
-/

namespace Norn
open List Option

/-- What `mainline_lookup_ex` is called with. The key of a peer is wanted or not. -/
structure PeerLookupArgs where
  infoHash : Bytes
  doAnnounce : Bool
  announcePort : ℕ
  wantsPub : Bool
  timeoutMs : ℤ

inductive LookTrace
  | asked (query : Datagram)
  | heard (d : Datagram)
  deriving DecidableEq

structure PeerLookState where
  cand : List LookCand
  peer : Option (ℕ × ℕ)
  pub : Option Bytes
  trace : List LookTrace

def serveLookupLocal (s : MainlineState) (infoHash : Bytes) : Option (ℕ × ℕ) :=
  (s.served.find? fun h => h.infoHash = infoHash ∧ h.peers ≠ []).bind fun h => h.peers.head?

def listedPeers (r : Bencode) : List (ℕ × ℕ) :=
  match r.dictGet (text "values".toList) with
  | some (.list values) =>
    (values.filterMap fun v =>
      match v with
      | .str s =>
        if 6 ≤ s.length then some (fromBigEndian (s.take 4), fromBigEndian (slice s 4 2)) else none
      | _ => none).filter fun p => p.1 ≠ 0 ∧ p.2 ≠ 0
  | _ => []

def responseKey (r : Bencode) : Option Bytes :=
  (r.getText ['p', 'k']).filter fun k => k.length = 32

section
variable (s : MainlineState) (args : PeerLookupArgs)

def lookPeersHandle (d : Datagram) (t : PeerLookState) : PeerLookState :=
  let t := { t with trace := t.trace ++ [.heard d] }
  match lookResponse d.data with
  | none => t
  | some r =>
    let cand := noteToken r d.ip d.port t.cand
    let t := { t with peer := t.peer.or (listedPeers r).head? }
    let t := if args.wantsPub then { t with pub := (responseKey r).or t.pub } else t
    match r.getText ['n', 'o', 'd', 'e', 's'] with
    | some blob =>
      { t with cand := lookInsertCompact s.nodes args.infoHash blob.length blob cand }
    | none => { t with cand := cand }

def lookPeersReceive : List LookEvent → PeerLookState → PeerLookState
  | [], t => t
  | e :: events, t =>
    if args.timeoutMs - e.elapsed ≤ 0 then t
    else
      match e.arrived with
      | none => t
      | some d =>
        if d.data.length = 0 then t
        else
          let t := lookPeersHandle s args d t
          if t.peer.isSome ∧ !args.doAnnounce then t else lookPeersReceive events t

def lookPeersQuery : ℕ → List LookCand → List LookCand × List Datagram
  | 0, cand => (cand, [])
  | _ + 1, [] => ([], [])
  | budget + 1, c :: cand =>
    if c.queried then
      let out := lookPeersQuery (budget + 1) cand
      (c :: out.1, out.2)
    else
      let out := lookPeersQuery budget cand
      ({ c with queried := true } :: out.1,
        ⟨(lookBuildGetPeers s args.infoHash (text ['g', 'p'])).encode, c.ip, c.port⟩ :: out.2)

def lookPeersRounds : List LookRound → PeerLookState → PeerLookState
  | [], t => t
  | round :: rounds, t =>
    if args.timeoutMs ≤ round.elapsed then t
    else if t.peer.isSome ∧ !args.doAnnounce then t
    else
      let out := lookPeersQuery s args lookAlpha t.cand
      if out.2 = [] then t
      else
        lookPeersRounds rounds (lookPeersReceive s args round.events
          { t with cand := out.1, trace := t.trace ++ out.2.map .asked })

def lookAnnounces : ℕ → List LookCand → List Datagram
  | 0, _ => []
  | _ + 1, [] => []
  | budget + 1, c :: cand =>
    match c.token with
    | none => lookAnnounces (budget + 1) cand
    | some token =>
      ⟨(lookBuildAnnounce s args.infoHash args.announcePort token (text ['a', 'p'])).encode, c.ip,
        c.port⟩ :: lookAnnounces budget cand

def mainlineLookupEx (rounds : List LookRound) : ℕ × PeerLookState × List Datagram :=
  let stored := if args.doAnnounce then none else serveLookupLocal s args.infoHash
  match stored with
  | some peer =>
    (1, ⟨[], some peer, if args.wantsPub then s.servePubkey args.infoHash else none, []⟩, [])
  | none =>
    let start : PeerLookState := ⟨lookStart s.nodes args.infoHash, none, none, []⟩
    if start.cand = [] then (0, start, [])
    else
      let t := lookPeersRounds s args rounds start
      let announces := if args.doAnnounce then lookAnnounces s args lookK t.cand else []
      (if t.peer.isSome then 1 else if args.doAnnounce then announces.length else 0, t, announces)

end

namespace LookTrace

def peers (d : Datagram) : List (ℕ × ℕ) := (lookResponse d.data).elim [] listedPeers

def key (d : Datagram) : Option Bytes := (lookResponse d.data).bind responseKey

def tid (d : Datagram) : Option Bytes :=
  (Bencode.bencodeDecode (d.data.take lookBuf) 0).1.bind fun msg => msg.getText ['t']

def firstPeer : LookTrace → Option (ℕ × ℕ)
  | .asked _ => none
  | .heard d => (peers d).head?

def keyOf : LookTrace → Option Bytes
  | .asked _ => none
  | .heard d => key d

def asks (d : Datagram) : LookTrace → Bool
  | .asked q => q.ip = d.ip ∧ q.port = d.port
  | .heard _ => false

/-- The datagram comes from a node that was asked, with the tag of the query. -/
def Answers (before : List LookTrace) (d : Datagram) : Prop :=
  (∃ x ∈ before, asks d x = true) ∧ tid d = some (text ['g', 'p'])

def firstListed (trace : List LookTrace) : Option (ℕ × ℕ) := trace.findSome? firstPeer

def lastKey (trace : List LookTrace) : Option Bytes := trace.reverse.findSome? keyOf

end LookTrace

open LookTrace

/-- Peer and key are reported from one answer to a query. -/
def FromOneAnswer (t : PeerLookState) : Prop :=
  ∀ peer, t.peer = some peer → ∃ before d after, t.trace = before ++ .heard d :: after ∧
    Answers before d ∧ peer ∈ LookTrace.peers d ∧
    ∀ k, t.pub = some k → LookTrace.key d = some k

/-- The datagram that brings the peer answers a query, and has the key if one is heard. -/
def Reliable (args : PeerLookupArgs) (trace : List LookTrace) : Prop :=
  if args.doAnnounce then
    ∀ peer, firstListed trace = some peer → ∃ before d after, trace = before ++ .heard d :: after ∧
      Answers before d ∧ peer ∈ LookTrace.peers d ∧
      (args.wantsPub → ∀ k, lastKey trace = some k → LookTrace.key d = some k)
  else
    ∀ before d after, trace = before ++ .heard d :: after → firstListed before = none →
      LookTrace.peers d ≠ [] →
      Answers before d ∧ (args.wantsPub → lastKey before = none ∨ (LookTrace.key d).isSome)

theorem firstListed_append (xs ys : List LookTrace) :
    firstListed (xs ++ ys) = (firstListed xs).or (firstListed ys) :=
  findSome?_append

theorem lastKey_append (xs ys : List LookTrace) :
    lastKey (xs ++ ys) = (lastKey ys).or (lastKey xs) := by
  rw [lastKey, reverse_append]
  exact findSome?_append

theorem firstListed_asked (queries : List Datagram) : firstListed (queries.map .asked) = none := by
  rw [firstListed, findSome?_eq_none_iff]
  intro x hx
  obtain ⟨q, -, rfl⟩ := mem_map.mp hx
  rfl

theorem lastKey_asked (queries : List Datagram) : lastKey (queries.map .asked) = none := by
  rw [lastKey, findSome?_eq_none_iff]
  intro x hx
  obtain ⟨q, -, rfl⟩ := mem_map.mp (mem_reverse.mp hx)
  rfl

theorem firstListed_heard (d : Datagram) : firstListed [.heard d] = (LookTrace.peers d).head? := by
  rw [firstListed, findSome?_singleton]
  rfl

theorem lastKey_heard (d : Datagram) : lastKey [.heard d] = LookTrace.key d := by
  rw [lastKey, reverse_singleton, findSome?_singleton]
  rfl

section
variable {s : MainlineState} {args : PeerLookupArgs} {t : PeerLookState}

theorem lookPeersHandle_eq (s : MainlineState) (args : PeerLookupArgs) (d : Datagram)
    (t : PeerLookState) :
    (lookPeersHandle s args d t).peer = t.peer.or (LookTrace.peers d).head? ∧
      (lookPeersHandle s args d t).pub =
        (if args.wantsPub then (LookTrace.key d).or t.pub else t.pub) ∧
      (lookPeersHandle s args d t).trace = t.trace ++ [.heard d] := by
  unfold lookPeersHandle LookTrace.peers LookTrace.key
  dsimp only
  cases lookResponse d.data with
  | none => exact ⟨(or_none).symm, (ite_self _).symm, rfl⟩
  | some r =>
    dsimp only [Option.elim, bind_some]
    cases r.getText ['n', 'o', 'd', 'e', 's'] <;> split_ifs <;> exact ⟨rfl, rfl, rfl⟩

/-- The state is the first peer and the last key of the trace. -/
structure PeerShown (args : PeerLookupArgs) (t : PeerLookState) : Prop where
  peer : t.peer = firstListed t.trace
  pub : t.pub = if args.wantsPub then lastKey t.trace else none

/-- The lookup has ended with the datagram that had a peer. -/
def StopsAtPeer (t : PeerLookState) : Prop :=
  t.peer = none ∨ ∃ before d, t.trace = before ++ [.heard d] ∧ firstListed before = none

theorem PeerShown.handle (h : PeerShown args t) (d : Datagram) :
    PeerShown args (lookPeersHandle s args d t) := by
  obtain ⟨hpeer, hpub, htrace⟩ := lookPeersHandle_eq s args d t
  refine ⟨?_, ?_⟩
  · rw [hpeer, htrace, h.peer, firstListed_append, firstListed_heard]
  · rw [hpub, htrace, h.pub, lastKey_append, lastKey_heard]
    split_ifs <;> rfl

theorem PeerShown.ask (h : PeerShown args t) (cand : List LookCand) (queries : List Datagram) :
    PeerShown args { t with cand := cand, trace := t.trace ++ queries.map .asked } := by
  refine ⟨?_, ?_⟩
  · dsimp only
    rw [h.peer, firstListed_append, firstListed_asked, or_none]
  · dsimp only
    rw [h.pub, lastKey_append, lastKey_asked, none_or]

structure PeerTraced (args : PeerLookupArgs) (t : PeerLookState) : Prop where
  shown : PeerShown args t
  stops : args.doAnnounce = false → StopsAtPeer t

theorem lookPeersReceive_traced (events : List LookEvent) (h : PeerShown args t)
    (hgoes : args.doAnnounce = false → t.peer = none) :
    PeerTraced args (lookPeersReceive s args events t) := by
  induction events generalizing t with
  | nil => exact ⟨h, fun hstop => .inl (hgoes hstop)⟩
  | cons e events ih =>
    rw [lookPeersReceive]
    split_ifs with htime
    · exact ⟨h, fun hstop => .inl (hgoes hstop)⟩
    · cases e.arrived with
      | none => exact ⟨h, fun hstop => .inl (hgoes hstop)⟩
      | some d =>
        dsimp only
        by_cases hempty : d.data.length = 0
        · rw [if_pos hempty]
          exact ⟨h, fun hstop => .inl (hgoes hstop)⟩
        · rw [if_neg hempty]
          by_cases hfound : (lookPeersHandle s args d t).peer.isSome ∧ (!args.doAnnounce) = true
          · rw [if_pos hfound]
            refine ⟨h.handle d, fun hstop => .inr ⟨t.trace, d, ?_, ?_⟩⟩
            · exact (lookPeersHandle_eq s args d t).2.2
            · rw [← h.peer]
              exact hgoes hstop
          · rw [if_neg hfound]
            apply ih (h.handle d)
            intro hstop
            rw [hstop] at hfound
            exact not_isSome_iff_eq_none.mp fun hsome => hfound ⟨hsome, rfl⟩

theorem lookPeersRounds_traced (rounds : List LookRound) (h : PeerTraced args t) :
    PeerTraced args (lookPeersRounds s args rounds t) := by
  induction rounds generalizing t with
  | nil => exact h
  | cons round rounds ih =>
    rw [lookPeersRounds]
    by_cases htime : args.timeoutMs ≤ round.elapsed
    · rw [if_pos htime]
      exact h
    rw [if_neg htime]
    by_cases hfound : t.peer.isSome ∧ (!args.doAnnounce) = true
    · rw [if_pos hfound]
      exact h
    rw [if_neg hfound]
    by_cases hsent : (lookPeersQuery s args lookAlpha t.cand).2 = []
    · rw [if_pos hsent]
      exact h
    · rw [if_neg hsent]
      apply ih
      apply lookPeersReceive_traced _ (h.shown.ask _ _)
      intro hstop
      rw [hstop] at hfound
      exact not_isSome_iff_eq_none.mp fun hsome => hfound ⟨hsome, rfl⟩

theorem mainlineLookupEx_traced (rounds : List LookRound)
    (hlocal : args.doAnnounce = false → serveLookupLocal s args.infoHash = none) :
    PeerTraced args (mainlineLookupEx s args rounds).2.1 := by
  have hstored : (if args.doAnnounce then none else serveLookupLocal s args.infoHash) = none := by
    split_ifs with hannounce
    · rfl
    · exact hlocal (Bool.eq_false_iff.mpr hannounce)
  have hstart : ∀ cand, PeerTraced args ⟨cand, none, none, []⟩ := by
    intro cand
    refine ⟨⟨rfl, ?_⟩, fun _ => .inl rfl⟩
    split_ifs <;> rfl
  unfold mainlineLookupEx
  dsimp only
  rw [hstored]
  dsimp only
  split_ifs
  · exact hstart _
  all_goals exact lookPeersRounds_traced rounds (hstart _)

end

theorem eq_of_stops {xs before after : List LookTrace} {d e : Datagram}
    (htrace : xs ++ [.heard e] = before ++ .heard d :: after) (hxs : firstListed xs = none)
    (hpeers : LookTrace.peers d ≠ []) : before = xs ∧ d = e ∧ after = [] := by
  rcases eq_nil_or_concat after with rfl | ⟨init, last, rfl⟩
  · obtain ⟨rfl, hlast⟩ := append_inj' htrace rfl
    cases hlast
    exact ⟨rfl, rfl, rfl⟩
  · have hsplit : xs = before ++ .heard d :: init := by
      rw [concat_eq_append, ← cons_append, ← append_assoc] at htrace
      exact (append_inj' htrace rfl).1
    have hnone := findSome?_eq_none_iff.mp hxs (.heard d) (by
      rw [hsplit]
      exact mem_append_right _ mem_cons_self)
    exact absurd (head?_eq_none_iff.mp hnone) hpeers

section
variable {args : PeerLookupArgs} {t : PeerLookState}

theorem PeerShown.pub_eq_some_iff (h : PeerShown args t) (k : Bytes) :
    t.pub = some k ↔ args.wantsPub = true ∧ lastKey t.trace = some k := by
  rw [h.pub]
  split_ifs with hwants
  · exact (and_iff_right hwants).symm
  · exact iff_of_false not_false fun hk => hwants hk.1

theorem PeerShown.reliable_announcing (h : PeerShown args t) (hannounce : args.doAnnounce = true) :
    FromOneAnswer t ↔ Reliable args t.trace := by
  rw [FromOneAnswer, Reliable, if_pos hannounce, h.peer]
  refine forall_congr' fun peer => imp_congr_right fun _ => ?_
  refine exists_congr fun before => exists_congr fun d => exists_congr fun after => ?_
  refine and_congr_right fun _ => and_congr_right fun _ => and_congr_right fun _ => ?_
  constructor
  · intro hkey hwants k hk
    exact hkey k ((h.pub_eq_some_iff k).mpr ⟨hwants, hk⟩)
  · intro hkey k hk
    obtain ⟨hwants, hlast⟩ := (h.pub_eq_some_iff k).mp hk
    exact hkey hwants k hlast

theorem PeerShown.reliable_stopping (h : PeerShown args t) (hstops : StopsAtPeer t)
    (hannounce : args.doAnnounce = false) : FromOneAnswer t ↔ Reliable args t.trace := by
  rw [Reliable, if_neg (by rw [hannounce]; exact Bool.false_ne_true)]
  constructor
  · intro hfrom before d after htrace hbefore hpeers
    obtain ⟨peer, hpeer⟩ : ∃ peer, t.peer = some peer := by
      rw [h.peer, htrace, ← singleton_append, firstListed_append, firstListed_append, hbefore,
        firstListed_heard, none_or]
      obtain ⟨peer, rest, hlist⟩ := exists_cons_of_ne_nil hpeers
      exact ⟨peer, by rw [hlist]; rfl⟩
    obtain hnone | ⟨xs, e, hlast, hxs⟩ := hstops
    · rw [hnone] at hpeer
      cases hpeer
    obtain ⟨rfl, rfl, rfl⟩ := eq_of_stops (hlast.symm.trans htrace) hxs hpeers
    obtain ⟨before', d', after', htrace', hanswers, hmem, hkey⟩ := hfrom peer hpeer
    obtain ⟨rfl, rfl, rfl⟩ := eq_of_stops (hlast.symm.trans htrace') hxs (ne_nil_of_mem hmem)
    refine ⟨hanswers, ?_⟩
    intro hwants
    by_contra hneither
    obtain ⟨hearlier, hown⟩ := not_or.mp hneither
    obtain ⟨k, hk⟩ := ne_none_iff_exists'.mp hearlier
    have hkeyNone := not_isSome_iff_eq_none.mp hown
    have hlastKey : lastKey t.trace = some k := by
      rw [hlast, lastKey_append, lastKey_heard, hkeyNone, none_or, hk]
    have hreport := hkey k ((h.pub_eq_some_iff k).mpr ⟨hwants, hlastKey⟩)
    rw [hkeyNone] at hreport
    cases hreport
  · intro hreliable peer hpeer
    obtain hnone | ⟨before, d, hlast, hbefore⟩ := hstops
    · rw [hnone] at hpeer
      cases hpeer
    have hhead : (LookTrace.peers d).head? = some peer := by
      rw [← hpeer, h.peer, hlast, firstListed_append, hbefore, firstListed_heard, none_or]
    have hmem : peer ∈ LookTrace.peers d := mem_of_head? hhead
    obtain ⟨hanswers, hkeys⟩ := hreliable before d [] hlast hbefore (ne_nil_of_mem hmem)
    refine ⟨before, d, [], hlast, hanswers, hmem, ?_⟩
    intro k hk
    obtain ⟨hwants, hlastKey⟩ := (h.pub_eq_some_iff k).mp hk
    rw [hlast, lastKey_append, lastKey_heard] at hlastKey
    rcases hkeys hwants with hnone | hown
    · rw [hnone, or_none] at hlastKey
      exact hlastKey
    · rw [or_of_isSome hown] at hlastKey
      exact hlastKey

end

/-- A lookup reports from one answer exactly if it does not answer from its own lists and its trace
is reliable. -/
theorem fromOneAnswer_iff_reliable (s : MainlineState) (args : PeerLookupArgs)
    (rounds : List LookRound) :
    FromOneAnswer (mainlineLookupEx s args rounds).2.1 ↔
      (args.doAnnounce = false → serveLookupLocal s args.infoHash = none) ∧
        Reliable args (mainlineLookupEx s args rounds).2.1.trace := by
  by_cases hlocal : args.doAnnounce = false → serveLookupLocal s args.infoHash = none
  · have htraced := mainlineLookupEx_traced rounds hlocal
    rw [and_iff_right hlocal]
    cases hannounce : args.doAnnounce with
    | true => exact htraced.shown.reliable_announcing hannounce
    | false => exact htraced.shown.reliable_stopping (htraced.stops hannounce) hannounce
  · -- a peer that is stored here was not carried by any datagram
    refine iff_of_false ?_ fun h => hlocal h.1
    obtain ⟨hannounce, hsome⟩ := Classical.not_imp.mp hlocal
    obtain ⟨peer, hpeer⟩ := ne_none_iff_exists'.mp hsome
    intro hfrom
    unfold mainlineLookupEx at hfrom
    rw [hannounce, hpeer] at hfrom
    obtain ⟨before, d, after, htrace, -⟩ := hfrom peer rfl
    exact absurd htrace.symm (append_ne_nil_of_right_ne_nil _ (cons_ne_nil _ _))

def forgedPeers : Datagram :=
  ⟨(Bencode.dict [(text ['r'], .dict [(text "values".toList, .list [.str [9, 9, 9, 9, 0, 80]])]),
    (text ['t'], .str (text ['x', 'x'])), (text ['y'], .str (text ['r']))]).encode, 7, 7⟩

theorem forgedPeers_reported :
    let args : PeerLookupArgs := ⟨.replicate 20 9, false, 0, true, 1000⟩
    let out := mainlineLookupEx lonelyNode args [⟨0, [⟨0, some forgedPeers⟩]⟩]
    out.1 = 1 ∧ out.2.1.peer = some (151587081, 80) ∧ ¬ FromOneAnswer out.2.1 := by
  intro args out
  have hpeer : out.2.1.peer = some (151587081, 80) := by decide +kernel
  refine ⟨by decide +kernel, hpeer, ?_⟩
  intro hfrom
  obtain ⟨before, d, after, htrace, ⟨⟨x, hx, hasks⟩, -⟩, -⟩ := hfrom _ hpeer
  have hall : out.2.1.trace = [.asked ⟨(lookBuildGetPeers lonelyNode args.infoHash
      (text ['g', 'p'])).encode, 1, 1⟩, .heard forgedPeers] := by decide +kernel
  have hd : LookTrace.heard d ∈ out.2.1.trace := by
    rw [htrace]
    exact mem_append_right _ mem_cons_self
  have hx' : x ∈ out.2.1.trace := by
    rw [htrace]
    exact mem_append_left _ hx
  rw [hall] at hd hx'
  simp only [mem_cons, not_mem_nil, or_false, reduceCtorEq, false_or,
    LookTrace.heard.injEq] at hd hx'
  rw [hd] at hasks
  rcases hx' with rfl | rfl
  · exact absurd hasks (by decide)
  · exact absurd hasks (by decide)

end Norn
