import Norn.Lib.Symbolic
import Norn.Session.Handshake

/-!
# Whom the handshake identifies

The network belongs to an attacker, who signs with keys of its own. The primitives are ideal.
-/

namespace Norn
open List
section
variable {α : Type}

def agreed (a : α) (peer client server : Term α) (half : Bool) : Term α :=
  match peer with
  | .publicKey b => .sharedKey half s(a, b) client server
  | _ => .loneKey half a client server

def idealSuite (α : Type) [DecidableEq α] : Suite (Term α) where
  zero := .zero
  kxKeypair
    | .atom a => (.publicKey a, .atom a)
    | t => (t, t)
  kxClient pub sec peer :=
    match sec with
    | .atom a => some (agreed a peer pub peer false, agreed a peer pub peer true)
    | _ => none
  kxServer pub sec peer :=
    match sec with
    | .atom a => some (agreed a peer peer pub true, agreed a peer peer pub false)
    | _ => none
  join := .pair
  sign sec m :=
    match sec with
    | .atom a => .signature a m
    | _ => .zero
  verify pk m sig :=
    match pk with
    | .verifyKey a => decide (sig = .signature a m)
    | _ => false
  secretbox := .box
  secretboxOpen key ct :=
    match ct with
    | .box k _ b => if k = key then some b else none
    | _ => none

theorem agreed_inj {a a' : α} {peer peer' c c' s s' : Term α} {half half' : Bool}
    (h : agreed a peer c s half = agreed a' peer' c' s' half') :
    half = half' ∧ c = c' ∧ s = s' := by
  unfold agreed at h
  split at h
  · split at h
    · obtain ⟨hhalf, _, hc, hs⟩ := Term.sharedKey.inj h
      exact ⟨hhalf, hc, hs⟩
    · cases h
  · split at h
    · cases h
    · obtain ⟨hhalf, _, hc, hs⟩ := Term.loneKey.inj h
      exact ⟨hhalf, hc, hs⟩

variable [DecidableEq α]

theorem verify_ideal {pk m sig : Term α} (h : (idealSuite α).verify pk m sig = true) :
    ∃ a, pk = .verifyKey a ∧ sig = .signature a m := by
  cases pk with
  | verifyKey a => exact ⟨a, rfl, of_decide_eq_true h⟩
  | _ => cases h

theorem secretboxOpen_ideal {key ct b : Term α}
    (h : (idealSuite α).secretboxOpen key ct = some b) : ∃ n, ct = .box key n b := by
  cases ct with
  | box k n b' =>
    change (if k = key then some b' else none) = some b at h
    split_ifs at h with hk
    cases h
    exact ⟨n, by rw [hk]⟩
  | _ => cases h

end

/-- The signing keys of honest endpoints, the secrets of the handshakes, and those of the attacker.
-/
inductive Atom
  | longTerm (n : ℕ)
  | ephemeral (i : ℕ)
  | nonce (i : ℕ)
  | own (n : ℕ)
  deriving DecidableEq

/-- The attacker draws its own secrets and sees the nonces. -/
def Atom.Public : Atom → Prop
  | .longTerm _ | .ephemeral _ => False
  | .nonce _ | .own _ => True

abbrev ideal : Suite (Term Atom) := idealSuite Atom

structure Party where
  self : ℕ
  initiator : Bool
  channel : Channel (Term Atom)
  /-- The key recorded for the peer. -/
  peer : Term Atom
  finished : Bool
  /-- The response that an initiator has accepted or a responder has sent. -/
  resp : Option (RespMsg (Term Atom))

structure Net where
  parties : List Party
  sent : List (Term Atom)

inductive NetEvent
  | initiate (self : ℕ)
  | respond (self : ℕ) (init : InitMsg (Term Atom))
  | confirm (i : ℕ) (resp : RespMsg (Term Atom))
  | finish (i : ℕ) (box : Term Atom)

instance : Inhabited NetEvent := ⟨.initiate 0⟩

def publicKeyOf (self : ℕ) : Term Atom := .verifyKey (.longTerm self)

def signerOf (self : ℕ) : Term Atom → Option (Term Atom) :=
  secretSigner ideal (.atom (.longTerm self))

namespace Net
variable (n : Net)

/-- The attacker can make the term. -/
def Knows (t : Term Atom) : Prop := Derives Atom.Public {t | t ∈ n.sent} t

/-- The attacker can make the message that arrives. -/
def Delivers : NetEvent → Prop
  | .initiate _ => True
  | .respond _ init => n.Knows init.pub ∧ n.Knows init.eph
  | .confirm _ resp => n.Knows resp.pub ∧ n.Knows resp.eph ∧ n.Knows resp.sig
  | .finish _ box => n.Knows box

def initiate (self : ℕ) : Net :=
  let out := channelHsBuildInit ideal (publicKeyOf self) (.atom (.ephemeral n.parties.length))
  ⟨n.parties ++ [⟨self, true, out.1, .zero, false, none⟩], n.sent ++ [out.2.pub, out.2.eph]⟩

def respond (self : ℕ) (init : InitMsg (Term Atom)) : Net :=
  match channelHsAcceptSigned ideal (publicKeyOf self) (signerOf self)
      (.atom (.ephemeral n.parties.length)) init with
  | (c, none) => ⟨n.parties ++ [⟨self, false, c, .zero, false, none⟩], n.sent⟩
  | (c, some resp) =>
    ⟨n.parties ++ [⟨self, false, c, init.pub, false, some resp⟩],
      n.sent ++ [resp.pub, resp.eph, resp.sig]⟩

def confirm (i : ℕ) (resp : RespMsg (Term Atom)) : Net :=
  match n.parties[i]? with
  | none => n
  | some p =>
    if p.initiator = false ∨ p.finished then n
    else match channelHsConfirmSigned ideal p.channel (signerOf p.self) (.atom (.nonce i)) resp with
      | (c, none) => { n with parties := n.parties.set i { p with channel := c } }
      | (c, some box) =>
        ⟨n.parties.set i
          { p with channel := c, peer := resp.pub, finished := true, resp := some resp },
          n.sent ++ [box]⟩

def finish (i : ℕ) (box : Term Atom) : Net :=
  match n.parties[i]? with
  | none => n
  | some p =>
    if p.initiator ∨ p.finished ∨ p.resp = none then n
    else if channelHsFinish ideal p.channel p.peer box then
      { n with parties := n.parties.set i { p with finished := true } }
    else n

def apply : NetEvent → Net
  | .initiate self => n.initiate self
  | .respond self init => n.respond self init
  | .confirm i resp => n.confirm i resp
  | .finish i box => n.finish i box

def system : System Net NetEvent where
  init n := n = ⟨[], []⟩
  next n e n' := n.Delivers e ∧ n' = n.apply e

structure PartyOk (n : Net) (i : ℕ) (p : Party) : Prop where
  ephPub : p.channel.ephPub = .publicKey (.ephemeral i)
  ephSec : p.channel.ephSec = .atom (.ephemeral i)
  initiator : p.initiator = true → p.finished = true → ∃ resp, p.resp = some resp ∧
    p.peer = resp.pub ∧ p.channel.peerEph = resp.eph ∧
    channelAuthVerify ideal resp.sig resp.pub p.channel.ephPub resp.eph = true ∧
    p.channel.Derived ideal ∧ p.channel.isInitiator = true
  responder : p.initiator = false → ∀ resp, p.resp = some resp →
    resp = ⟨publicKeyOf p.self, p.channel.ephPub,
      .signature (.longTerm p.self) (.pair p.channel.peerEph p.channel.ephPub)⟩ ∧
    p.channel.Derived ideal ∧ p.channel.isInitiator = false
  finished : p.initiator = false → p.finished = true → p.resp ≠ none ∧
    ∃ box, n.Knows box ∧ channelHsFinish ideal p.channel p.peer box = true

def boxes : Set (Term Atom) :=
  {b | ∃ i p, n.parties[i]? = some p ∧ p.initiator = true ∧ p.finished = true ∧
    b = .box p.channel.txKey (.atom (.nonce i))
      (.signature (.longTerm p.self) (.pair p.channel.ephPub p.channel.peerEph))}

/-- Parties are in order, and what was sent is safe. -/
structure Invariant (n : Net) : Prop where
  parties : ∀ i p, n.parties[i]? = some p → PartyOk n i p
  sent : ∀ t ∈ n.sent, Safe Atom.Public n.boxes t

variable {n n' : Net}

theorem Invariant.safe (h : n.Invariant) {t : Term Atom} (ht : n.Knows t) :
    Safe Atom.Public n.boxes t :=
  Derives.safe h.sent ht

variable {i j : ℕ} {p q : Party} {ps : List Party} {resp : RespMsg (Term Atom)}

theorem PartyOk.mono (h : PartyOk n i p) (hsub : ∀ t ∈ n.sent, t ∈ n'.sent) : PartyOk n' i p where
  ephPub := h.ephPub
  ephSec := h.ephSec
  initiator := h.initiator
  responder := h.responder
  finished hrole hfin := by
    obtain ⟨hresp, box, hbox, hfinish⟩ := h.finished hrole hfin
    exact ⟨hresp, box, hbox.mono fun t ht => hsub t ht, hfinish⟩

theorem Invariant.next (h : n.Invariant)
    (hkeep : ∀ (i : ℕ) p, n.parties[i]? = some p → p.finished = true → n'.parties[i]? = some p)
    (hsub : ∀ t ∈ n.sent, t ∈ n'.sent)
    (hparties : ∀ (i : ℕ) p, n'.parties[i]? = some p → n.parties[i]? = some p ∨ PartyOk n' i p)
    (hsent : n.boxes ⊆ n'.boxes → ∀ t ∈ n'.sent, t ∈ n.sent ∨ Safe Atom.Public n'.boxes t) :
    n'.Invariant := by
  have hboxes : n.boxes ⊆ n'.boxes := by
    rintro b ⟨i, p, hp, hrole, hfin, rfl⟩
    exact ⟨i, p, hkeep i p hp hfin, hrole, hfin, rfl⟩
  refine ⟨fun i p hp => ?_, fun t ht => ?_⟩
  · rcases hparties i p hp with hold | hnew
    · exact (h.parties i p hold).mono hsub
    · exact hnew
  · rcases hsent hboxes t ht with hold | hnew
    · exact (h.sent t hold).mono hboxes
    · exact hnew

theorem getElem?_concat (h : (ps ++ [q])[i]? = some p) : ps[i]? = some p ∨ i = ps.length ∧ p = q := by
  by_cases hi : i < ps.length
  · rw [getElem?_append_left hi] at h
    exact .inl h
  · have hlt := (List.getElem?_eq_some_iff.mp h).1
    rw [length_append, length_singleton] at hlt
    obtain rfl : i = ps.length := by omega
    rw [getElem?_concat_length] at h
    exact .inr ⟨rfl, (Option.some.inj h).symm⟩

theorem getElem?_append_of_some {qs : List Party} (h : ps[i]? = some p) :
    (ps ++ qs)[i]? = some p := by
  rw [getElem?_append_left (List.getElem?_eq_some_iff.mp h).1, h]

theorem Invariant.initiate (h : n.Invariant) (self : ℕ) : (n.initiate self).Invariant := by
  refine h.next (fun i p hp _ => getElem?_append_of_some hp)
    (fun t ht => mem_append_left _ ht) (fun i p hp => ?_) fun _ t ht => ?_
  · rcases getElem?_concat hp with hold | ⟨rfl, rfl⟩
    · exact .inl hold
    · exact .inr ⟨rfl, rfl, fun _ hfin => (nomatch hfin), fun hrole => (nomatch hrole),
        fun _ hfin => (nomatch hfin)⟩
  · rcases mem_append.mp ht with hold | hnew
    · exact .inl hold
    · refine .inr ?_
      rcases mem_cons.mp hnew with rfl | hnew
      · trivial
      · rw [mem_singleton.mp hnew]
        trivial

def respChannel (i : ℕ) (peerEph : Term Atom) : Channel (Term Atom) where
  ephPub := .publicKey (.ephemeral i)
  ephSec := .atom (.ephemeral i)
  peerEph := peerEph
  rxKey := agreed (.ephemeral i) peerEph peerEph (.publicKey (.ephemeral i)) true
  txKey := agreed (.ephemeral i) peerEph peerEph (.publicKey (.ephemeral i)) false
  isInitiator := false
  established := true

theorem acceptSigned_ideal (self i : ℕ) (init : InitMsg (Term Atom)) :
    channelHsAcceptSigned ideal (publicKeyOf self) (signerOf self) (.atom (.ephemeral i)) init =
      (respChannel i init.eph, some ⟨publicKeyOf self, .publicKey (.ephemeral i),
        .signature (.longTerm self) (.pair init.eph (.publicKey (.ephemeral i)))⟩) :=
  rfl

theorem Invariant.respond (h : n.Invariant) {self : ℕ} {init : InitMsg (Term Atom)}
    (heph : n.Knows init.eph) : (n.respond self init).Invariant := by
  unfold Net.respond
  rw [acceptSigned_ideal]
  refine h.next (fun i p hp _ => getElem?_append_of_some hp)
    (fun t ht => mem_append_left _ ht) (fun i p hp => ?_) fun hboxes t ht => ?_
  · rcases getElem?_concat hp with hold | ⟨rfl, rfl⟩
    · exact .inl hold
    · refine .inr ⟨rfl, rfl, fun hrole => (nomatch hrole), fun _ resp hresp => ?_,
        fun _ hfin => (nomatch hfin)⟩
      cases hresp
      exact ⟨rfl, rfl, rfl⟩
  · rcases mem_append.mp ht with hold | hnew
    · exact .inl hold
    · refine .inr ?_
      rcases mem_cons.mp hnew with rfl | hnew
      · trivial
      rcases mem_cons.mp hnew with rfl | hnew
      · trivial
      · rw [mem_singleton.mp hnew]
        exact ⟨(h.safe heph).mono hboxes, trivial⟩

theorem confirmSigned_eph {T : Type} (S : Suite T) (c : Channel T) (sign : T → Option T) (nonce : T)
    (resp : RespMsg T) : (channelHsConfirmSigned S c sign nonce resp).1.ephPub = c.ephPub ∧
      (channelHsConfirmSigned S c sign nonce resp).1.ephSec = c.ephSec := by
  unfold channelHsConfirmSigned
  split_ifs
  · cases hderive : channelDerive S c resp.eph true with
    | none => exact ⟨rfl, rfl⟩
    | some c' =>
      obtain ⟨_, hpub, hsec, _⟩ := channelDerive_spec hderive
      exact ⟨hpub, hsec⟩
  · exact ⟨rfl, rfl⟩

theorem getElem?_set_cases {p' : Party} (hp : ps[i]? = some p) (h : (ps.set i p')[j]? = some q) :
    ps[j]? = some q ∨ j = i ∧ q = p' := by
  by_cases hij : i = j
  · subst hij
    rw [getElem?_set_self (List.getElem?_eq_some_iff.mp hp).1] at h
    exact .inr ⟨rfl, (Option.some.inj h).symm⟩
  · rw [getElem?_set_ne hij] at h
    exact .inl h

theorem getElem?_set_of_finished {p' : Party} (hp : ps[i]? = some p)
    (hunfinished : p.finished = false) (hq : ps[j]? = some q) (hfin : q.finished = true) :
    (ps.set i p')[j]? = some q := by
  have hij : i ≠ j := by
    rintro rfl
    cases hp.symm.trans hq
    exact absurd hfin (by rw [hunfinished]; decide)
  rw [getElem?_set_ne hij, hq]

theorem Invariant.confirm (h : n.Invariant) (heph : n.Knows resp.eph) :
    (n.confirm i resp).Invariant := by
  unfold Net.confirm
  cases hp : n.parties[i]? with
  | none => exact h
  | some p =>
    by_cases hguard : p.initiator = false ∨ p.finished = true
    · simp only [if_pos hguard]
      exact h
    obtain ⟨hrole, hunfinished⟩ := not_or.mp hguard
    replace hrole := Bool.eq_true_of_not_eq_false hrole
    replace hunfinished := Bool.eq_false_of_not_eq_true hunfinished
    simp only [if_neg hguard]
    have hok := h.parties i p hp
    obtain ⟨hpub, hsec⟩ := confirmSigned_eph ideal p.channel (signerOf p.self) (.atom (.nonce i)) resp
    cases hout : channelHsConfirmSigned ideal p.channel (signerOf p.self) (.atom (.nonce i)) resp with
    | mk c box =>
      rw [hout] at hpub hsec
      cases box with
      | none =>
        refine h.next (fun j q hq hfin => getElem?_set_of_finished hp hunfinished hq hfin)
          (fun t ht => ht) (fun j q hq => ?_) fun _ t ht => .inl ht
        rcases getElem?_set_cases hp hq with hold | ⟨rfl, rfl⟩
        · exact .inl hold
        · exact .inr ⟨hpub.trans hok.ephPub, hsec.trans hok.ephSec,
            fun _ hfin => absurd hfin (by rw [hunfinished]; decide),
            fun hno => absurd hrole (by rw [hno]; decide),
            fun hno => absurd hrole (by rw [hno]; decide)⟩
      | some box =>
        obtain ⟨hverify, hderive, sig, hsig, rfl⟩ := channelHsConfirmSigned_some hout
        obtain ⟨hderived, _, _, hpeer, hinit, _⟩ := channelDerive_spec hderive
        cases hsig
        refine h.next (fun j q hq hfin => getElem?_set_of_finished hp hunfinished hq hfin)
          (fun t ht => mem_append_left _ ht) (fun j q hq => ?_) fun hboxes t ht => ?_
        · rcases getElem?_set_cases hp hq with hold | ⟨rfl, rfl⟩
          · exact .inl hold
          · refine .inr ⟨hpub.trans hok.ephPub, hsec.trans hok.ephSec, fun _ _ => ?_,
              fun hno => absurd hrole (by rw [hno]; decide),
              fun hno => absurd hrole (by rw [hno]; decide)⟩
            exact ⟨resp, rfl, rfl, hpeer, by rw [show c.ephPub = _ from hpub]; exact hverify, hderived,
              hinit⟩
        · rcases mem_append.mp ht with hold | hnew
          · exact .inl hold
          · rw [mem_singleton.mp hnew]
            have hself : (n.parties.set i { p with
                channel := c, peer := resp.pub, finished := true, resp := some resp })[i]? = some _ :=
              getElem?_set_self (List.getElem?_eq_some_iff.mp hp).1
            refine .inr ⟨trivial, ⟨?_, (h.safe heph).mono hboxes⟩, .inr ⟨i, _, hself, hrole, rfl, ?_⟩⟩
            · rw [hok.ephPub]
              trivial
            · change Term.box _ _ (.signature _ (.pair p.channel.ephPub resp.eph)) =
                .box _ _ (.signature _ (.pair c.ephPub c.peerEph))
              rw [show c.ephPub = _ from hpub, hpeer]

theorem Invariant.finish (h : n.Invariant) {box : Term Atom} (hbox : n.Knows box) :
    (n.finish i box).Invariant := by
  unfold Net.finish
  cases hp : n.parties[i]? with
  | none => exact h
  | some p =>
    by_cases hguard : p.initiator = true ∨ p.finished = true ∨ p.resp = none
    · simp only [if_pos hguard]
      exact h
    obtain ⟨hrole, hrest⟩ := not_or.mp hguard
    obtain ⟨hunfinished, hresp⟩ := not_or.mp hrest
    replace hunfinished := Bool.eq_false_of_not_eq_true hunfinished
    simp only [if_neg hguard]
    have hok := h.parties i p hp
    by_cases hfinish : channelHsFinish ideal p.channel p.peer box = true
    · rw [if_pos hfinish]
      refine h.next (fun j q hq hfin => getElem?_set_of_finished hp hunfinished hq hfin)
        (fun t ht => ht) (fun j q hq => ?_) fun _ t ht => .inl ht
      rcases getElem?_set_cases hp hq with hold | ⟨rfl, rfl⟩
      · exact .inl hold
      · exact .inr ⟨hok.ephPub, hok.ephSec, fun hyes => absurd hyes hrole, hok.responder,
          fun _ _ => ⟨hresp, box, hbox, hfinish⟩⟩
    · rw [if_neg hfinish]
      exact h

theorem Invariant.apply (h : n.Invariant) {e : NetEvent} (he : n.Delivers e) :
    (n.apply e).Invariant := by
  cases e with
  | initiate self => exact h.initiate self
  | respond self init => exact h.respond he.2
  | confirm i resp => exact h.confirm he.2.1
  | finish i box => exact h.finish he

theorem invariant_of_run (run : Run system) : ∀ k ≤ run.len, (run.state k).Invariant := by
  refine run.invariant (fun n hn => ?_) fun k hk ih => ?_
  · rw [show n = _ from hn]
    refine ⟨fun i p hp => ?_, fun t ht => nomatch ht⟩
    cases hp
  · obtain ⟨hdelivers, hnext⟩ := run.steps k hk
    rw [hnext]
    exact ih.apply hdelivers

/-- Both endpoints have the same two keys, in whatever direction they use them. -/
def SameKeys (p q : Party) : Prop :=
  p.channel.rxKey = q.channel.rxKey ∧ p.channel.txKey = q.channel.txKey ∨
    p.channel.rxKey = q.channel.txKey ∧ p.channel.txKey = q.channel.rxKey

theorem Invariant.keys (h : n.Invariant) (hp : n.parties[i]? = some p) (hfin : p.finished = true) :
    (p.initiator = true → ∀ half, (if half then p.channel.txKey else p.channel.rxKey) =
      agreed (.ephemeral i) p.channel.peerEph (.publicKey (.ephemeral i)) p.channel.peerEph half) ∧
    (p.initiator = false → ∀ half, (if half then p.channel.rxKey else p.channel.txKey) =
      agreed (.ephemeral i) p.channel.peerEph p.channel.peerEph (.publicKey (.ephemeral i)) half) := by
  have hok := h.parties i p hp
  constructor
  · intro hrole half
    obtain ⟨_, _, _, _, _, hderived, hinit⟩ := hok.initiator hrole hfin
    rw [Channel.Derived, if_pos hinit, hok.ephPub, hok.ephSec] at hderived
    obtain ⟨hrx, htx⟩ := Prod.mk.inj (Option.some.inj hderived)
    cases half with
    | true => exact htx.symm
    | false => exact hrx.symm
  · intro hrole half
    obtain ⟨resp, hresp⟩ := Option.ne_none_iff_exists'.mp (hok.finished hrole hfin).1
    obtain ⟨_, hderived, hinit⟩ := hok.responder hrole resp hresp
    rw [Channel.Derived, if_neg (by rw [hinit]; decide), hok.ephPub, hok.ephSec] at hderived
    obtain ⟨hrx, htx⟩ := Prod.mk.inj (Option.some.inj hderived)
    cases half with
    | true => exact hrx.symm
    | false => exact htx.symm

theorem Invariant.responder_knows (h : n.Invariant) (hp : n.parties[i]? = some p)
    (hq : n.parties[j]? = some q) (hprole : p.initiator = true) (hqrole : q.initiator = false)
    (hpfin : p.finished = true) (hqfin : q.finished = true)
    (htx : p.channel.txKey = q.channel.rxKey) : p.channel.peerEph = .publicKey (.ephemeral j) ∧
      q.channel.peerEph = .publicKey (.ephemeral i) ∧ q.peer = publicKeyOf p.self := by
  have hpkey := (h.keys hp hpfin).1 hprole true
  have hqkey := (h.keys hq hqfin).2 hqrole true
  rw [if_pos rfl] at hpkey hqkey
  obtain ⟨_, hclient, hserver⟩ := agreed_inj (hpkey.symm.trans (htx.trans hqkey))
  refine ⟨hserver, hclient.symm, ?_⟩
  obtain ⟨_, box, hbox, hfinish⟩ := (h.parties j q hq).finished hqrole hqfin
  obtain ⟨_, hopen⟩ := Bool.and_eq_true_iff.mp hfinish
  rw [Option.any_eq_true] at hopen
  obtain ⟨sig, hsig, hverify⟩ := hopen
  obtain ⟨nonce, rfl⟩ := secretboxOpen_ideal hsig
  -- the key is not the attacker's, so the box is a confirmation of an honest initiator
  obtain ⟨_, _, hkey | ⟨i', p', hp', hprole', hpfin', heq⟩⟩ := h.safe hbox
  · rw [hqkey, ← hclient] at hkey
    obtain ⟨a, ha, hpublic⟩ := hkey
    rcases Sym2.mem_iff.mp ha with rfl | rfl <;> exact hpublic.elim
  · obtain ⟨hkey, _, rfl⟩ := Term.box.inj heq
    have hpkey' := (h.keys hp' hpfin').1 hprole' true
    rw [if_pos rfl] at hpkey'
    obtain ⟨_, hclient', _⟩ := agreed_inj (hpkey.symm.trans (htx.trans (hkey.trans hpkey')))
    cases hclient'
    cases hp.symm.trans hp'
    obtain ⟨a, hpeer, hsigned⟩ := verify_ideal hverify
    cases (Term.signature.inj hsigned).1
    exact hpeer

theorem Invariant.identities (h : n.Invariant) (hp : n.parties[i]? = some p)
    (hq : n.parties[j]? = some q) (hprole : p.initiator = true) (hqrole : q.initiator = false)
    (hpfin : p.finished = true) (hqfin : q.finished = true)
    (htx : p.channel.txKey = q.channel.rxKey) :
    p.peer = publicKeyOf q.self ∧ q.peer = publicKeyOf p.self ↔ p.resp = q.resp := by
  obtain ⟨hpeph, hqeph, hpeer⟩ := h.responder_knows hp hq hprole hqrole hpfin hqfin htx
  obtain ⟨resp, hresp, hppeer, heph, hverify, _⟩ := (h.parties i p hp).initiator hprole hpfin
  have hqok := h.parties j q hq
  obtain ⟨resp', hresp'⟩ := Option.ne_none_iff_exists'.mp (hqok.finished hqrole hqfin).1
  have hsent := (hqok.responder hqrole resp' hresp').1
  rw [hqok.ephPub, hqeph] at hsent
  rw [hresp, hresp', hsent, hppeer]
  constructor
  · rintro ⟨hpub, _⟩
    rw [channelAuthVerify, hpub, (h.parties i p hp).ephPub, ← heph, hpeph] at hverify
    obtain ⟨a, hkey, hsig⟩ := verify_ideal hverify
    cases hkey
    obtain ⟨pub, eph, sig⟩ := resp
    change pub = _ at hpub
    change sig = _ at hsig
    rw [hpeph] at heph
    change _ = eph at heph
    rw [hpub, hsig, ← heph]
    rfl
  · intro heq
    cases heq
    exact ⟨rfl, hpeer⟩

/-- Two honest endpoints with the same session keys have recorded each other exactly if the response
accepted is the one that was sent. -/
theorem recorded_identities_iff (run : Run system) {k : ℕ} (hk : k ≤ run.len) {i j : ℕ}
    (hij : i ≠ j) {p q : Party} (hp : (run.state k).parties[i]? = some p)
    (hq : (run.state k).parties[j]? = some q) (hpfin : p.finished = true)
    (hqfin : q.finished = true) (hkeys : SameKeys p q) :
    p.peer = publicKeyOf q.self ∧ q.peer = publicKeyOf p.self ↔ p.resp = q.resp := by
  have h := invariant_of_run run k hk
  have hhalf : ∀ {a a' : Atom} {x x' c c' s s' : Term Atom} {R : Prop},
      agreed a x c s false = agreed a' x' c' s' true → R :=
    fun heq => absurd (agreed_inj heq).1 (by decide)
  have hsame : ∀ {R : Prop},
      Term.publicKey (Atom.ephemeral i) = .publicKey (Atom.ephemeral j) → R := by
    intro R heq
    cases heq
    exact absurd rfl hij
  cases hprole : p.initiator with
  | true =>
    have hprx := (h.keys hp hpfin).1 hprole false
    have hptx := (h.keys hp hpfin).1 hprole true
    cases hqrole : q.initiator with
    | true =>
      have hqrx := (h.keys hq hqfin).1 hqrole false
      have hqtx := (h.keys hq hqfin).1 hqrole true
      rcases hkeys with ⟨hrx, _⟩ | ⟨hrx, _⟩
      · exact hsame (agreed_inj (hprx.symm.trans (hrx.trans hqrx))).2.1
      · exact hhalf (hprx.symm.trans (hrx.trans hqtx))
    | false =>
      have hqrx := (h.keys hq hqfin).2 hqrole true
      rcases hkeys with ⟨hrx, _⟩ | ⟨_, htx⟩
      · exact hhalf (hprx.symm.trans (hrx.trans hqrx))
      · exact h.identities hp hq hprole hqrole hpfin hqfin htx
  | false =>
    have hprx := (h.keys hp hpfin).2 hprole true
    cases hqrole : q.initiator with
    | true =>
      have hqrx := (h.keys hq hqfin).1 hqrole false
      rcases hkeys with ⟨hrx, _⟩ | ⟨hrx, _⟩
      · exact hhalf (hqrx.symm.trans (hrx.symm.trans hprx))
      · rw [and_comm, eq_comm (a := p.resp)]
        exact h.identities hq hp hqrole hprole hqfin hpfin hrx.symm
    | false =>
      have hqrx := (h.keys hq hqfin).2 hqrole true
      have hqtx := (h.keys hq hqfin).2 hqrole false
      rcases hkeys with ⟨hrx, _⟩ | ⟨hrx, _⟩
      · exact hsame (agreed_inj (hprx.symm.trans (hrx.trans hqrx))).2.2
      · exact hhalf (hqtx.symm.trans (hrx.symm.trans hprx))

def greeted : Net :=
  ((⟨[], []⟩ : Net).initiate 0).respond 1 ⟨publicKeyOf 0, .publicKey (.ephemeral 0)⟩

def signedBy (a : Atom) : RespMsg (Term Atom) :=
  ⟨.verifyKey a, .publicKey (.ephemeral 1),
    .signature a (.pair (.publicKey (.ephemeral 0)) (.publicKey (.ephemeral 1)))⟩

def keyOf (half : Bool) (a b : Atom) : Term Atom :=
  .sharedKey half s(a, b) (.publicKey (.ephemeral 0)) (.publicKey (.ephemeral 1))

theorem keyOf_comm (half : Bool) (a b : Atom) : keyOf half a b = keyOf half b a := by
  unfold keyOf
  rw [Sym2.eq_swap]

def confirmation : Term Atom :=
  .box (keyOf true (.ephemeral 1) (.ephemeral 0)) (.atom (.nonce 0))
    (.signature (.longTerm 0) (.pair (.publicKey (.ephemeral 0)) (.publicKey (.ephemeral 1))))

def handshake (resp : RespMsg (Term Atom)) : List NetEvent :=
  [.initiate 0, .respond 1 ⟨publicKeyOf 0, .publicKey (.ephemeral 0)⟩, .confirm 0 resp,
    .finish 1 confirmation]

theorem handshake_delivers (hresp : greeted.Delivers (.confirm 0 resp))
    (hconfirm : (greeted.confirm 0 resp).Delivers (.finish 1 confirmation)) :
    ∀ k (hk : k < (handshake resp).length),
      (((handshake resp).take k).foldl apply ⟨[], []⟩).Delivers (handshake resp)[k] := by
  intro k hk
  change k < 4 at hk
  interval_cases k
  · trivial
  · have hseen : Term.publicKey (.ephemeral 0) ∈ ((⟨[], []⟩ : Net).initiate 0).sent := by decide
    exact ⟨.verifyKey _, .seen hseen⟩
  · exact hresp
  · exact hconfirm

theorem ephemeral_seen (i : ℕ) (hi : i < 2) : greeted.Knows (.publicKey (.ephemeral i)) := by
  interval_cases i
  · exact .seen (show _ ∈ greeted.sent by decide)
  · exact .seen (show _ ∈ greeted.sent by decide)

theorem confirmation_seen {a : Atom} (ha : greeted.confirm 0 (signedBy a) =
      ⟨(greeted.confirm 0 (signedBy a)).parties, greeted.sent ++ [.box
        (keyOf true (.ephemeral 0) (.ephemeral 1)) (.atom (.nonce 0)) (.signature (.longTerm 0)
          (.pair (.publicKey (.ephemeral 0)) (.publicKey (.ephemeral 1))))]⟩) :
    (greeted.confirm 0 (signedBy a)).Knows confirmation := by
  rw [ha]
  refine .seen (mem_append_right _ ?_)
  rw [keyOf_comm]
  exact mem_singleton_self _

def runOf (es : List NetEvent)
    (h : ∀ k (hk : k < es.length), ((es.take k).foldl apply ⟨[], []⟩).Delivers es[k]) :
    Run system where
  len := es.length
  state k := (es.take k).foldl apply ⟨[], []⟩
  event k := es.getD k default
  start := rfl
  steps k hk := by
    rw [getD_eq_getElem _ _ hk, ← take_append_getElem hk, foldl_append]
    exact ⟨h k hk, rfl⟩

def honestRun : Run system :=
  runOf (handshake (signedBy (.longTerm 1))) (handshake_delivers
    ⟨.verifyKey _, ephemeral_seen 1 (by decide), .seen (show _ ∈ greeted.sent by decide)⟩
    (confirmation_seen rfl))

/-- The attacker puts its own key and signature into the response. -/
def resignedRun : Run system :=
  runOf (handshake (signedBy (.own 0))) (handshake_delivers
    ⟨.verifyKey _, ephemeral_seen 1 (by decide), .sign (.atom trivial)
      (.pair (ephemeral_seen 0 (by decide)) (ephemeral_seen 1 (by decide)))⟩
    (confirmation_seen rfl))

def party (run : Run system) (i : ℕ) : Party :=
  ((run.state 4).parties[i]?).getD ⟨0, false, respChannel 0 .zero, .zero, false, none⟩

theorem sameKeys_of_halves (hrx : p.channel.rxKey = keyOf false (.ephemeral 0) (.ephemeral 1))
    (htx : p.channel.txKey = keyOf true (.ephemeral 0) (.ephemeral 1))
    (hrx' : q.channel.rxKey = keyOf true (.ephemeral 1) (.ephemeral 0))
    (htx' : q.channel.txKey = keyOf false (.ephemeral 1) (.ephemeral 0)) : SameKeys p q :=
  .inr ⟨by rw [hrx, htx', keyOf_comm], by rw [htx, hrx', keyOf_comm]⟩

theorem honestRun_identities :
    (party honestRun 0).peer = publicKeyOf (party honestRun 1).self ∧
      (party honestRun 1).peer = publicKeyOf (party honestRun 0).self := by
  have hkeys : SameKeys (party honestRun 0) (party honestRun 1) :=
    sameKeys_of_halves rfl rfl rfl rfl
  exact (recorded_identities_iff honestRun (show 4 ≤ 4 by decide) (show (0 : ℕ) ≠ 1 by decide)
    (p := party honestRun 0) (q := party honestRun 1) rfl rfl rfl rfl hkeys).mpr rfl

theorem resignedRun_misbound :
    (resignedRun.state 4).parties[0]? = some (party resignedRun 0) ∧
      (resignedRun.state 4).parties[1]? = some (party resignedRun 1) ∧
      (party resignedRun 0).finished = true ∧ (party resignedRun 1).finished = true ∧
      SameKeys (party resignedRun 0) (party resignedRun 1) ∧
      (party resignedRun 0).peer = .verifyKey (.own 0) ∧
      (party resignedRun 0).peer ≠ publicKeyOf (party resignedRun 1).self :=
  ⟨rfl, rfl, rfl, rfl, sameKeys_of_halves rfl rfl rfl rfl, rfl, by decide +kernel⟩

theorem not_safe_agreed {boxes : Set (Term Atom)} {peer c s : Term Atom}
    (hpeer : ∀ a : Atom, a.Public → peer ≠ .publicKey a) (half : Bool) :
    ¬ Safe Atom.Public boxes (agreed (.ephemeral i) peer c s half) := by
  unfold agreed
  split
  · rintro ⟨a, ha, hpublic⟩
    rcases Sym2.mem_iff.mp ha with rfl | rfl
    · exact hpublic
    · exact hpeer a hpublic rfl
  · exact id

/-- The attacker knows a key of a finished endpoint only if the ephemeral key it took for its peer's
is the attacker's. -/
theorem session_keys_secret (run : Run system) {k : ℕ} (hk : k ≤ run.len) {i : ℕ} {p : Party}
    (hp : (run.state k).parties[i]? = some p) (hfin : p.finished = true)
    (hpeer : ∀ a : Atom, a.Public → p.channel.peerEph ≠ .publicKey a) :
    ¬ (run.state k).Knows p.channel.txKey ∧ ¬ (run.state k).Knows p.channel.rxKey := by
  have h := invariant_of_run run k hk
  have hkey : ∀ {t : Term Atom} {c s : Term Atom} {half : Bool},
      t = agreed (.ephemeral i) p.channel.peerEph c s half → ¬ (run.state k).Knows t := by
    intro t c s half ht hknows
    exact not_safe_agreed hpeer half (ht ▸ h.safe hknows)
  cases hrole : p.initiator with
  | true => exact ⟨hkey ((h.keys hp hfin).1 hrole true), hkey ((h.keys hp hfin).1 hrole false)⟩
  | false => exact ⟨hkey ((h.keys hp hfin).2 hrole false), hkey ((h.keys hp hfin).2 hrole true)⟩

theorem honestRun_secret : ¬ (honestRun.state 4).Knows (party honestRun 0).channel.txKey ∧
    ¬ (honestRun.state 4).Knows (party honestRun 0).channel.rxKey := by
  have heph : (party honestRun 0).channel.peerEph = .publicKey (.ephemeral 1) := rfl
  refine session_keys_secret honestRun (show 4 ≤ 4 by decide) (i := 0) (p := party honestRun 0) rfl
    rfl ?_
  intro a ha heq
  rw [heph] at heq
  cases heq
  exact ha

end Net
end Norn
