import Norn.Lib.Run
import Norn.Dht.Mainline

/-!
# The announced peers

The bounded lists of peers that a node serves for an info-hash (`norn.c`).
-/

namespace Norn
open List Norn.Compact

/-- The packet announces the peer with a token that is valid at the time. -/
def Announces (s : MainlineState) (now : ℤ) (d : Datagram) (infoHash : Bytes) (p : ℕ × ℕ) : Prop :=
  p.1 = d.ip ∧ ∃ msg a ih tok, (Bencode.bencodeDecode d.data 0).1 = some msg ∧
    (msg.getText ['y']).map cString = some (text ['q']) ∧
    msg.getText ['q'] = some (text "announce_peer".toList) ∧ msg.getDict ['a'] = some a ∧
    a.getText "info_hash".toList = some ih ∧ ih.take 20 = infoHash ∧
    a.getText ['t', 'o', 'k', 'e', 'n'] = some tok ∧ s.serveTokenValid now d.ip tok = true

namespace MainlineState

inductive StoreStep (served : List ServedHash) (infoHash : Bytes) (p : ℕ × ℕ) :
    List ServedHash → Prop
  | same : StoreStep served infoHash p served
  | known {i : ℕ} {h h' : ServedHash} (get : served[i]? = some h) (hash : h.infoHash = infoHash)
      (hash' : h'.infoHash = infoHash) (peers : h'.peers = addPeer h.peers p) :
      StoreStep served infoHash p (served.set i h')
  | appended {h' : ServedHash} (new : ∀ h ∈ served, h.infoHash ≠ infoHash)
      (room : served.length < mainlineServeHashes) (hash' : h'.infoHash = infoHash)
      (peers : h'.peers = [p]) : StoreStep served infoHash p (served ++ [h'])
  | replaced {h h' : ServedHash} (new : ∀ h ∈ served, h.infoHash ≠ infoHash)
      (get : served[0]? = some h) (hash' : h'.infoHash = infoHash) (peers : h'.peers = [p]) :
      StoreStep served infoHash p (served.set 0 h')

theorem storeStep_serveStorePeer (served : List ServedHash) (infoHash : Bytes) (ip port : ℕ)
    (pubkey : Option Bytes) :
    StoreStep served infoHash (ip, port) (serveStorePeer served infoHash ip port pubkey) := by
  unfold serveStorePeer
  by_cases haddr : ip = 0 ∨ port = 0
  · rw [if_pos haddr]
    exact .same
  rw [if_neg haddr]
  dsimp only
  by_cases hknown : served.findIdx (fun h => h.infoHash = infoHash) < served.length
  · have hget := getElem?_eq_getElem hknown
    have hhash : served[served.findIdx fun h => h.infoHash = infoHash].infoHash = infoHash :=
      of_decide_eq_true (findIdx_getElem (w := hknown))
    rw [if_pos hknown]
    dsimp only
    rw [modify_eq_set hget]
    exact .known hget hhash hhash rfl
  have hnew : ∀ h ∈ served, h.infoHash ≠ infoHash := by
    intro h hh heq
    exact hknown (findIdx_lt_length_of_exists ⟨h, hh, decide_eq_true heq⟩)
  rw [if_neg hknown]
  by_cases hroom : served.length < mainlineServeHashes
  · rw [if_pos hroom]
    dsimp only
    rw [modify_eq_set getElem?_concat_length, set_append_right _ _ le_rfl,
      Nat.sub_self, set_cons_zero]
    exact .appended hnew hroom rfl rfl
  · have hpos : 0 < served.length := by
      unfold mainlineServeHashes at hroom
      omega
    rw [if_neg hroom]
    dsimp only
    rw [modify_eq_set (getElem?_set_self hpos), set_set]
    exact .replaced hnew (getElem?_eq_getElem hpos) rfl rfl

variable (s : MainlineState) (C : DhtCrypto) (now : ℤ) (msg : Bencode) (ip port : ℕ)

theorem served_answer (q : Bytes) (a : Bencode) : (s.answer C now q a ip port).2.served = s.served ∨
      q = text "announce_peer".toList ∧ ∃ ih tok p pk,
        a.getText "info_hash".toList = some ih ∧ a.getText ['t', 'o', 'k', 'e', 'n'] = some tok ∧
        s.serveTokenValid now ip tok = true ∧
        (s.answer C now q a ip port).2.served = serveStorePeer s.served (ih.take 20) ip p pk := by
  unfold answer
  split_ifs with _ _ _ hq
  · exact .inl rfl
  · exact .inl rfl
  · exact .inl rfl
  · unfold answerAnnouncePeer
    split
    · next ih tok hih htok =>
      dsimp only
      split_ifs with hvalid
      · exact .inr ⟨hq, ih, tok, _, _, hih, htok, hvalid.2, rfl⟩
      · exact .inr ⟨hq, ih, tok, _, _, hih, htok, hvalid.2, rfl⟩
      · exact .inl rfl
    · exact .inl rfl
  · unfold answerGet
    split
    · dsimp only
      split_ifs <;> exact .inl rfl
    · exact .inl rfl
  · unfold answerPut
    split
    · exact .inl rfl
    · split
      · split_ifs <;> exact .inl rfl
      · exact .inl rfl
  · exact .inl rfl

theorem served_processReply : (s.processReply now msg ip port).served = s.served := by
  have hstep : ReplyStep s now msg ip port (s.processReply now msg ip port) :=
    replyStep_of_processReply rfl
  generalize s.processReply now msg ip port = s' at hstep
  cases hstep with
  | ignored hno | bare t ht hwaiting => rfl
  | told t r observed nodes ht hwaiting hr hnodes =>
    obtain ⟨learnt, hlearn⟩ := (s.endTransaction t).learnSender_eq now msg ip port r
    rw [hlearn]
    rfl

theorem served_processQuery : (s.processQuery C now msg ip port).served = s.served ∨
      msg.getText ['q'] = some (text "announce_peer".toList) ∧ ∃ a ih tok p pk,
        msg.getDict ['a'] = some a ∧ a.getText "info_hash".toList = some ih ∧
        a.getText ['t', 'o', 'k', 'e', 'n'] = some tok ∧ s.serveTokenValid now ip tok = true ∧
        (s.processQuery C now msg ip port).served =
          serveStorePeer s.served (ih.take 20) ip p pk := by
  unfold processQuery
  by_cases hro : s.readOnly = true
  · rw [if_pos hro]
    exact .inl rfl
  rw [if_neg hro]
  cases msg.getText ['q'] with
  | none => exact .inl rfl
  | some q =>
    cases msg.getDict ['a'] with
    | none => exact .inl rfl
    | some a =>
      obtain ⟨nodes, hlearn⟩ := s.learnSender_eq now msg ip port a
      dsimp only
      rw [hlearn]
      cases msg.getText ['t'] with
      | none => exact .inl rfl
      | some t =>
        rcases served_answer { s with nodes := nodes } C now ip port q a with
          heq | ⟨hq, ih, tok, p, pk, hih, htok, hvalid, heq⟩
        · exact .inl heq
        · exact .inr ⟨congrArg some hq, a, ih, tok, p, pk, rfl, hih, htok, hvalid, heq⟩

theorem served_processPacket (d : Datagram) : (mainlineProcessPacket C now d s).served = s.served ∨
      ∃ infoHash p pk, Announces s now d infoHash (d.ip, p) ∧
        (mainlineProcessPacket C now d s).served = serveStorePeer s.served infoHash d.ip p pk := by
  unfold mainlineProcessPacket Announces
  cases (Bencode.bencodeDecode d.data 0).1 with
  | none => exact .inl rfl
  | some msg =>
    dsimp only
    cases hy : msg.getText ['y'] with
    | none => exact .inl rfl
    | some y =>
      dsimp only
      split_ifs with hr hq
      · exact .inl (s.served_processReply now msg d.ip d.port)
      · rcases s.served_processQuery C now msg d.ip d.port with
          heq | ⟨hann, a, ih, tok, p, pk, ha, hih, htok, hvalid, heq⟩
        · exact .inl heq
        · exact .inr ⟨ih.take 20, p, pk, ⟨rfl, msg, a, ih, tok, rfl, by rw [hy, ← hq]; rfl, hann,
            ha, hih, rfl, htok, hvalid⟩, heq⟩
      · exact .inl rfl

end MainlineState

/-- What storing a peer does to the list of one hash. -/
inductive PeersStep (peers : List (ℕ × ℕ)) : List (ℕ × ℕ) → Prop
  | same : PeersStep peers peers
  | added {p : ℕ × ℕ} (new : p ∉ peers) (room : peers.length < mainlineServePeers) :
      PeersStep peers (peers ++ [p])
  | shifted {p : ℕ × ℕ} (new : p ∉ peers) (full : peers.length = mainlineServePeers) :
      PeersStep peers (peers.tail ++ [p])

structure PeersBounded (peers : List (ℕ × ℕ)) : Prop where
  length_le : peers.length ≤ mainlineServePeers
  nodup : peers.Nodup

/-- The peers were stored one after another, each for a reason. -/
def Stamped (A : ℕ → ℕ × ℕ → Prop) (k : ℕ) (peers : List (ℕ × ℕ)) : Prop :=
  ∃ times : List ℕ, times.Pairwise (· < ·) ∧ (∀ t ∈ times, t < k) ∧ List.Forall₂ A times peers

section
variable {peers : List (ℕ × ℕ)} {p : ℕ × ℕ}

theorem PeersBounded.peersStep (h : PeersBounded peers) (p : ℕ × ℕ) :
    PeersStep peers (MainlineState.addPeer peers p) := by
  unfold MainlineState.addPeer
  split_ifs with hmem hroom
  · exact .same
  · exact .added hmem hroom
  · exact .shifted hmem (le_antisymm h.length_le (not_lt.mp hroom))

theorem PeersBounded.of_step (h : PeersBounded peers) {peers' : List (ℕ × ℕ)}
    (hstep : PeersStep peers peers') : PeersBounded peers' := by
  cases hstep with
  | same => exact h
  | added new room =>
    refine ⟨?_, ?_⟩
    · rw [length_append, length_singleton]
      exact room
    · rw [← concat_eq_append]
      exact h.nodup.concat new
  | shifted new full =>
    refine ⟨?_, ?_⟩
    · rw [length_append, length_tail, length_singleton, full]
      decide
    · rw [← concat_eq_append]
      exact h.nodup.tail.concat fun hmem => new (mem_of_mem_tail hmem)

namespace Stamped
variable {A : ℕ → ℕ × ℕ → Prop} {k : ℕ}

theorem later (h : Stamped A k peers) : Stamped A (k + 1) peers := by
  obtain ⟨times, hsorted, hbefore, hall⟩ := h
  exact ⟨times, hsorted, fun t ht => (hbefore t ht).trans (Nat.lt_succ_self k), hall⟩

theorem concat (h : Stamped A k peers) (hp : A k p) : Stamped A (k + 1) (peers ++ [p]) := by
  obtain ⟨times, hsorted, hbefore, hall⟩ := h
  refine ⟨times ++ [k], pairwise_append.mpr ⟨hsorted, pairwise_singleton _ _, ?_⟩, ?_,
    rel_append hall (.cons hp .nil)⟩
  · intro t ht t' ht'
    rw [mem_singleton.mp ht']
    exact hbefore t ht
  · intro t ht
    rcases mem_append.mp ht with ht | ht
    · exact (hbefore t ht).trans (Nat.lt_succ_self k)
    · rw [mem_singleton.mp ht]
      exact Nat.lt_succ_self k

theorem nil (A : ℕ → ℕ × ℕ → Prop) (k : ℕ) : Stamped A k [] :=
  ⟨[], List.Pairwise.nil, forall_mem_nil _, .nil⟩

theorem tail (h : Stamped A k peers) : Stamped A k peers.tail := by
  obtain ⟨times, hsorted, hbefore, hall⟩ := h
  cases hall with
  | nil => exact nil A k
  | cons hp hall =>
    exact ⟨_, (pairwise_cons.mp hsorted).2, fun t ht => hbefore t (mem_cons_of_mem _ ht),
      hall⟩

theorem addPeer (h : Stamped A k peers) (hp : A k p) :
    Stamped A (k + 1) (MainlineState.addPeer peers p) := by
  unfold MainlineState.addPeer
  split_ifs
  · exact h.later
  · exact h.concat hp
  · exact h.tail.concat hp

end Stamped
end

/-- The table is bounded, has every hash once, and every peer in it was stored for a reason. -/
structure ServedWell (A : ℕ → Bytes → ℕ × ℕ → Prop) (k : ℕ) (served : List ServedHash) : Prop where
  length_le : served.length ≤ mainlineServeHashes
  nodup : (served.map ServedHash.infoHash).Nodup
  bounded : ∀ h ∈ served, PeersBounded h.peers
  stamped : ∀ h ∈ served, Stamped (fun t p => A t h.infoHash p) k h.peers

namespace ServedWell
variable {A : ℕ → Bytes → ℕ × ℕ → Prop} {k : ℕ} {served served' : List ServedHash}
  {infoHash : Bytes} {p : ℕ × ℕ}

theorem nil (A : ℕ → Bytes → ℕ × ℕ → Prop) (k : ℕ) : ServedWell A k [] where
  length_le := Nat.zero_le _
  nodup := nodup_nil
  bounded := forall_mem_nil _
  stamped := forall_mem_nil _

section
variable (h : ServedWell A k served)
include h

theorem later : ServedWell A (k + 1) served :=
  ⟨h.length_le, h.nodup, h.bounded, fun x hx => (h.stamped x hx).later⟩

theorem set {i : ℕ} {x : ServedHash} (hnodup : ((served.set i x).map ServedHash.infoHash).Nodup)
    (hbounded : PeersBounded x.peers)
    (hstamped : Stamped (fun t p => A t x.infoHash p) (k + 1) x.peers) :
    ServedWell A (k + 1) (served.set i x) where
  length_le := length_set.trans_le h.length_le
  nodup := hnodup
  bounded y hy := by
    rcases mem_or_eq_of_mem_set hy with hy | rfl
    · exact h.bounded y hy
    · exact hbounded
  stamped y hy := by
    rcases mem_or_eq_of_mem_set hy with hy | rfl
    · exact (h.stamped y hy).later
    · exact hstamped

theorem storeStep (hstep : MainlineState.StoreStep served infoHash p served') (hp : A k infoHash p) :
    ServedWell A (k + 1) served' := by
  have hone : PeersBounded [p] := ⟨Nat.succ_le_succ (Nat.zero_le 15), nodup_singleton p⟩
  have hstamp : Stamped (fun t p => A t infoHash p) (k + 1) [p] := (Stamped.nil _ k).concat hp
  cases hstep with
  | same => exact h.later
  | @known i x x' get hash hash' peers =>
    have hx := mem_of_getElem? get
    have hbounded := h.bounded x hx
    have hstamped := h.stamped x hx
    rw [hash] at hstamped
    refine h.set ?_ ?_ ?_
    · rw [map_set_key get (hash'.trans hash.symm)]
      exact h.nodup
    · rw [peers]
      exact hbounded.of_step (hbounded.peersStep p)
    · rw [peers, hash']
      exact hstamped.addPeer hp
  | @appended x' new room hash' peers =>
    refine ⟨?_, nodup_map_concat h.nodup (by rw [hash']; exact new), ?_, ?_⟩
    · rw [length_append, length_singleton]
      exact room
    · intro y hy
      rcases mem_append.mp hy with hy | hy
      · exact h.bounded y hy
      · rw [mem_singleton.mp hy, peers]
        exact hone
    · intro y hy
      rcases mem_append.mp hy with hy | hy
      · exact (h.stamped y hy).later
      · rw [mem_singleton.mp hy, peers, hash']
        exact hstamp
  | @replaced x x' new get hash' peers =>
    obtain ⟨rest, hperm, hset⟩ := exists_perm_set get
    have hnodup := (hperm.map ServedHash.infoHash).nodup_iff.mp h.nodup
    rw [map_cons, nodup_cons] at hnodup
    refine h.set ?_ (by rw [peers]; exact hone) (by rw [peers, hash']; exact hstamp)
    rw [((hset x').map ServedHash.infoHash).nodup_iff, map_cons, nodup_cons]
    refine ⟨?_, hnodup.2⟩
    rw [hash', mem_map]
    rintro ⟨y, hy, heq⟩
    exact new y (hperm.mem_iff.mpr (mem_cons_of_mem x hy)) heq

theorem peersStep (hstep : MainlineState.StoreStep served infoHash p served') {x x' : ServedHash}
    (hx : x ∈ served) (hx' : x' ∈ served') (hhash : x'.infoHash = x.infoHash) :
    PeersStep x.peers x'.peers := by
  have hunique : ∀ y ∈ served, y.infoHash = x.infoHash → y = x := fun y hy heq =>
    inj_on_of_nodup_map h.nodup hy hx heq
  have hsame (hold : x' ∈ served) : PeersStep x.peers x'.peers := by
    rw [hunique x' hold hhash]
    exact .same
  cases hstep with
  | same => exact hsame hx'
  | @known i y y' get hash hash' peers =>
    rcases mem_or_eq_of_mem_set hx' with hx' | rfl
    · exact hsame hx'
    · rw [peers, hunique y (mem_of_getElem? get) (hash.trans (hash'.symm.trans hhash))]
      exact (h.bounded x hx).peersStep p
  | @appended y' new room hash' peers =>
    rcases mem_append.mp hx' with hx' | hx'
    · exact hsame hx'
    · rw [mem_singleton.mp hx', hash'] at hhash
      exact absurd hhash.symm (new x hx)
  | @replaced y y' new get hash' peers =>
    rcases mem_or_eq_of_mem_set hx' with hx' | rfl
    · exact hsame hx'
    · rw [hash'] at hhash
      exact absurd hhash.symm (new x hx)

end
end ServedWell

namespace Announced

def system (C : DhtCrypto) : System MainlineState (ℤ × Datagram) where
  init s := s.served = []
  next s e s' := s' = mainlineProcessPacket C e.1 e.2 s

variable {C : DhtCrypto}

def Reason (run : Run (system C)) (t : ℕ) (infoHash : Bytes) (p : ℕ × ℕ) : Prop :=
  Announces (run.state t) (run.event t).1 (run.event t).2 infoHash p

theorem storeStep_of_run (run : Run (system C)) {k : ℕ} (hk : k < run.len) :
    (run.state (k + 1)).served = (run.state k).served ∨ ∃ infoHash p, Reason run k infoHash p ∧
        MainlineState.StoreStep (run.state k).served infoHash p (run.state (k + 1)).served := by
  rw [run.steps k hk]
  rcases (run.state k).served_processPacket C (run.event k).1 (run.event k).2 with
    heq | ⟨infoHash, p, pk, hann, heq⟩
  · exact .inl heq
  · refine .inr ⟨infoHash, _, hann, ?_⟩
    rw [heq]
    exact MainlineState.storeStep_serveStorePeer _ _ _ _ _

theorem well_of_run (run : Run (system C)) :
    ∀ k ≤ run.len, ServedWell (Reason run) k (run.state k).served := by
  refine run.position_induction ?_ ?_
  · rw [show (run.state 0).served = [] from run.start]
    exact ServedWell.nil _ _
  · intro k hk h
    rcases storeStep_of_run run hk with heq | ⟨infoHash, p, hreason, hstep⟩
    · rw [heq]
      exact h.later
    · exact h.storeStep hstep hreason

end Announced

end Norn
