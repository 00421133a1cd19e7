import Norn.Lib.Nearest
import Norn.Dht.Publish

/-!
# The closest nodes

The distance of two ids is their exclusive or, read as a number (`norn.c`).
-/

namespace Norn
open List

theorem fromBigEndian_cons_lt_iff {x y : UInt8} {us vs : Bytes} (h : us.length = vs.length) :
    fromBigEndian (x :: us) < fromBigEndian (y :: vs) ↔
      x.toNat < y.toNat ∨ x = y ∧ fromBigEndian us < fromBigEndian vs := by
  have hu := fromBigEndian_lt us
  have hv := fromBigEndian_lt vs
  rw [h] at hu
  rw [fromBigEndian, fromBigEndian, h, ← UInt8.toNat_inj]
  rcases lt_trichotomy x.toNat y.toNat with hlt | heq | hgt
  · have hmul := Nat.mul_le_mul_right (256 ^ vs.length) (Nat.succ_le_of_lt hlt)
    rw [Nat.succ_mul] at hmul
    omega
  · rw [heq]
    omega
  · have hmul := Nat.mul_le_mul_right (256 ^ vs.length) (Nat.succ_le_of_lt hgt)
    rw [Nat.succ_mul] at hmul
    omega

theorem fromBigEndian_inj {us vs : Bytes} (h : us.length = vs.length) :
    fromBigEndian us = fromBigEndian vs ↔ us = vs := by
  refine ⟨fun heq => ?_, congrArg fromBigEndian⟩
  rw [← bigEndian_fromBigEndian us, ← bigEndian_fromBigEndian vs, h, heq]

def xorDistance (target id : Bytes) : ℕ := fromBigEndian (zipWith (· ^^^ ·) id target)

variable {target : Bytes} {n : MainlineNode} {l : List MainlineNode}

theorem length_zipWith_xor {a b : Bytes} (h : a.length = b.length) :
    (zipWith (· ^^^ ·) a target).length = (zipWith (· ^^^ ·) b target).length := by
  rw [length_zipWith, length_zipWith, h]

theorem lookCloser_neg_iff {a b : Bytes} (h : a.length = b.length) :
    lookCloser target a b < 0 ↔ xorDistance target a < xorDistance target b := by
  induction target generalizing a b with
  | nil => simp [lookCloser, xorDistance]
  | cons t ts ih =>
    cases a with
    | nil =>
      obtain rfl : b = [] := length_eq_zero_iff.mp h.symm
      simp [lookCloser]
    | cons a as =>
      cases b with
      | nil => cases h
      | cons b bs =>
        have hlen : as.length = bs.length := Nat.succ.inj h
        rw [xorDistance, xorDistance, zipWith_cons_cons, zipWith_cons_cons,
          fromBigEndian_cons_lt_iff (length_zipWith_xor hlen), lookCloser]
        split_ifs with hne
        · simp only [hne, false_and, or_false]
          omega
        · rw [not_ne_iff] at hne
          simp only [hne, lt_irrefl, true_and, false_or]
          exact ih hlen

theorem xorDistance_inj {a b : Bytes} (h : a.length = b.length)
    (htarget : a.length ≤ target.length) : xorDistance target a = xorDistance target b ↔ a = b := by
  refine ⟨?_, fun heq => heq ▸ rfl⟩
  rw [xorDistance, xorDistance, fromBigEndian_inj (length_zipWith_xor h)]
  induction target generalizing a b with
  | nil =>
    intro _
    obtain rfl : a = [] := length_eq_zero_iff.mp (Nat.le_zero.mp htarget)
    exact (length_eq_zero_iff.mp h.symm).symm
  | cons t ts ih =>
    cases a with
    | nil =>
      intro _
      exact (length_eq_zero_iff.mp h.symm).symm
    | cons a as =>
      cases b with
      | nil => cases h
      | cons b bs =>
        rw [zipWith_cons_cons, zipWith_cons_cons, cons_eq_cons]
        rintro ⟨hhead, htail⟩
        rw [UInt8.xor_left_inj] at hhead
        rw [hhead, ih (Nat.succ.inj h) (Nat.le_of_succ_le_succ htarget) htail]

namespace MainlineState
variable (target : Bytes)

theorem closestFrom_spec (front : List MainlineNode) (best : ℕ) (m : MainlineNode)
    (hbest : front[best]? = some m)
    (hmin : ∀ n ∈ front, xorDistance target m.id ≤ xorDistance target n.id)
    (nodes : List MainlineNode) (hlen : ∀ n ∈ nodes, n.id.length = m.id.length) :
    ∃ x, (front ++ nodes)[closestFrom target best m.id front.length nodes]? = some x ∧
      ∀ n ∈ front ++ nodes, xorDistance target x.id ≤ xorDistance target n.id := by
  induction nodes generalizing front best m with
  | nil =>
    rw [append_nil]
    exact ⟨m, hbest, hmin⟩
  | cons n nodes ih =>
    have hfront : (front ++ [n]).length = front.length + 1 := length_append
    have hn : n.id.length = m.id.length := hlen n mem_cons_self
    rw [closestFrom, append_cons]
    split_ifs with hcloser
    · rw [lookCloser_neg_iff hn] at hcloser
      rw [← hfront]
      refine ih (front ++ [n]) front.length n getElem?_concat_length ?_ ?_
      · intro x hx
        rcases mem_append.mp hx with hx | hx
        · exact hcloser.le.trans (hmin x hx)
        · rw [mem_singleton.mp hx]
      · intro x hx
        rw [hlen x (mem_cons_of_mem n hx), hn]
    · rw [lookCloser_neg_iff hn, not_lt] at hcloser
      rw [← hfront]
      refine ih (front ++ [n]) best m ?_ ?_ ?_
      · rw [getElem?_append_left (List.getElem?_eq_some_iff.mp hbest).1, hbest]
      · intro x hx
        rcases mem_append.mp hx with hx | hx
        · exact hmin x hx
        · rw [mem_singleton.mp hx]
          exact hcloser
      · intro x hx
        exact hlen x (mem_cons_of_mem n hx)

theorem selectClosest_succ (max : ℕ) (n : MainlineNode) (nodes : List MainlineNode)
    (hlen : ∀ m ∈ nodes, m.id.length = n.id.length) :
    ∃ x rest, selectClosest target (max + 1) (n :: nodes) = x :: selectClosest target max rest ∧
      (n :: nodes).Perm (x :: rest) ∧
      ∀ m ∈ rest, xorDistance target x.id ≤ xorDistance target m.id := by
  obtain ⟨x, hget, hmin⟩ := closestFrom_spec target [n] 0 n rfl
    (fun m hm => by rw [mem_singleton.mp hm]) nodes hlen
  rw [length_singleton, singleton_append] at hget
  rw [singleton_append] at hmin
  rw [selectClosest]
  cases hbest : closestFrom target 0 n.id 1 nodes with
  | zero =>
    rw [hbest, getElem?_cons_zero] at hget
    obtain rfl := Option.some.inj hget
    rw [if_pos rfl]
    exact ⟨n, nodes, rfl, Perm.refl _, fun m hm => hmin m (mem_cons_of_mem n hm)⟩
  | succ i =>
    rw [hbest, getElem?_cons_succ] at hget
    obtain ⟨others, hperm, hset⟩ := Compact.exists_perm_set hget
    have hrest : (n :: nodes).Perm (x :: nodes.set i n) :=
      ((hperm.cons n).trans (Perm.swap x n others)).trans ((hset n).symm.cons x)
    rw [if_neg (Nat.succ_ne_zero i), Nat.add_sub_cancel, getD_eq_getElem?_getD, hget,
      Option.getD_some]
    refine ⟨x, nodes.set i n, rfl, hrest, ?_⟩
    intro m hm
    exact hmin m (hrest.mem_iff.mpr (mem_cons_of_mem x hm))

theorem nearest_selectClosest (max : ℕ) {nodes : List MainlineNode}
    (hids : (nodes.map MainlineNode.id).Nodup) (hlen : ∀ n ∈ nodes, n.id.length = 20)
    (htarget : 20 ≤ target.length) :
    Nearest (fun n : MainlineNode => xorDistance target n.id) max nodes.toFinset
      (selectClosest target max nodes) := by
  induction max generalizing nodes with
  | zero => exact Nearest.zero _ _
  | succ max ih =>
    cases nodes with
    | nil => exact Nearest.empty _ _
    | cons n nodes =>
      obtain ⟨x, rest, heq, hperm, hmin⟩ := selectClosest_succ target max n nodes
        fun m hm => by rw [hlen m (mem_cons_of_mem n hm), hlen n mem_cons_self]
      have hlen' : ∀ m ∈ x :: rest, m.id.length = 20 := fun m hm => hlen m (hperm.mem_iff.mpr hm)
      have hids' : ((x :: rest).map MainlineNode.id).Nodup := (hperm.map _).nodup_iff.mp hids
      rw [map_cons, nodup_cons] at hids'
      rw [heq, toFinset_eq_of_perm _ _ hperm, toFinset_cons]
      refine (ih hids'.2 fun m hm => hlen' m (mem_cons_of_mem x hm)).cons ?_
      intro m hm
      rw [mem_toFinset] at hm
      refine lt_of_le_of_ne (hmin m hm) ?_
      have hx := hlen' x mem_cons_self
      have hm' := hlen' m (mem_cons_of_mem x hm)
      rw [Ne, xorDistance_inj (hx.trans hm'.symm) (hx.trans_le htarget)]
      exact fun hid => hids'.1 (hid ▸ mem_map_of_mem hm)

end MainlineState

structure MainlineNode.Sized (n : MainlineNode) : Prop where
  length_id : n.id.length = 20
  ip_lt : n.ip < 256 ^ 4
  port_lt : n.port < 256 ^ 2

def compactEntry (data : Bytes) (i : ℕ) : Bytes × ℕ × ℕ :=
  (slice data (26 * i) 20, fromBigEndian (slice data (26 * i + 20) 4),
    fromBigEndian (slice data (26 * i + 24) 2))

theorem MainlineNode.Sized.length_compactNode (h : n.Sized) : (compactNode n).length = 26 := by
  rw [compactNode, length_append, length_append, h.length_id, length_bigEndian,
    length_bigEndian]

theorem length_flatMap_compactNode (h : ∀ n ∈ l, n.Sized) :
    (l.flatMap compactNode).length = 26 * l.length := by
  induction l with
  | nil => rfl
  | cons n l ih =>
    rw [flatMap_cons, length_append, (h n mem_cons_self).length_compactNode,
      ih fun m hm => h m (mem_cons_of_mem n hm), length_cons]
    omega

theorem compactEntry_flatMap (h : ∀ n ∈ l, n.Sized) {i : ℕ} (hn : l[i]? = some n) :
    compactEntry (l.flatMap compactNode) i = (n.id, n.ip, n.port) := by
  obtain ⟨hi, rfl⟩ := List.getElem?_eq_some_iff.mp hn
  have hn := h l[i] (getElem_mem hi)
  have hsplit : l.flatMap compactNode =
      (l.take i).flatMap compactNode ++ (l[i].id ++ (bigEndian 4 l[i].ip ++
        (bigEndian 2 l[i].port ++ (l.drop (i + 1)).flatMap compactNode))) := by
    conv_lhs => rw [← take_append_drop i l, drop_eq_getElem_cons hi]
    rw [flatMap_append, flatMap_cons, compactNode]
    simp only [append_assoc]
  have hfront : ((l.take i).flatMap compactNode).length = 26 * i := by
    rw [length_flatMap_compactNode fun m hm => h m (mem_of_mem_take hm),
      length_take_of_le hi.le]
  generalize (l.take i).flatMap compactNode = front at hsplit hfront
  generalize (l.drop (i + 1)).flatMap compactNode = back at hsplit
  have hid : (front ++ l[i].id).length = 26 * i + 20 := by
    rw [length_append, hfront, hn.length_id]
  have hip : (front ++ l[i].id ++ bigEndian 4 l[i].ip).length = 26 * i + 24 := by
    rw [length_append, hid, length_bigEndian]
  rw [compactEntry, hsplit]
  refine Prod.ext ?_ (Prod.ext ?_ ?_)
  · rw [← hfront, ← hn.length_id, slice_append]
  · rw [← append_assoc, ← hid, fromBigEndian_slice _ _ hn.ip_lt]
  · rw [← append_assoc, ← append_assoc, ← hip, fromBigEndian_slice _ _ hn.port_lt]

/-- The closest nodes of the table are served, nearest first, each with its own address. -/
theorem served_closest (s : MainlineState) {target : Bytes} (max : ℕ)
    (htarget : 20 ≤ target.length) (hsized : ∀ n ∈ s.nodes, n.Sized)
    (hids : (s.nodes.map MainlineNode.id).Nodup) :
    (s.serveCompactClosest target max).length = 26 * min max s.nodes.length ∧
    ∃ l, Nearest (fun n : MainlineNode => xorDistance target n.id) max s.nodes.toFinset l ∧
      l.length = min max s.nodes.length ∧
      ∀ i n, l[i]? = some n →
        compactEntry (s.serveCompactClosest target max) i = (n.id, n.ip, n.port) := by
  have hnearest := MainlineState.nearest_selectClosest target max hids
    (fun n hn => (hsized n hn).length_id) htarget
  have hlength := hnearest.length
  rw [toFinset_card_of_nodup hids.of_map] at hlength
  have hsized' : ∀ n ∈ MainlineState.selectClosest target max s.nodes, n.Sized := by
    intro n hn
    exact hsized n (mem_toFinset.mp (hnearest.subset n hn))
  refine ⟨?_, _, hnearest, hlength, ?_⟩
  · rw [MainlineState.serveCompactClosest, length_flatMap_compactNode hsized', hlength]
  · intro i n hn
    exact compactEntry_flatMap hsized' hn

def pairNode : MainlineState :=
  { lonelyNode with
    nodes := [⟨.replicate 20 2, 1, 1, 0, [], [], false, none⟩,
      ⟨.replicate 20 3, 2, 1, 0, [], [], false, none⟩] }

theorem pairNode_sized : ∀ n ∈ pairNode.nodes, n.Sized := by
  intro n hn
  rcases mem_pair.mp hn with rfl | rfl
  · constructor <;> decide
  · constructor <;> decide

theorem pairNode_served_closest :
    (pairNode.serveCompactClosest (.replicate 20 3) 1).length = 26 ∧
    ∃ l, Nearest (fun n : MainlineNode => xorDistance (.replicate 20 3) n.id) 1
        pairNode.nodes.toFinset l ∧ l.length = 1 ∧
      ∀ i n, l[i]? = some n →
        compactEntry (pairNode.serveCompactClosest (.replicate 20 3) 1) i = (n.id, n.ip, n.port) :=
  served_closest pairNode 1 (by decide) pairNode_sized (by decide)

structure LookOffer where
  nodes : List MainlineNode
  id : Bytes
  ip : ℕ
  port : ℕ
  length_id : id.length = 20
  ip_ne : ip ≠ 0
  port_ne : port ≠ 0
  plain : lookPreferred nodes id = false

def LookOffer.insert (target : Bytes) (cand : List LookCand) (o : LookOffer) : List LookCand :=
  lookInsert o.nodes target o.id o.ip o.port cand

def lookOffers (target : Bytes) (offers : List LookOffer) : List LookCand :=
  offers.foldl (LookOffer.insert target) []

theorem lookOffers_concat (target : Bytes) (offers : List LookOffer) (o : LookOffer) :
    lookOffers target (offers ++ [o]) = o.insert target (lookOffers target offers) := by
  rw [lookOffers, foldl_append]
  rfl

/-- The order in which a lookup really keeps its candidates. -/
structure FarthestFirst (target : Bytes) (cand : List LookCand) : Prop where
  sorted : cand.Pairwise fun a b => xorDistance target b.id < xorDistance target a.id
  length_id : ∀ c ∈ cand, c.id.length = 20
  plain : ∀ c ∈ cand, c.isPreferred = false

theorem lookCloser_swap (target a b : Bytes) : lookCloser target b a = -lookCloser target a b := by
  induction target generalizing a b with
  | nil => rfl
  | cons t ts ih =>
    cases a with
    | nil => cases b <;> rfl
    | cons a as =>
      cases b with
      | nil => rfl
      | cons b bs =>
        rw [lookCloser, lookCloser, ih as bs]
        split_ifs with h h' h'
        · omega
        · exact absurd h.symm h'
        · exact absurd (Ne.symm h') h
        · rfl

namespace FarthestFirst
variable {target : Bytes} {cand : List LookCand} {new : LookCand}

theorem nil (target : Bytes) : FarthestFirst target [] :=
  ⟨List.Pairwise.nil, forall_mem_nil _, forall_mem_nil _⟩

section
variable (h : FarthestFirst target cand)
include h

theorem sublist {cand' : List LookCand} (hsub : cand'.Sublist cand) : FarthestFirst target cand' :=
  ⟨h.sorted.sublist hsub, fun c hc => h.length_id c (hsub.subset hc),
    fun c hc => h.plain c (hsub.subset hc)⟩

theorem lookPlace_spec (hlen : new.id.length = 20) (htarget : 20 ≤ target.length)
    (hnew : ∀ c ∈ cand, c.id ≠ new.id) (n : ℕ) (hn : n ≤ cand.length) :
    ∃ front back, cand.take n = front ++ back ∧ lookPlace target new cand n = (front.length, true) ∧
      (∀ c ∈ front.getLast?, xorDistance target new.id < xorDistance target c.id) ∧
      ∀ c ∈ back, xorDistance target c.id < xorDistance target new.id := by
  induction n with
  | zero => exact ⟨[], [], rfl, rfl, by rintro c ⟨⟩, forall_mem_nil _⟩
  | succ n ih =>
    have hget : cand[n]? = some cand[n] := getElem?_eq_getElem hn
    have hmem : cand[n] ∈ cand := getElem_mem hn
    have hid : cand[n].id.length = 20 := h.length_id _ hmem
    have htake : cand.take (n + 1) = cand.take n ++ [cand[n]] := (take_append_getElem hn).symm
    have hlength : (cand.take (n + 1)).length = n + 1 := length_take_of_le hn
    rw [lookPlace, hget]
    dsimp only
    by_cases hcloser : lookCloser target new.id cand[n].id < 0
    · rw [if_pos hcloser]
      rw [lookCloser_neg_iff (hlen.trans hid.symm)] at hcloser
      refine ⟨cand.take (n + 1), [], (append_nil _).symm, by rw [hlength], ?_,
        forall_mem_nil _⟩
      rw [htake, getLast?_concat]
      rintro c ⟨⟩
      exact hcloser
    · obtain ⟨front, back, heq, hplace, hfront, hback⟩ := ih (Nat.le_of_succ_le hn)
      have hfarther : xorDistance target cand[n].id < xorDistance target new.id := by
        rw [lookCloser_neg_iff (hlen.trans hid.symm), not_lt] at hcloser
        refine lt_of_le_of_ne hcloser ?_
        rw [Ne, xorDistance_inj (hid.trans hlen.symm) (hid.trans_le htarget)]
        exact hnew _ hmem
      have hne : lookCloser target new.id cand[n].id ≠ 0 := by
        rw [← lookCloser_neg_iff (hid.trans hlen.symm), lookCloser_swap] at hfarther
        omega
      rw [if_neg hcloser, if_neg hne]
      refine ⟨front, back ++ [cand[n]], by rw [htake, heq, append_assoc], hplace, hfront, ?_⟩
      intro c hc
      rcases mem_append.mp hc with hc | hc
      · exact hback c hc
      · rw [mem_singleton.mp hc]
        exact hfarther

theorem lookShift (hlen : new.id.length = 20) (hplain : new.isPreferred = false)
    (htarget : 20 ≤ target.length) (hnew : ∀ c ∈ cand, c.id ≠ new.id) :
    FarthestFirst target (lookShift target new cand) := by
  obtain ⟨front, back, heq, hplace, hfront, hback⟩ :=
    h.lookPlace_spec hlen htarget hnew cand.length le_rfl
  rw [take_length] at heq
  have hshift : Norn.lookShift target new cand = front ++ new :: back := by
    rw [Norn.lookShift, hplace]
    dsimp only
    rw [if_pos rfl, heq, take_left, drop_left]
  have hperm : (front ++ new :: back).Perm (new :: cand) := by
    rw [heq]
    exact perm_middle
  have hsorted := h.sorted
  rw [heq, pairwise_append] at hsorted
  -- what is in front of the place is at least as far away as the last of it
  have hfar : ∀ c ∈ front, xorDistance target new.id < xorDistance target c.id := by
    rcases eq_nil_or_concat front with rfl | ⟨init, last, rfl⟩
    · exact forall_mem_nil _
    · rw [concat_eq_append] at hfront hsorted ⊢
      have hlast := hfront last (by rw [getLast?_concat]; rfl)
      intro c hc
      rcases mem_append.mp hc with hc | hc
      · have hpair := (pairwise_append.mp hsorted.1).2.2 c hc last
          (mem_singleton_self last)
        exact hlast.trans hpair
      · rw [mem_singleton.mp hc]
        exact hlast
  rw [hshift]
  refine ⟨?_, ?_, ?_⟩
  · refine pairwise_append.mpr ⟨hsorted.1, pairwise_cons.mpr ⟨hback, hsorted.2.1⟩, ?_⟩
    intro a ha b hb
    rcases mem_cons.mp hb with rfl | hb
    · exact hfar a ha
    · exact hsorted.2.2 a ha b hb
  · intro c hc
    rcases mem_cons.mp (hperm.mem_iff.mp hc) with rfl | hc
    · exact hlen
    · exact h.length_id c hc
  · intro c hc
    rcases mem_cons.mp (hperm.mem_iff.mp hc) with rfl | hc
    · exact hplain
    · exact h.plain c hc

theorem insert (htarget : 20 ≤ target.length) (o : LookOffer) :
    FarthestFirst target (o.insert target cand) := by
  unfold LookOffer.insert lookInsert
  rw [if_neg (not_or.mpr ⟨o.ip_ne, o.port_ne⟩)]
  by_cases hany : cand.any (fun c => c.id = o.id) = true
  · rw [if_pos hany]
    exact h
  · have hnew : ∀ c ∈ cand, c.id ≠ o.id := by simpa using hany
    rw [if_neg hany]
    dsimp only
    split_ifs
    · split
      · exact h.lookShift o.length_id o.plain htarget hnew
      · split_ifs
        · exact h
        · exact (h.sublist (dropLast_sublist cand)).lookShift o.length_id o.plain htarget
            fun c hc => hnew c (mem_of_mem_dropLast hc)
    · exact h.lookShift o.length_id o.plain htarget hnew

end

theorem lookOffers (target : Bytes) (htarget : 20 ≤ target.length) (offers : List LookOffer) :
    FarthestFirst target (lookOffers target offers) := by
  induction offers using reverseRecOn with
  | nil => exact nil target
  | append_singleton offers o ih =>
    rw [lookOffers_concat]
    exact ih.insert htarget o

theorem length_le_one (h : FarthestFirst target cand)
    (hsorted : (cand.map LookCand.id).Pairwise fun a b =>
      xorDistance target a < xorDistance target b) : cand.length ≤ 1 := by
  match cand with
  | [] => exact Nat.zero_le 1
  | [c] => exact le_rfl
  | c :: d :: cand =>
    have hlt := (pairwise_cons.mp hsorted).1 d.id mem_cons_self
    have hgt := (pairwise_cons.mp h.sorted).1 d mem_cons_self
    exact absurd hlt hgt.asymm

end FarthestFirst

theorem LookOffer.insert_of_mem (target : Bytes) {cand : List LookCand} {o : LookOffer}
    (h : o.id ∈ cand.map LookCand.id) : o.insert target cand = cand := by
  obtain ⟨c, hc, hid⟩ := mem_map.mp h
  have hany : cand.any (fun c => c.id = o.id) = true :=
    any_eq_true.mpr ⟨c, hc, decide_eq_true hid⟩
  rw [LookOffer.insert, lookInsert, if_neg (not_or.mpr ⟨o.ip_ne, o.port_ne⟩), if_pos hany]

theorem LookOffer.insert_nil (target : Bytes) (o : LookOffer) :
    (o.insert target []).map LookCand.id = [o.id] := by
  rw [LookOffer.insert, lookInsert, if_neg (not_or.mpr ⟨o.ip_ne, o.port_ne⟩)]
  rfl

theorem lookOffers_of_same (target : Bytes) {offers : List LookOffer} {id : Bytes}
    (h : ∀ o ∈ offers, o.id = id) (hne : offers ≠ []) :
    (lookOffers target offers).map LookCand.id = [id] := by
  induction offers using reverseRecOn with
  | nil => exact absurd rfl hne
  | append_singleton offers o ih =>
    have ho : o.id = id := h o (mem_append_right _ (mem_singleton_self o))
    rw [lookOffers_concat]
    by_cases hnil : offers = []
    · rw [hnil, ← ho]
      exact o.insert_nil target
    · have hcand := ih (fun p hp => h p (mem_append_left _ hp)) hnil
      have hmem : o.id ∈ (lookOffers target offers).map LookCand.id := by
        rw [hcand, ho]
        exact mem_singleton_self id
      rw [LookOffer.insert_of_mem target hmem, hcand]

/-- The candidates are the closest nodes, nearest first, as long as there is one of them only. -/
theorem candidates_nearest_iff_same_id {target : Bytes} (htarget : 20 ≤ target.length)
    (offers : List LookOffer) :
    (∀ n, Nearest (xorDistance target) lookMaxCand ((offers.take n).map LookOffer.id).toFinset
      ((lookOffers target (offers.take n)).map LookCand.id)) ↔
    ∀ o ∈ offers, ∀ p ∈ offers, o.id = p.id := by
  constructor
  · intro h o ho p hp
    have hall := h offers.length
    rw [take_length] at hall
    have hone := (FarthestFirst.lookOffers target htarget offers).length_le_one hall.sorted
    have hlength := hall.length
    rw [length_map] at hlength
    have hcard : (offers.map LookOffer.id).toFinset.card ≤ 1 := by
      unfold lookMaxCand at hlength
      omega
    exact Finset.card_le_one.mp hcard _ (mem_toFinset.mpr (mem_map_of_mem ho)) _
      (mem_toFinset.mpr (mem_map_of_mem hp))
  · intro h n
    cases htake : offers.take n with
    | nil => exact Nearest.empty _ _
    | cons o rest =>
      have hsame : ∀ p ∈ o :: rest, p.id = o.id := by
        intro p hp
        rw [← htake] at hp
        have ho : o ∈ offers.take n := htake ▸ mem_cons_self
        exact h p (mem_of_mem_take hp) o (mem_of_mem_take ho)
      have hoffered : ((o :: rest).map LookOffer.id).toFinset = {o.id} := by
        ext id
        simp only [mem_toFinset, mem_map, Finset.mem_singleton]
        constructor
        · rintro ⟨p, hp, rfl⟩
          exact hsame p hp
        · rintro rfl
          exact ⟨o, mem_cons_self, rfl⟩
      rw [hoffered, lookOffers_of_same target hsame (cons_ne_nil o rest)]
      refine (Nearest.empty (xorDistance target) 63).cons ?_
      intro id hid
      exact absurd hid (Finset.notMem_empty id)

def plainOffer (id : Bytes) (h : id.length = 20) : LookOffer :=
  ⟨[], id, 1, 1, h, one_ne_zero, one_ne_zero, rfl⟩

theorem plainOffer_repeated_nearest : Nearest (xorDistance (.replicate 20 0)) lookMaxCand
    (((replicate 2 (plainOffer (.replicate 20 1) rfl)).take 2).map LookOffer.id).toFinset
    ((lookOffers (.replicate 20 0)
      ((replicate 2 (plainOffer (.replicate 20 1) rfl)).take 2)).map LookCand.id) := by
  refine (candidates_nearest_iff_same_id (by decide) _).mpr ?_ 2
  intro o ho p hp
  rw [eq_of_mem_replicate ho, eq_of_mem_replicate hp]

def twoOffers : List LookOffer :=
  [plainOffer (.replicate 20 1) rfl, plainOffer (.replicate 20 2) rfl]

theorem twoOffers_farthest_first :
    (lookOffers (.replicate 20 0) twoOffers).map LookCand.id = [.replicate 20 2, .replicate 20 1] ∧
    ¬ ∀ n, Nearest (xorDistance (.replicate 20 0)) lookMaxCand
      ((twoOffers.take n).map LookOffer.id).toFinset
      ((lookOffers (.replicate 20 0) (twoOffers.take n)).map LookCand.id) := by
  have hcand : (lookOffers (.replicate 20 0) twoOffers).map LookCand.id =
      [.replicate 20 2, .replicate 20 1] := by decide
  refine ⟨hcand, ?_⟩
  intro h
  have hsorted := (h 2).sorted
  rw [show twoOffers.take 2 = twoOffers from rfl, hcand, pairwise_pair] at hsorted
  exact absurd hsorted (by decide)

end Norn
