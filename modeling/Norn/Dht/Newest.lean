import Norn.Dht.SigningForm

/-!
# The newest value of a signed item

`norn_dht_get_mutable` copies out the value of every response that passes its check, so the last of
them stays, whatever its number.
-/

namespace Norn
open List Bool Option

def eventsHeard (timeoutMs : ℤ) : List LookEvent → List Datagram
  | [] => []
  | e :: events =>
    if timeoutMs - e.elapsed ≤ 0 then []
    else
      match e.arrived with
      | none => []
      | some d => if d.data.length = 0 then [] else d :: eventsHeard timeoutMs events

def heardRecord (d : Datagram) : Option LookRecord := (lookResponse d.data).bind lookRecord

section
variable (C : DhtCrypto) (now : ℤ) (s : MainlineState) (args : LookupArgs)

def roundsHeard : List LookRound → LookState → List LookRecord
  | [], _ => []
  | round :: rounds, t =>
    if args.timeoutMs ≤ round.elapsed then []
    else
      let out := lookQuery s args lookAlpha t.cand
      if out.2 = [] then []
      else
        (eventsHeard args.timeoutMs round.events).filterMap heardRecord ++
          roundsHeard rounds (lookReceive C now s args round.events
            { t with cand := out.1, sent := t.sent ++ out.2 })

def lookupHeard (rounds : List LookRound) (recs : List RecItem) : List LookRecord :=
  roundsHeard C now s args rounds ⟨lookStart s.nodes args.target, false, [], recs, []⟩

def returnedRecord (heard : List LookRecord) : Option LookRecord :=
  (heard.filter (recordAccepted C args)).getLast?

/-- The state has the outcome of the last accepted response. -/
structure Shows (cap : ℕ) (heard : List LookRecord) (t : LookState) : Prop where
  accepted : t.accepted = (returnedRecord C args heard).isSome
  value : t.value = (returnedRecord C args heard).elim [] fun p => copyOut cap p.v

end

section
variable {C : DhtCrypto} {now : ℤ} {s : MainlineState} {args : LookupArgs} {cap : ℕ}

theorem lookReceive_eq_foldl (events : List LookEvent) (t : LookState) :
    lookReceive C now s args events t =
      (eventsHeard args.timeoutMs events).foldl (fun t d => lookHandle C now s args d t) t := by
  induction events generalizing t with
  | nil => rfl
  | cons e events ih =>
    rw [lookReceive, eventsHeard]
    split_ifs
    · rfl
    · cases e.arrived with
      | none => rfl
      | some d =>
        dsimp only
        split_ifs
        · rfl
        · exact ih _

variable {heard : List LookRecord} {p : LookRecord} {t : LookState}

theorem returnedRecord_append_of_accepted (h : recordAccepted C args p = true) :
    returnedRecord C args (heard ++ [p]) = some p := by
  rw [returnedRecord, filter_append, filter_cons_of_pos h, filter_nil,
    getLast?_concat]

theorem returnedRecord_append_of_rejected (h : recordAccepted C args p = false) :
    returnedRecord C args (heard ++ [p]) = returnedRecord C args heard := by
  rw [returnedRecord, filter_append, filter_cons_of_neg (by rw [h]; exact false_ne_true),
    filter_nil, append_nil, returnedRecord]

variable (now s) (himm : args.immutable = false) (hcap : args.valueCap = some cap)
include himm hcap

theorem Shows.takeRecord (h : Shows C args cap heard t) (r : Bencode) :
    Shows C args cap (heard ++ (lookRecord r).toList) (Norn.takeRecord C now args r t) := by
  unfold Norn.takeRecord
  rw [if_neg (by rw [himm]; exact false_ne_true)]
  cases lookRecord r with
  | none =>
    rw [toList_none, append_nil]
    exact h
  | some p =>
    rw [hcap, toList_some]
    dsimp only
    by_cases hp : recordAccepted C args p = true
    · rw [if_pos hp]
      constructor
      · rw [returnedRecord_append_of_accepted hp]
        rfl
      · rw [returnedRecord_append_of_accepted hp]
        rfl
    · rw [if_neg hp]
      constructor
      · rw [returnedRecord_append_of_rejected (eq_false_of_not_eq_true hp)]
        exact h.accepted
      · rw [returnedRecord_append_of_rejected (eq_false_of_not_eq_true hp)]
        exact h.value

theorem takeImmutable_eq (r : Bencode) (t : LookState) : takeImmutable C args r t = t := by
  unfold takeImmutable
  rw [himm, hcap]
  cases r.getText ['v'] with
  | none => rfl
  | some v => exact if_neg fun h => Bool.false_ne_true h.1

theorem Shows.lookHandle (h : Shows C args cap heard t) (d : Datagram) :
    Shows C args cap (heard ++ (heardRecord d).toList) (Norn.lookHandle C now s args d t) := by
  unfold Norn.lookHandle heardRecord
  cases lookResponse d.data with
  | none =>
    rw [bind_none, toList_none, append_nil]
    exact h
  | some r =>
    rw [bind_some]
    dsimp only
    rw [takeImmutable_eq himm hcap]
    have hnoted : Shows C args cap heard { t with cand := noteToken r d.ip d.port t.cand } :=
      ⟨h.accepted, h.value⟩
    have htaken := hnoted.takeRecord now himm hcap r
    cases r.getText ['n', 'o', 'd', 'e', 's'] with
    | none => exact htaken
    | some blob => exact ⟨htaken.accepted, htaken.value⟩

theorem Shows.foldl (h : Shows C args cap heard t) (ds : List Datagram) :
    Shows C args cap (heard ++ ds.filterMap heardRecord)
      (ds.foldl (fun t d => Norn.lookHandle C now s args d t) t) := by
  induction ds generalizing heard t with
  | nil =>
    rw [filterMap_nil, append_nil]
    exact h
  | cons d ds ih =>
    have hstep := ih (h.lookHandle now s himm hcap d)
    rw [append_assoc] at hstep
    rw [foldl_cons, filterMap_cons]
    cases hd : heardRecord d with
    | none | some p =>
      rw [hd] at hstep
      exact hstep

theorem Shows.lookRounds (h : Shows C args cap heard t) (rounds : List LookRound) :
    Shows C args cap (heard ++ roundsHeard C now s args rounds t)
      (Norn.lookRounds C now s args rounds t) := by
  induction rounds generalizing heard t with
  | nil =>
    rw [roundsHeard, append_nil]
    exact h
  | cons round rounds ih =>
    rw [roundsHeard, Norn.lookRounds]
    dsimp only
    split_ifs
    · rw [append_nil]
      exact h
    · rw [append_nil]
      exact h
    · rw [← append_assoc]
      apply ih
      rw [lookReceive_eq_foldl]
      have hasked : Shows C args cap heard { t with
          cand := (lookQuery s args lookAlpha t.cand).1
          sent := t.sent ++ (lookQuery s args lookAlpha t.cand).2 } := ⟨h.accepted, h.value⟩
      exact hasked.foldl now s himm hcap _

theorem shows_lookup (hput : args.doPut = false) (rounds : List LookRound) (recs : List RecItem) :
    ((mainlineLookupMutable C now s args rounds recs).1 = 1 ↔
      (returnedRecord C args (lookupHeard C now s args rounds recs)).isSome = true) ∧
    (mainlineLookupMutable C now s args rounds recs).2.value =
      (returnedRecord C args (lookupHeard C now s args rounds recs)).elim [] fun p =>
        copyOut cap p.v := by
  have hstart : Shows C args cap [] ⟨lookStart s.nodes args.target, false, [], recs, []⟩ :=
    ⟨rfl, rfl⟩
  have hshows := hstart.lookRounds now s himm hcap rounds
  rw [nil_append] at hshows
  unfold mainlineLookupMutable lookupHeard
  dsimp only
  by_cases hcand : lookStart s.nodes args.target = []
  · have hnone : roundsHeard C now s args rounds
        ⟨lookStart s.nodes args.target, false, [], recs, []⟩ = [] := by
      cases rounds with
      | nil => rfl
      | cons round rounds =>
        rw [roundsHeard]
        dsimp only
        rw [hcand]
        split_ifs
        · rfl
        · rfl
        · contradiction
    rw [if_pos hcand, hnone]
    exact ⟨⟨fun h => absurd h zero_ne_one, fun h => absurd h Bool.false_ne_true⟩, rfl⟩
  · rw [if_neg hcand]
    dsimp only
    rw [hput, if_neg Bool.false_ne_true, ← hshows.accepted]
    refine ⟨?_, hshows.value⟩
    split_ifs with haccepted
    · exact ⟨fun _ => haccepted, fun _ => rfl⟩
    · exact ⟨fun h => absurd h (by decide), fun h => absurd h haccepted⟩

end

/-- The canonical form with the number of a response, which may be negative. -/
def signedForm (salt : Bytes) (seq : ℤ) (v : Bytes) : Bytes :=
  (if salt = [] then [] else text "4:salt".toList ++ Bencode.encodeString salt) ++
    text "3:seq".toList ++ Bencode.encodeInt seq ++ text "1:v".toList ++ Bencode.encodeString v

theorem signedForm_natCast (salt : Bytes) (seq : ℕ) (v : Bytes) :
    signedForm salt seq v = canonicalForm salt seq v := by
  have hnonneg : ¬ (seq : ℤ) < 0 := by omega
  unfold signedForm canonicalForm Bencode.encodeInt
  simp only [if_neg hnonneg, Int.natAbs_natCast, append_assoc, cons_append, nil_append]
  rfl

namespace LookRecord
variable (C : DhtCrypto) (key salt : Bytes)

/-- The response is signed for the key and the salt that were asked for. -/
def Authentic (p : LookRecord) : Prop :=
  p.k = key ∧ C.verify p.sig (signedForm salt p.seq p.v) key = true

instance (p : LookRecord) : Decidable (p.Authentic C key salt) :=
  inferInstanceAs (Decidable (_ ∧ _))

/-- The lookup reads it whole: 32 bits of its number, a value below the limit and the capacity, and
a form that fits the buffer. -/
structure Plain (cap : ℕ) (p : LookRecord) : Prop where
  nonneg : 0 ≤ p.seq
  lt : p.seq < 2 ^ 32
  length_le : p.v.length ≤ 1024
  length_lt : p.v.length < cap
  fits : (signedForm salt p.seq p.v).length ≤ 64 + 1024

/-- The response with 32 bits of its number and 1024 bytes of its value. -/
def cut (p : LookRecord) : LookRecord := { p with seq := p.seq % 2 ^ 32, v := p.v.take 1024 }

variable {C key salt}

theorem accepted_iff {target : Bytes} {cap : ℕ} {timeoutMs : ℤ} {p : LookRecord}
    (hsalt : salt.length ≤ bep44MaxSalt) :
    recordAccepted C (nornDhtGetMutable target key salt cap timeoutMs) p = true ↔
      p.cut.Authentic C key salt ∧ (signedForm salt p.cut.seq p.cut.v).length ≤ 64 + 1024 := by
  have hnonneg : 0 ≤ p.seq % 2 ^ 32 := Int.emod_nonneg _ (by decide)
  have hform : signedForm salt p.cut.seq p.cut.v =
      saltBytes salt ++ valueBytes (MainlineState.seqOf p.seq) (p.v.take 1024) := by
    rw [form_eq_canonicalForm hsalt, ← signedForm_natCast, MainlineState.seqOf,
      Int.toNat_of_nonneg hnonneg]
    rfl
  unfold recordAccepted nornDhtGetMutable bep44SignbufSalted Authentic
  rw [hform]
  dsimp only
  by_cases hfits : (saltBytes salt ++ valueBytes (MainlineState.seqOf p.seq)
      (p.v.take 1024)).length ≤ 64 + 1024
  · rw [if_neg (not_lt.mpr hfits), and_eq_true, beq_iff_eq, and_iff_left hfits]
    refine and_congr_right fun hkey => ?_
    rw [hkey]
    rfl
  · rw [if_pos (not_le.mp hfits)]
    exact ⟨fun h => absurd h false_ne_true, fun h => absurd h.2 hfits⟩

theorem Plain.cut_eq {cap : ℕ} {p : LookRecord} (h : p.Plain salt cap) : p.cut = p := by
  rw [cut, Int.emod_eq_of_lt h.nonneg h.lt, take_of_length_le h.length_le]

theorem Plain.accepted_iff {target : Bytes} {cap : ℕ} {timeoutMs : ℤ} {p : LookRecord}
    (hsalt : salt.length ≤ bep44MaxSalt) (h : p.Plain salt cap) :
    recordAccepted C (nornDhtGetMutable target key salt cap timeoutMs) p = true ↔
      p.Authentic C key salt := by
  rw [LookRecord.accepted_iff hsalt, h.cut_eq]
  exact and_iff_left h.fits

end LookRecord

section
variable (C : DhtCrypto) (key salt : Bytes) (heard : List LookRecord)

/-- The value is that of an authentic response with the largest number, up to the capacity. -/
def Newest (cap : ℕ) (value : Bytes) : Prop :=
  ∃ q ∈ heard, q.Authentic C key salt ∧ (∀ p ∈ heard, p.Authentic C key salt → p.seq ≤ q.seq) ∧
    value = q.v.take cap

/-- The authentic response heard last carries the value of one with the largest number so far. -/
def LastNewest : Prop :=
  ∀ before p after, heard = before ++ p :: after → p.Authentic C key salt →
    (∀ q ∈ after, ¬ q.Authentic C key salt) →
      ∃ q ∈ before ++ [p], q.Authentic C key salt ∧ q.v = p.v ∧
        ∀ q' ∈ before ++ [p], q'.Authentic C key salt → q'.seq ≤ q.seq

variable {C key salt heard}

/-- Up to the authentic response heard last is all that `Newest` asks about. -/
theorem newest_iff_of_last {cap : ℕ} {before after : List LookRecord} {p : LookRecord}
    (hheard : heard = before ++ p :: after) (hlast : ∀ q ∈ after, ¬ q.Authentic C key salt)
    (htake : ∀ q ∈ heard, q.Authentic C key salt → q.v.take cap = q.v) :
    Newest C key salt heard cap p.v ↔ ∃ q ∈ before ++ [p], q.Authentic C key salt ∧ q.v = p.v ∧
      ∀ q' ∈ before ++ [p], q'.Authentic C key salt → q'.seq ≤ q.seq := by
  have hmem : ∀ q : LookRecord, q.Authentic C key salt → (q ∈ heard ↔ q ∈ before ++ [p]) := by
    intro q hq
    rw [hheard, append_cons, mem_append]
    exact or_iff_left fun h => hlast q h hq
  constructor
  · rintro ⟨q, hq, hauth, hmax, hv⟩
    refine ⟨q, (hmem q hauth).mp hq, hauth, ?_, fun q' hq' h' => hmax q' ((hmem q' h').mpr hq') h'⟩
    rw [hv, htake q hq hauth]
  · rintro ⟨q, hq, hauth, hv, hmax⟩
    have hq := (hmem q hauth).mpr hq
    refine ⟨q, hq, hauth, fun q' hq' h' => hmax q' ((hmem q' h').mp hq') h', ?_⟩
    rw [htake q hq hauth, hv]

/-- The response that is copied out last is the last one that is accepted. -/
theorem returnedRecord_eq_some_iff {args : LookupArgs} {p : LookRecord} {P : LookRecord → Prop}
    (hiff : ∀ q ∈ heard, recordAccepted C args q = true ↔ P q) :
    returnedRecord C args heard = some p ↔
      ∃ before after, heard = before ++ p :: after ∧ P p ∧ ∀ q ∈ after, ¬ P q := by
  rw [returnedRecord, getLast?_eq_head?_reverse, ← filter_reverse, head?_filter,
    find?_eq_some_iff_append]
  constructor
  · rintro ⟨hp, as, bs, heq, has⟩
    have hheard : heard = bs.reverse ++ p :: as.reverse := by
      rw [← reverse_reverse heard, heq]
      simp
    refine ⟨bs.reverse, as.reverse, hheard, (hiff p (by simp [hheard])).mp hp, fun q hq hP => ?_⟩
    have hno := has q (mem_reverse.mp hq)
    rw [(hiff q (by rw [hheard]; simp [mem_reverse.mp hq])).mpr hP] at hno
    cases hno
  · rintro ⟨before, after, rfl, hp, hafter⟩
    refine ⟨(hiff p (by simp)).mpr hp, after.reverse, before.reverse, by simp, fun q hq => ?_⟩
    have hq := mem_reverse.mp hq
    rw [Bool.not_eq_true']
    exact eq_false_of_not_eq_true fun h => hafter q hq ((hiff q (by simp [hq])).mp h)

end

def shortReply (seq : ℕ) (v : UInt8) : Datagram :=
  ⟨(Bencode.dict [(text ['r'], .dict [(text ['k'], .str (.replicate 32 3)),
      (text ['s', 'e', 'q'], .int seq),
      (text ['s', 'i', 'g'], .str (toyCrypto.sign [] (saltBytes [5] ++ valueBytes seq [v]))),
      (text ['v'], .str [v])]),
    (text ['y'], .str (text ['r']))]).encode, 1, 1⟩

def replies (ds : List Datagram) : List LookRound := [⟨0, ds.map fun d => ⟨0, some d⟩⟩]

def shortGet : LookupArgs := nornDhtGetMutable (.replicate 20 9) (.replicate 32 3) [5] 100 1000

end Norn
