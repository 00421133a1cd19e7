import Norn.Nornd.Served

/-!
# Fetching a body from a peer

The receiving half of `peer_fetch.c`. An empty read says that nothing is there yet.
-/

namespace Norn
open List Option

def fetchRxSize : ℕ := 8192
def fetchErrSize : ℕ := 256

structure FetchCtx where
  rx : Bytes
  haveStatus : Bool
  ok : Bool
  blen : ℕ
  bodyOff : ℕ
  done : Bool
  rc : ℤ
  errmsg : Bytes
  reads : List Bytes

structure FetchTick where
  closed : Bool
  timeUp : Bool
  deriving DecidableEq

inductive FetchResult
  | failed (err : Bytes)
  | fetched (out : Bytes)
  deriving DecidableEq

def malformedResponse : Bytes :=
  text ['m', 'a', 'l', 'f', 'o', 'r', 'm', 'e', 'd', ' ', 'r', 'e', 's', 'p', 'o', 'n', 's', 'e']

def timedOut : Bytes :=
  text ['t', 'i', 'm', 'e', 'd', ' ', 'o', 'u', 't', ' ', '(', '1', '5', 's', ')']

namespace FetchCtx

def init (reads : List Bytes) : FetchCtx := ⟨[], false, false, 0, 0, false, -1, [], reads⟩

def readRx : List Bytes → Bytes → Bytes × List Bytes
  | [], rx => (rx, [])
  | t :: ts, rx =>
    if fetchRxSize ≤ rx.length then (rx, t :: ts)
    else if t.length = 0 then (rx, ts)
    else readRx ts (rx ++ t.take (fetchRxSize - rx.length))

variable (c : FetchCtx)

def checkBody : FetchCtx :=
  if c.haveStatus = true ∧ c.ok = true then
    if c.blen ≤ c.rx.length - c.bodyOff then { c with done := true, rc := 0 } else c
  else c

def pumpRx : FetchCtx :=
  let out := readRx c.reads c.rx
  let c := { c with rx := out.1, reads := out.2 }
  if c.haveStatus = false then
    let i := c.rx.findIdx fun b => b == newline
    if c.rx.length ≤ i then c
    else match norndServedParseStatus (c.rx.take (i + 1)) 0 with
      | none => { c with errmsg := malformedResponse, done := true, rc := -1 }
      | some (.err _) =>
        match norndServedParseStatus (c.rx.take (i + 1)) fetchErrSize with
        | some (.err msg) => { c with
            haveStatus := true, bodyOff := i + 1, ok := false, errmsg := msg, done := true, rc := -1 }
        | _ => { c with haveStatus := true, bodyOff := i + 1, ok := false, done := true, rc := -1 }
      | some (.ok len) =>
        checkBody { c with haveStatus := true, bodyOff := i + 1, ok := true, blen := len }
  else checkBody c

def result (err : Bytes) (cap errcap : ℕ) : FetchResult :=
  if c.rc ≠ 0 then .failed ((if c.errmsg = [] then err else c.errmsg).take (errcap - 1))
  else .fetched ((c.rx.drop c.bodyOff).take (min c.blen cap))

def fetchLoop (cap errcap : ℕ) : List FetchTick → FetchCtx → Option FetchResult
  | [], c => if c.done then some (c.result [] cap errcap) else none
  | t :: ts, c =>
    if c.done then some (c.result [] cap errcap)
    else
      let c := pumpRx (if t.closed then { c with done := true } else c)
      if t.timeUp then some ({ c with rc := -1 }.result timedOut cap errcap)
      else fetchLoop cap errcap ts c

end FetchCtx

def norndPeerFetch (reads : List Bytes) (ticks : List FetchTick) (cap errcap : ℕ) :
    Option FetchResult :=
  FetchCtx.fetchLoop cap errcap ticks (.init reads)

namespace FetchCtx

theorem readRx_spec (reads : List Bytes) (rx : Bytes) : ∃ more, (readRx reads rx).1 = rx ++ more ∧
    more <+: reads.flatten ∧ (rx.length ≤ fetchRxSize → (rx ++ more).length ≤ fetchRxSize) ∧
    (fetchRxSize ≤ (rx ++ more).length ∨ more ++ (readRx reads rx).2.flatten = reads.flatten) ∧
    (fetchRxSize ≤ (rx ++ more).length ∨ (readRx reads rx).2 = [] ∨
      (readRx reads rx).2.count [] < reads.count []) := by
  induction reads generalizing rx with
  | nil => exact ⟨[], by simp [readRx], nil_prefix, by simp, .inr rfl, .inr (.inl rfl)⟩
  | cons t ts ih =>
    rw [readRx]
    by_cases hfull : fetchRxSize ≤ rx.length
    · rw [if_pos hfull]
      refine ⟨[], by simp, nil_prefix, by simp, .inl ?_, .inl ?_⟩ <;>
      · rw [append_nil]
        exact hfull
    rw [if_neg hfull]
    by_cases hempty : t.length = 0
    · rw [if_pos hempty]
      obtain rfl := length_eq_zero_iff.mp hempty
      refine ⟨[], by simp, nil_prefix, by simp, .inr rfl, .inr (.inr ?_)⟩
      rw [count_cons_self]
      exact Nat.lt_succ_self _
    · rw [if_neg hempty]
      obtain ⟨more, hrx, hpre, hle, hrest, hprogress⟩ := ih (rx ++ t.take (fetchRxSize - rx.length))
      have hcount : (t :: ts).count [] = ts.count [] :=
        count_cons_of_ne fun h => hempty (by rw [h]; rfl)
      have hroom : (rx ++ t.take (fetchRxSize - rx.length)).length ≤ fetchRxSize := by
        rw [length_append, length_take]
        omega
      specialize hle hroom
      rw [append_assoc] at hrx hle hrest hprogress
      refine ⟨t.take (fetchRxSize - rx.length) ++ more, hrx, ?_, fun _ => hle, ?_, ?_⟩
      · rw [flatten_cons]
        by_cases hfits : t.length ≤ fetchRxSize - rx.length
        · rw [take_of_length_le hfits, prefix_append_right_inj]
          exact hpre
        · -- the buffer is full, so that nothing more was read
          obtain rfl : more = [] := by
            rw [length_append, length_append, length_take] at hle
            exact length_eq_zero_iff.mp (by omega)
          rw [append_nil]
          exact IsPrefix.trans ⟨_, take_append_drop _ _⟩ ⟨_, rfl⟩
      · by_cases hfits : t.length ≤ fetchRxSize - rx.length
        · rw [take_of_length_le hfits] at hrest ⊢
          refine hrest.imp id fun hrest => ?_
          rw [append_assoc, hrest, flatten_cons]
        · refine .inl ?_
          rw [length_append, length_append, length_take]
          omega
      · rw [hcount]
        exact hprogress

structure Ok (all : Bytes) (c : FetchCtx) : Prop where
  begins : c.rx <+: all
  length_le : c.rx.length ≤ fetchRxSize
  rest : fetchRxSize ≤ c.rx.length ∨ c.rx ++ c.reads.flatten = all
  status : c.haveStatus = true → ∃ a b, c.rx = a ++ newline :: b ∧ newline ∉ a ∧
    c.bodyOff = a.length + 1 ∧
    (c.ok = true ∧ norndServedParseStatus (a ++ [newline]) 0 = some (.ok c.blen) ∨
      c.ok = false ∧ ∃ msg, norndServedParseStatus (a ++ [newline]) 0 = some (.err msg))
  success : c.rc = 0 → c.haveStatus = true ∧ c.ok = true ∧ c.blen ≤ c.rx.length - c.bodyOff

variable {all : Bytes} {c : FetchCtx}

theorem ok_init (reads : List Bytes) : Ok reads.flatten (init reads) :=
  ⟨⟨_, rfl⟩, Nat.zero_le _, .inr rfl, fun h => (nomatch h),
    fun h => absurd h (show (-1 : ℤ) ≠ 0 by decide)⟩

theorem Ok.read (h : Ok all c) :
    Ok all { c with rx := (readRx c.reads c.rx).1, reads := (readRx c.reads c.rx).2 } ∧
      (fetchRxSize ≤ (readRx c.reads c.rx).1.length ∨ (readRx c.reads c.rx).2 = [] ∨
        (readRx c.reads c.rx).2.count [] < c.reads.count []) := by
  obtain ⟨more, hrx, hpre, hle, hrest, hprogress⟩ := readRx_spec c.reads c.rx
  rw [hrx]
  refine ⟨⟨?_, hle h.length_le, ?_, fun hstatus => ?_, fun hrc => ?_⟩, hprogress⟩
  · rcases h.rest with hfull | hall
    · have hnil : more = [] := by
        have := hle h.length_le
        rw [length_append] at this
        exact length_eq_zero_iff.mp (by omega)
      change c.rx ++ more <+: all
      rw [hnil, append_nil]
      exact h.begins
    · rw [← hall]
      exact (prefix_append_right_inj _).mpr hpre
  · rcases h.rest with hfull | hall
    · refine .inl ?_
      change fetchRxSize ≤ (c.rx ++ more).length
      rw [length_append]
      omega
    · refine hrest.imp id fun hrest => ?_
      change c.rx ++ more ++ _ = all
      rw [append_assoc, hrest, hall]
  · obtain ⟨a, b, hab, hnot, hoff, hparse⟩ := h.status hstatus
    refine ⟨a, b ++ more, ?_, hnot, hoff, hparse⟩
    change c.rx ++ more = _
    rw [hab, append_assoc]
    rfl
  · obtain ⟨hstatus, hok, hlen⟩ := h.success hrc
    refine ⟨hstatus, hok, hlen.trans ?_⟩
    change c.rx.length - c.bodyOff ≤ (c.rx ++ more).length - c.bodyOff
    rw [length_append]
    omega

theorem Ok.checkBody (h : Ok all c) : Ok all c.checkBody := by
  unfold FetchCtx.checkBody
  split_ifs with hstatus hlen
  · exact ⟨h.begins, h.length_le, h.rest, h.status, fun _ => ⟨hstatus.1, hstatus.2, hlen⟩⟩
  · exact h
  · exact h

theorem split_findIdx {rx : Bytes} {i : ℕ} (hi : (rx.findIdx fun b => b == newline) = i)
    (hlt : i < rx.length) :
    ∃ a b, rx = a ++ newline :: b ∧ newline ∉ a ∧ i = a.length ∧ rx.take (i + 1) = a ++ [newline] := by
  have hget : rx[i] = newline := by
    subst hi
    simpa using findIdx_getElem (w := hlt)
  have hdrop : rx.drop i = newline :: rx.drop (i + 1) := by
    rw [drop_eq_getElem_cons hlt, hget]
  refine ⟨rx.take i, rx.drop (i + 1), ?_, fun hmem => ?_, ?_, ?_⟩
  · rw [← hdrop, take_append_drop]
  · obtain ⟨j, hj, hjget⟩ := mem_take_iff_getElem.mp hmem
    have hno := not_of_lt_findIdx (show j < rx.findIdx fun b => b == newline by omega)
    simp [hjget] at hno
  · rw [length_take_of_le hlt.le]
  · rw [take_add_one, getElem?_eq_getElem hlt, hget]
    rfl

theorem Ok.pumpRx (h : Ok all c) : Ok all c.pumpRx := by
  obtain ⟨hread, _⟩ := h.read
  unfold FetchCtx.pumpRx
  revert hread
  generalize readRx c.reads c.rx = out
  intro hread
  simp only
  by_cases hstatus : c.haveStatus = false
  · rw [if_pos hstatus]
    by_cases hnone : out.1.length ≤ out.1.findIdx fun b => b == newline
    · rw [if_pos hnone]
      exact hread
    rw [if_neg hnone]
    obtain ⟨a, b, hab, hnot, hi, htake⟩ := split_findIdx rfl (not_le.mp hnone)
    rw [htake, hi]
    have hfail : ∀ {rc : ℤ} {P : Prop}, rc = -1 → rc = 0 → P := by
      intro rc P h₁ h₂
      omega
    cases hparse : norndServedParseStatus (a ++ [newline]) 0 with
    | none =>
      exact ⟨hread.begins, hread.length_le, hread.rest, hread.status, fun h => hfail rfl h⟩
    | some s =>
      cases s with
      | ok len =>
        refine Ok.checkBody ⟨hread.begins, hread.length_le, hread.rest, fun _ => ?_, fun hrc => ?_⟩
        · exact ⟨a, b, hab, hnot, rfl, .inl ⟨rfl, hparse⟩⟩
        · have := (hread.success hrc).1
          change c.haveStatus = true at this
          rw [hstatus] at this
          cases this
      | err msg =>
        simp only
        split
        · exact ⟨hread.begins, hread.length_le, hread.rest,
            fun _ => ⟨a, b, hab, hnot, rfl, .inr ⟨rfl, msg, hparse⟩⟩, fun h => hfail rfl h⟩
        · exact ⟨hread.begins, hread.length_le, hread.rest,
            fun _ => ⟨a, b, hab, hnot, rfl, .inr ⟨rfl, msg, hparse⟩⟩, fun h => hfail rfl h⟩
  · rw [if_neg hstatus]
    exact hread.checkBody

/-- The bytes that the line says, up to the capacity. -/
def Reported (all : Bytes) (cap : ℕ) (out : Bytes) : Prop :=
  ∃ a rest n, all = a ++ newline :: rest ∧ newline ∉ a ∧
    norndServedParseStatus (a ++ [newline]) 0 = some (.ok n) ∧ n ≤ rest.length ∧
    out = rest.take (min n cap) ∧ a.length + 1 + n ≤ fetchRxSize

variable {out : Bytes} {cap : ℕ} {ticks : List FetchTick}

theorem Ok.reported (h : Ok all c) {err : Bytes} {errcap : ℕ}
    (hout : c.result err cap errcap = .fetched out) : Reported all cap out := by
  unfold FetchCtx.result at hout
  split_ifs at hout with hrc
  obtain ⟨hstatus, hok, hlen⟩ := h.success (not_not.mp hrc)
  obtain ⟨a, b, hab, hnot, hoff, ⟨_, hparse⟩ | ⟨hno, _⟩⟩ := h.status hstatus
  · obtain ⟨r, hr⟩ := h.begins
    have hrx := h.length_le
    have hsize : c.rx.length = a.length + 1 + b.length := by
      rw [hab, length_append, length_cons]
      omega
    have hdrop : c.rx.drop c.bodyOff = b := by
      rw [hab, hoff, ← drop_drop, drop_left]
      rfl
    have hblen : c.blen ≤ b.length := by omega
    refine ⟨a, b ++ r, c.blen, ?_, hnot, hparse, ?_, ?_, by omega⟩
    · rw [← hr, hab, append_assoc]
      rfl
    · rw [length_append]
      omega
    · rw [hdrop] at hout
      rw [take_append_of_le_length ((min_le_left _ _).trans hblen)]
      exact (FetchResult.fetched.inj hout).symm
  · rw [hok] at hno
    cases hno

theorem Ok.of_done (h : Ok all c) (done : Bool) : Ok all { c with done := done } :=
  ⟨h.begins, h.length_le, h.rest, h.status, h.success⟩

theorem fetchLoop_reported {errcap : ℕ} (h : Ok all c)
    (hout : fetchLoop cap errcap ticks c = some (.fetched out)) : Reported all cap out := by
  induction ticks generalizing c with
  | nil =>
    rw [fetchLoop] at hout
    split_ifs at hout
    exact h.reported (some.inj hout)
  | cons t ts ih =>
    rw [fetchLoop] at hout
    split_ifs at hout with hdone hclosed htime htime
    · exact h.reported (some.inj hout)
    · cases hout
    · exact ih (h.of_done true).pumpRx hout
    · cases hout
    · exact ih h.pumpRx hout

theorem first_newline {a b l r : Bytes} (ha : newline ∉ a) (hl : newline ∉ l)
    (h : a ++ newline :: b = l ++ newline :: r) : a = l ∧ b = r := by
  induction a generalizing l with
  | nil =>
    cases l with
    | nil => exact ⟨rfl, (cons.inj h).2⟩
    | cons y l => exact absurd (by rw [(cons.inj h).1]; exact mem_cons_self) hl
  | cons x a ih =>
    cases l with
    | nil => exact absurd (by rw [← (cons.inj h).1]; exact mem_cons_self) ha
    | cons y l =>
      obtain ⟨rfl, htail⟩ := cons.inj h
      obtain ⟨rfl, hb⟩ := ih (fun hm => ha (mem_cons_of_mem _ hm))
        (fun hm => hl (mem_cons_of_mem _ hm)) htail
      exact ⟨rfl, hb⟩

theorem okLine_eq (n : ℕ) : ∃ l, okLine n = l ++ [newline] ∧ newline ∉ l := by
  refine ⟨text ['O', 'K', ' '] ++ decimal n, rfl, fun hmem => ?_⟩
  rcases mem_append.mp hmem with hmem | hmem
  · exact absurd hmem (by decide)
  · exact absurd (isDigit_of_mem_decimal n _ hmem) (by decide)

theorem Reported.eq_body {body : Bytes} (hn : body.length < 2 ^ 64) (hcap : body.length ≤ cap)
    (h : Reported (okLine body.length ++ body) cap out) :
    out = body ∧ (okLine body.length).length + body.length ≤ fetchRxSize := by
  obtain ⟨a, rest, n, hall, hnot, hparse, _, hout, hfits⟩ := h
  obtain ⟨l, hline, hl⟩ := okLine_eq body.length
  rw [hline, append_assoc] at hall
  obtain ⟨rfl, rfl⟩ := first_newline hnot hl hall.symm
  rw [← hline, parseStatus_okLine hn] at hparse
  cases hparse
  rw [hline, length_append, length_singleton]
  refine ⟨?_, hfits⟩
  rw [hout, min_eq_left hcap, take_length]

section
variable {body : Bytes}

theorem Ok.pumpRx_cases (hn : body.length < 2 ^ 64) (h : Ok (okLine body.length ++ body) c) :
    newline ∉ (readRx c.reads c.rx).1 ∧
        c.pumpRx = { c with rx := (readRx c.reads c.rx).1, reads := (readRx c.reads c.rx).2 } ∨
      c.pumpRx = FetchCtx.checkBody { c with
        rx := (readRx c.reads c.rx).1, reads := (readRx c.reads c.rx).2, haveStatus := true, ok := true,
        blen := body.length, bodyOff := (okLine body.length).length } := by
  obtain ⟨l, hline, hl⟩ := okLine_eq body.length
  obtain ⟨hread, _⟩ := h.read
  have hfirst : ∀ {a b}, newline ∉ a → (readRx c.reads c.rx).1 = a ++ newline :: b → a = l := by
    intro a b hnot hab
    obtain ⟨r, hr⟩ := hread.begins
    change (readRx c.reads c.rx).1 ++ r = _ at hr
    rw [hab, hline, append_assoc, append_assoc] at hr
    exact (first_newline hnot hl hr).1
  unfold FetchCtx.pumpRx
  simp only
  by_cases hstatus : c.haveStatus = false
  · rw [if_pos hstatus]
    by_cases hnone : (readRx c.reads c.rx).1.length ≤
        (readRx c.reads c.rx).1.findIdx fun b => b == newline
    · refine .inl ⟨fun hmem => ?_, if_pos hnone⟩
      exact absurd (findIdx_lt_length_of_exists (p := fun b => b == newline)
        ⟨newline, hmem, beq_self_eq_true newline⟩) (not_lt.mpr hnone)
    · obtain ⟨a, b, hab, hnot, hi, htake⟩ := split_findIdx rfl (not_le.mp hnone)
      obtain rfl := hfirst hnot hab
      refine .inr ?_
      rw [if_neg hnone, htake, hi, ← hline, parseStatus_okLine hn, hline, length_append]
      rfl
  · rw [if_neg hstatus]
    replace hstatus := Bool.eq_true_of_not_eq_false hstatus
    obtain ⟨a, b, hab, hnot, hoff, hparse⟩ := hread.status hstatus
    obtain rfl := hfirst hnot hab
    rw [← hline, parseStatus_okLine hn] at hparse
    obtain ⟨hok, hparse⟩ | ⟨_, _, hparse⟩ := hparse
    · have hblen : c.blen = body.length := (ServedStatus.ok.inj (some.inj hparse)).symm
      change c.ok = true at hok
      change c.bodyOff = _ at hoff
      refine .inr ?_
      rw [hstatus, hok, hblen, hoff, hline, length_append, length_singleton]
    · cases hparse

theorem Ok.progress (hfits : (okLine body.length).length + body.length ≤ fetchRxSize)
    (h : Ok (okLine body.length ++ body) c)
    (hrest : (readRx c.reads c.rx).1 ≠ okLine body.length ++ body) :
    (readRx c.reads c.rx).2.count [] < c.reads.count [] := by
  obtain ⟨hread, hprogress⟩ := h.read
  have hfull : ¬ fetchRxSize ≤ (readRx c.reads c.rx).1.length := by
    intro hfull
    refine hrest (hread.begins.eq_of_length_le ?_)
    rw [length_append]
    exact hfits.trans hfull
  rcases hprogress with hno | hnil | hcount
  · exact absurd hno hfull
  · obtain hno | hall := hread.rest
    · exact absurd hno hfull
    · refine absurd ?_ hrest
      change (readRx c.reads c.rx).1 ++ (readRx c.reads c.rx).2.flatten = _ at hall
      rwa [hnil, flatten_nil, append_nil] at hall
  · exact hcount

theorem fetchLoop_fetched (hn : body.length < 2 ^ 64)
    (hfits : (okLine body.length).length + body.length ≤ fetchRxSize) (cap errcap : ℕ)
    (hcalm : ∀ t ∈ ticks, t = ⟨false, false⟩) (h : Ok (okLine body.length ++ body) c)
    (hdone : c.done = false) (hticks : c.reads.count [] < ticks.length) :
    ∃ out, fetchLoop cap errcap ticks c = some (.fetched out) := by
  induction ticks generalizing c with
  | nil => cases hticks
  | cons t ts ih =>
    obtain rfl := hcalm t mem_cons_self
    rw [fetchLoop, if_neg (by rw [hdone]; decide)]
    simp only [Bool.false_eq_true, if_false]
    have hnext : c.pumpRx.done = false →
        (readRx c.reads c.rx).1 ≠ okLine body.length ++ body →
        c.pumpRx.reads = (readRx c.reads c.rx).2 →
        ∃ out, fetchLoop cap errcap ts c.pumpRx = some (.fetched out) := by
      intro hdone' hrest hreads
      refine ih (fun t ht => hcalm t (mem_cons_of_mem _ ht)) h.pumpRx hdone' ?_
      have hcount := h.progress hfits hrest
      rw [length_cons] at hticks
      rw [hreads]
      omega
    rcases h.pumpRx_cases hn with ⟨hnot, hpump⟩ | hpump
    · refine hnext (by rw [hpump]; exact hdone) (fun hall => hnot ?_) (by rw [hpump])
      obtain ⟨l, hline, _⟩ := okLine_eq body.length
      rw [hall, hline]
      exact mem_append_left _ (mem_append_right _ (mem_singleton_self _))
    · unfold FetchCtx.checkBody at hpump
      rw [if_pos ⟨rfl, rfl⟩] at hpump
      split_ifs at hpump with hlen
      · have hresult : ∃ out, c.pumpRx.result [] cap errcap = .fetched out := by
          rw [hpump]
          exact ⟨_, if_neg (not_not.mpr rfl)⟩
        obtain ⟨out, hout⟩ := hresult
        refine ⟨out, ?_⟩
        rw [← hout]
        have hdone' : c.pumpRx.done = true := by rw [hpump]
        cases ts with
        | nil | cons t ts => rw [fetchLoop, if_pos hdone']
      · refine hnext (by rw [hpump]; exact hdone) (fun hall => hlen ?_) (by rw [hpump])
        change body.length ≤ (readRx c.reads c.rx).1.length - (okLine body.length).length
        rw [hall, length_append]
        omega

end
end FetchCtx

def largeReads : List Bytes := okLine 8192 :: replicate 4 (replicate 2048 0)

theorem not_fetched_of_length {body : Bytes} {reads : List Bytes} (hbody : body.length = fetchRxSize)
    (hall : reads.flatten = okLine body.length ++ body) (ticks : List FetchTick) {cap errcap : ℕ}
    (hcap : fetchRxSize ≤ cap) : norndPeerFetch reads ticks cap errcap ≠ some (.fetched body) := by
  intro hout
  have hreported := FetchCtx.fetchLoop_reported (FetchCtx.ok_init reads) hout
  rw [hall] at hreported
  have hle := (hreported.eq_body (by rw [hbody]; decide) (by omega)).2
  have hpos : 0 < (okLine body.length).length := Nat.succ_pos _
  omega

end Norn
