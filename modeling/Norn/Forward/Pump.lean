import Norn.Lib.Bytes
import Norn.Lib.Run

/-!
# The forwarding pump

The byte pump of `norn_forward.c`. What the callbacks return is an input of every round.
-/

namespace Norn
open List Bool Option
namespace Forward

def nornPumpDefaultBuf : ℕ := 16384
def nornPumpMaxBuf : ℕ := 2 ^ 20

inductive ReadResult
  | data (bytes : Bytes)
  | block
  | eof
  | error

inductive WriteResult
  | accepted (n : ℕ)
  | error

def ReadResult.Fits (room : ℕ) : ReadResult → Prop
  | .data bs => bs ≠ [] ∧ bs.length ≤ room
  | _ => True

def WriteResult.Within (len : ℕ) : WriteResult → Prop
  | .accepted n => n ≤ len
  | .error => True

instance (room : ℕ) : DecidablePred (ReadResult.Fits room)
  | .data bs => inferInstanceAs (Decidable (bs ≠ [] ∧ bs.length ≤ room))
  | .block | .eof | .error => .isTrue trivial

instance (len : ℕ) : DecidablePred (WriteResult.Within len)
  | .accepted n => inferInstanceAs (Decidable (n ≤ len))
  | .error => .isTrue trivial

inductive Effect
  | read (bytes : Bytes)
  | eof
  | wrote (bytes : Bytes)
  | shutdown
  deriving DecidableEq

def Effect.bytesRead : Effect → Bytes
  | read bs => bs
  | _ => []

def Effect.bytesWritten : Effect → Bytes
  | wrote bs => bs
  | _ => []

def readIn (es : List Effect) : Bytes := es.flatMap Effect.bytesRead

def writtenIn (es : List Effect) : Bytes := es.flatMap Effect.bytesWritten

theorem readIn_concat (es : List Effect) (e : Effect) :
    readIn (es ++ [e]) = readIn es ++ e.bytesRead := by
  simp [readIn]

theorem writtenIn_concat (es : List Effect) (e : Effect) :
    writtenIn (es ++ [e]) = writtenIn es ++ e.bytesWritten := by
  simp [writtenIn]

structure Half where
  buf : Bytes
  forwarded : ℕ
  srcEof : Bool
  dstShut : Bool
  deriving DecidableEq

def Half.new : Half := ⟨[], 0, false, false⟩

structure Part where
  half : Half
  effects : List Effect
  progressed : Bool

inductive Outcome
  | again
  | stop
  | failed

namespace Half

def halfDone (h : Half) : Bool := h.srcEof && h.buf.isEmpty && h.dstShut

def Reads (h : Half) (cap : ℕ) : Prop := h.srcEof = false ∧ h.buf.length < cap

instance (h : Half) (cap : ℕ) : Decidable (h.Reads cap) := inferInstanceAs (Decidable (_ ∧ _))

def fill (h : Half) (cap : ℕ) (r : ReadResult) : Option Part :=
  if h.Reads cap then
    match r with
    | .error => none
    | .eof => some ⟨{ h with srcEof := true }, [.eof], true⟩
    | .data bs => some ⟨{ h with buf := h.buf ++ bs }, [.read bs], !bs.isEmpty⟩
    | .block => some ⟨h, [], false⟩
  else some ⟨h, [], false⟩

def drain (h : Half) (w : WriteResult) : Option Part :=
  if h.buf = [] then some ⟨h, [], false⟩
  else
    match w with
    | .error => none
    | .accepted n =>
      some ⟨{ h with buf := h.buf.drop n, forwarded := h.forwarded + n }, [.wrote (h.buf.take n)],
        decide (0 < n)⟩

def close (h : Half) (hasShutdown : Bool) : Part :=
  if h.srcEof = true ∧ h.buf = [] ∧ h.dstShut = false then
    ⟨{ h with dstShut := true }, if hasShutdown then [.shutdown] else [], true⟩
  else ⟨h, [], false⟩

def round (h : Half) (cap : ℕ) (hasShutdown : Bool) (r : ReadResult) (w : WriteResult) :
    Half × List Effect × Outcome :=
  match h.fill cap r with
  | none => (h, [], .failed)
  | some p =>
    match p.half.drain w with
    | none => (p.half, p.effects, .failed)
    | some q =>
      let c := q.half.close hasShutdown
      (c.half, p.effects ++ (q.effects ++ c.effects),
        if p.progressed || q.progressed || c.progressed then .again else .stop)

/-- The callbacks return what their contracts permit. -/
def Allowed (h : Half) (cap : ℕ) (r : ReadResult) (w : WriteResult) : Prop :=
  r.Fits (cap - h.buf.length) ∧ ∀ p ∈ h.fill cap r, w.Within p.half.buf.length

instance (h : Half) (cap : ℕ) (r : ReadResult) (w : WriteResult) : Decidable (h.Allowed cap r w) :=
  inferInstanceAs (Decidable (_ ∧ _))

end Half

inductive PumpStatus
  | active
  | done
  | error
  deriving DecidableEq

inductive Phase
  | idle
  | ab
  | ba
  deriving DecidableEq

structure NornPump where
  bufsize : ℕ
  /-- Whether the endpoints have a shutdown callback. -/
  shutdownA : Bool
  shutdownB : Bool
  ab : Half
  ba : Half
  status : PumpStatus
  phase : Phase
  effectsAb : List Effect
  effectsBa : List Effect

namespace NornPump

def new (shutdownA shutdownB : Bool) (bufsize : ℕ) : NornPump where
  bufsize := if bufsize = 0 then nornPumpDefaultBuf else min bufsize nornPumpMaxBuf
  shutdownA := shutdownA
  shutdownB := shutdownB
  ab := Half.new
  ba := Half.new
  status := .active
  phase := .idle
  effectsAb := []
  effectsBa := []

inductive Event
  /-- The host calls `norn_pump_drive`. -/
  | drive
  /-- The loop goes round once, with what the callbacks return. -/
  | round (r : ReadResult) (w : WriteResult)

instance : Inhabited Event := ⟨.drive⟩

variable (p : NornPump)

def drive : NornPump := if p.status = .active then { p with phase := .ab } else p

def roundAb (r : ReadResult) (w : WriteResult) : NornPump :=
  let out := p.ab.round p.bufsize p.shutdownB r w
  let q := { p with ab := out.1, effectsAb := p.effectsAb ++ out.2.1 }
  match out.2.2 with
  | .failed => { q with status := .error, phase := .idle }
  | .again => q
  | .stop => { q with phase := .ba }

def roundBa (r : ReadResult) (w : WriteResult) : NornPump :=
  let out := p.ba.round p.bufsize p.shutdownA r w
  let q := { p with ba := out.1, effectsBa := p.effectsBa ++ out.2.1 }
  match out.2.2 with
  | .failed => { q with status := .error, phase := .idle }
  | .again => q
  | .stop =>
    { q with phase := .idle, status := if q.ab.halfDone && q.ba.halfDone then .done else q.status }

def step : Event → Option NornPump
  | .drive => if p.phase = .idle then some p.drive else none
  | .round r w =>
    match p.phase with
    | .idle => none
    | .ab => some (p.roundAb r w)
    | .ba => some (p.roundBa r w)

def allowedStep : Event → Option NornPump
  | .drive => p.step .drive
  | .round r w =>
    if (p.phase = .ab → p.ab.Allowed p.bufsize r w) ∧ (p.phase = .ba → p.ba.Allowed p.bufsize r w)
    then p.step (.round r w) else none

def system : System NornPump Event where
  init p := ∃ a b n, p = new a b n
  next p e p' := p.allowedStep e = some p'

end NornPump

/-- What was read is what was written and the buffer. -/
structure Half.Ok (h : Half) (cap : ℕ) (es : List Effect) : Prop where
  bytes : readIn es = writtenIn es ++ h.buf
  bound : h.buf.length ≤ cap
  forwarded : h.forwarded = (writtenIn es).length
  eof : h.srcEof = true → Effect.eof ∈ es
  shut : h.dstShut = true → h.srcEof = true ∧ h.buf = []
  once : es.count .shutdown ≤ 1
  open_ : h.dstShut = false → Effect.shutdown ∉ es
  last : ∀ {pre post : List Effect}, es = pre ++ .shutdown :: post →
    Effect.eof ∈ pre ∧ writtenIn pre = readIn pre

namespace Half
variable {h : Half} {cap : ℕ} {es : List Effect}

theorem ok_new (cap : ℕ) : Half.new.Ok cap [] where
  bytes := rfl
  bound := Nat.zero_le cap
  forwarded := rfl
  eof h := absurd h false_ne_true
  shut h := absurd h false_ne_true
  once := Nat.zero_le 1
  open_ _ := not_mem_nil
  last h := by simp at h

theorem last_append {fs : List Effect} (hfs : Effect.shutdown ∉ fs)
    (hlast : ∀ {pre post : List Effect}, es = pre ++ .shutdown :: post →
      Effect.eof ∈ pre ∧ writtenIn pre = readIn pre) {pre post : List Effect}
    (heq : es ++ fs = pre ++ .shutdown :: post) :
    Effect.eof ∈ pre ∧ writtenIn pre = readIn pre := by
  rcases append_eq_append_iff.mp heq with ⟨mid, _, hfs'⟩ | ⟨mid, hes, hmid⟩
  · exact absurd (show Effect.shutdown ∈ fs by simp [hfs']) hfs
  · cases mid with
    | nil =>
      rw [nil_append] at hmid
      exact absurd (hmid ▸ mem_cons_self) hfs
    | cons e mid =>
      rw [cons_append, cons.injEq] at hmid
      exact hlast (hmid.1 ▸ hes)

theorem Ok.extend (hok : h.Ok cap es) (hopen : h.dstShut = false) {h' : Half} {e : Effect}
    (he : e ≠ .shutdown) (hopen' : h'.dstShut = false)
    (hbytes : readIn (es ++ [e]) = writtenIn (es ++ [e]) ++ h'.buf)
    (hbound : h'.buf.length ≤ cap) (hforwarded : h'.forwarded = (writtenIn (es ++ [e])).length)
    (heof : h'.srcEof = true → Effect.eof ∈ es ++ [e]) : h'.Ok cap (es ++ [e]) where
  bytes := hbytes
  bound := hbound
  forwarded := hforwarded
  eof := heof
  shut hshut := absurd (hopen'.symm.trans hshut) false_ne_true
  once := by simpa [he] using hok.once
  open_ _ := by simpa [Ne.symm he] using hok.open_ hopen
  last := last_append (by simpa using Ne.symm he) hok.last

variable {r : ReadResult} {w : WriteResult}
section
variable (hok : h.Ok cap es)
include hok

theorem Ok.fill {p : Part} (hr : r.Fits (cap - h.buf.length)) (hp : h.fill cap r = some p) :
    p.half.Ok cap (es ++ p.effects) := by
  unfold Half.fill at hp
  split_ifs at hp with hreads
  swap
  · obtain rfl := some.inj hp
    rwa [append_nil]
  -- the source is read, so the destination is still open
  have hopen : h.dstShut = false := by
    by_contra hshut
    have hend := (hok.shut (eq_true_of_not_eq_false hshut)).1
    rw [hreads.1] at hend
    cases hend
  cases r with
  | error => cases hp
  | block =>
    obtain rfl := some.inj hp
    rwa [append_nil]
  | eof =>
    obtain rfl := some.inj hp
    refine hok.extend hopen (by simp) hopen ?_ hok.bound ?_ fun _ => by simp
    · simpa [readIn_concat, writtenIn_concat, Effect.bytesRead, Effect.bytesWritten] using hok.bytes
    · simpa [writtenIn_concat, Effect.bytesWritten] using hok.forwarded
  | data bs =>
    obtain rfl := some.inj hp
    refine hok.extend hopen (by simp) hopen ?_ ?_ ?_ fun heof =>
      mem_append_left _ (hok.eof heof)
    · rw [readIn_concat, writtenIn_concat, hok.bytes]
      simp [Effect.bytesRead, Effect.bytesWritten]
    · have hroom : bs.length ≤ cap - h.buf.length := hr.2
      have hlt := hreads.2
      rw [length_append]
      omega
    · simpa [writtenIn_concat, Effect.bytesWritten] using hok.forwarded

theorem Ok.drain {q : Part} (hw : w.Within h.buf.length) (hq : h.drain w = some q) :
    q.half.Ok cap (es ++ q.effects) := by
  unfold Half.drain at hq
  split_ifs at hq with hempty
  · obtain rfl := some.inj hq
    rwa [append_nil]
  have hopen : h.dstShut = false := by
    by_contra hshut
    exact hempty (hok.shut (eq_true_of_not_eq_false hshut)).2
  cases w with
  | error => cases hq
  | accepted n =>
    obtain rfl := some.inj hq
    have hn : n ≤ h.buf.length := hw
    refine hok.extend hopen (by simp) hopen ?_ ?_ ?_ fun heof =>
      mem_append_left _ (hok.eof heof)
    · rw [readIn_concat, writtenIn_concat, hok.bytes]
      simp [Effect.bytesRead, Effect.bytesWritten]
    · rw [length_drop]
      exact (Nat.sub_le _ _).trans hok.bound
    · rw [writtenIn_concat, length_append, ← hok.forwarded]
      simp [Effect.bytesWritten, hn]

theorem Ok.close (hasShutdown : Bool) :
    (h.close hasShutdown).half.Ok cap (es ++ (h.close hasShutdown).effects) := by
  unfold Half.close
  by_cases hclose : h.srcEof = true ∧ h.buf = [] ∧ h.dstShut = false
  swap
  · rw [if_neg hclose, append_nil]
    exact hok
  obtain ⟨heof, hbuf, hopen⟩ := hclose
  rw [if_pos ⟨heof, hbuf, hopen⟩]
  have hno := hok.open_ hopen
  have hwritten : writtenIn es = readIn es := by rw [hok.bytes, hbuf, append_nil]
  cases hasShutdown with
  | false =>
    simp only [false_eq_true, if_false, append_nil]
    exact ⟨hok.bytes, hok.bound, hok.forwarded, hok.eof, fun _ => ⟨heof, hbuf⟩, hok.once,
      fun hshut => absurd hshut true_eq_false_eq_False, hok.last⟩
  | true =>
    simp only [if_true]
    refine ⟨?_, hok.bound, ?_, fun _ => mem_append_left _ (hok.eof heof),
      fun _ => ⟨heof, hbuf⟩, ?_, fun hshut => ?_, fun {pre post} heq => ?_⟩
    · simpa [readIn_concat, writtenIn_concat, Effect.bytesRead, Effect.bytesWritten] using hok.bytes
    · simpa [writtenIn_concat, Effect.bytesWritten] using hok.forwarded
    · rw [count_append, count_eq_zero_of_not_mem hno]
      simp
    · cases hshut
    · -- the new call is the only one
      obtain ⟨rfl, _⟩ := (append_cons_inj_of_notMem hno not_mem_nil).mp heq
      exact ⟨hok.eof heof, hwritten⟩

theorem Ok.round (hasShutdown : Bool) (hallow : h.Allowed cap r w) :
    (h.round cap hasShutdown r w).1.Ok cap (es ++ (h.round cap hasShutdown r w).2.1) := by
  unfold Half.round
  cases hp : h.fill cap r with
  | none => rwa [append_nil]
  | some p =>
    have hfill := hok.fill hallow.1 hp
    cases hq : p.half.drain w with
    | none =>
      simp only [hq]
      exact hfill
    | some q =>
      have hclose := (hfill.drain (hallow.2 p hp) hq).close hasShutdown
      rw [append_assoc, append_assoc] at hclose
      simp only [hq]
      exact hclose

theorem Ok.done (hdone : h.halfDone = true) : Effect.eof ∈ es ∧ writtenIn es = readIn es := by
  simp only [halfDone, Bool.and_eq_true, List.isEmpty_iff] at hdone
  refine ⟨hok.eof hdone.1.1, ?_⟩
  rw [hok.bytes, hdone.1.2, append_nil]

end
end Half

namespace NornPump

structure Ok (p : NornPump) : Prop where
  ab : p.ab.Ok p.bufsize p.effectsAb
  ba : p.ba.Ok p.bufsize p.effectsBa
  /-- A finished pump is idle. -/
  idle : p.status ≠ .active → p.phase = .idle
  done : p.status = .done → p.ab.halfDone = true ∧ p.ba.halfDone = true

theorem ok_new (a b : Bool) (n : ℕ) : (new a b n).Ok where
  ab := Half.ok_new _
  ba := Half.ok_new _
  idle _ := rfl
  done h := by cases h

section
variable {p p' : NornPump}

theorem Ok.active (h : p.Ok) (hphase : p.phase ≠ .idle) : p.status = .active := by
  by_contra hne
  exact hphase (h.idle hne)

variable {r : ReadResult} {w : WriteResult}

theorem Ok.roundAb (h : p.Ok) (hphase : p.phase = .ab) (hallow : p.ab.Allowed p.bufsize r w) :
    (p.roundAb r w).Ok := by
  have hactive := h.active (by rw [hphase]; decide)
  have hab := h.ab.round p.shutdownB hallow
  unfold NornPump.roundAb
  generalize p.ab.round p.bufsize p.shutdownB r w = out at hab
  obtain ⟨half, effects, outcome⟩ := out
  cases outcome with
  | failed => exact ⟨hab, h.ba, fun _ => rfl, fun hdone => by cases hdone⟩
  | again | stop =>
    exact ⟨hab, h.ba, fun hne => absurd hactive hne,
      fun hdone => by cases hactive.symm.trans hdone⟩

theorem Ok.roundBa (h : p.Ok) (hphase : p.phase = .ba) (hallow : p.ba.Allowed p.bufsize r w) :
    (p.roundBa r w).Ok := by
  have hactive := h.active (by rw [hphase]; decide)
  have hba := h.ba.round p.shutdownA hallow
  unfold NornPump.roundBa
  generalize p.ba.round p.bufsize p.shutdownA r w = out at hba
  obtain ⟨half, effects, outcome⟩ := out
  cases outcome with
  | failed => exact ⟨h.ab, hba, fun _ => rfl, fun hdone => by cases hdone⟩
  | again =>
    exact ⟨h.ab, hba, fun hne => absurd hactive hne,
      fun hdone => by cases hactive.symm.trans hdone⟩
  | stop =>
    refine ⟨h.ab, hba, fun _ => rfl, fun hdone => ?_⟩
    change (if p.ab.halfDone && half.halfDone then PumpStatus.done else p.status) = _ at hdone
    split_ifs at hdone with hboth
    · exact and_eq_true_iff.mp hboth
    · cases hactive.symm.trans hdone

theorem Ok.drive (h : p.Ok) : p.drive.Ok := by
  unfold NornPump.drive
  split_ifs with hactive
  · exact ⟨h.ab, h.ba, fun hne => absurd hactive hne, h.done⟩
  · exact h

theorem Ok.step (h : p.Ok) {e : Event} (hs : p.allowedStep e = some p') : p'.Ok := by
  cases e with
  | drive =>
    change (if p.phase = .idle then some p.drive else none) = some p' at hs
    split_ifs at hs
    exact some.inj hs ▸ h.drive
  | round r w =>
    simp only [NornPump.allowedStep] at hs
    split_ifs at hs with hallow
    simp only [NornPump.step] at hs
    cases hphase : p.phase with
    | idle =>
      rw [hphase] at hs
      cases hs
    | ab =>
      rw [hphase] at hs
      exact some.inj hs ▸ h.roundAb hphase (hallow.1 hphase)
    | ba =>
      rw [hphase] at hs
      exact some.inj hs ▸ h.roundBa hphase (hallow.2 hphase)

end

theorem ok_of_run (run : Run system) : ∀ k ≤ run.len, (run.state k).Ok := by
  refine run.invariant ?_ fun k hk hok => hok.step (run.steps k hk)
  rintro p ⟨a, b, n, rfl⟩
  exact ok_new a b n

end NornPump

/-- Nothing is lost, repeated or reordered, and the destination is closed once at most, behind the
last byte. -/
structure Conserves (cap : ℕ) (h : Half) (es : List Effect) : Prop where
  written : writtenIn es <+: readIn es
  bound : h.buf.length ≤ cap
  once : es.count .shutdown ≤ 1
  last : ∀ pre post, es = pre ++ .shutdown :: post → Effect.eof ∈ pre ∧ writtenIn pre = readIn pre

theorem Half.Ok.conserves {h : Half} {cap : ℕ} {es : List Effect} (hok : h.Ok cap es) :
    Conserves cap h es where
  written := hok.bytes ▸ prefix_append _ _
  bound := hok.bound
  once := hok.once
  last _ _ := hok.last

namespace NornPump

/-- Both directions conserve their bytes, and a pump that is done has written all it has read. -/
theorem pump_conserves (run : Run system) (k : ℕ) (hk : k ≤ run.len) :
    Conserves (run.state k).bufsize (run.state k).ab (run.state k).effectsAb ∧
    Conserves (run.state k).bufsize (run.state k).ba (run.state k).effectsBa ∧
    ((run.state k).status = .done →
      writtenIn (run.state k).effectsAb = readIn (run.state k).effectsAb ∧
      writtenIn (run.state k).effectsBa = readIn (run.state k).effectsBa) := by
  have hok := ok_of_run run k hk
  refine ⟨hok.ab.conserves, hok.ba.conserves, fun hdone => ?_⟩
  obtain ⟨hab, hba⟩ := hok.done hdone
  exact ⟨(hok.ab.done hab).2, (hok.ba.done hba).2⟩

def threeBytes : List Event :=
  [.drive, .round (.data [1, 2]) (.accepted 1), .round (.data [3]) (.accepted 2),
    .round .eof (.accepted 0), .round .block (.accepted 0), .round .eof (.accepted 0),
    .round .block (.accepted 0)]

def threeBytesRun : Run system :=
  Run.ofEvents (fun _ _ _ hs => hs) (new true true 2) ⟨true, true, 2, rfl⟩ threeBytes (by decide)

theorem threeBytesRun_conserves : (threeBytesRun.state 7).status = .done ∧
    (threeBytesRun.state 7).effectsAb =
      [.read [1, 2], .wrote [1], .read [3], .wrote [2, 3], .eof, .shutdown] ∧
    writtenIn (threeBytesRun.state 7).effectsAb = readIn (threeBytesRun.state 7).effectsAb := by
  have hdone : (threeBytesRun.state 7).status = .done := by decide
  exact ⟨hdone, by decide, ((pump_conserves threeBytesRun 7 (by decide)).2.2 hdone).1⟩

end NornPump
end Forward
end Norn
