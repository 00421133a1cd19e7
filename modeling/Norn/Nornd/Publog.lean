import Norn.Kv.Dispatch
import Norn.Nornd.PersistFormat

/-!
# What stands in the publish log

Records come from three requests on the daemon's socket (`nornd/main.c`) and from the saved file.
-/

namespace Norn
open List

def pubqueueMaxVal : ℕ := 1000

def packetNameLen (val : Bytes) : ℕ := (val.getD 9 0).toNat

section
variable (C : DhtCrypto) (pubkey : Bytes) (now : ℤ) (room : Bool)

def pubqueueTakes (value : Bytes) : Bool := value.length ≤ pubqueueMaxVal ∧ room

def serveBep44Set (req : IpcReq) : IpcResp × Option EntryArgs :=
  match req.val with
  | none => (.fail "missing name or value", none)
  | some value =>
    if req.key.length = 0 then (.fail "missing name or value", none)
    else
      let name := req.key.take 127
      let seq := (now % 2 ^ 32).toNat
      if pubqueueTakes room value then
        let target := bep44TargetSalted C pubkey name
        (.okVal target, some (target, false, name, some value, value.length, seq))
      else (.fail "publish queue full", none)

def serveBep44Put (req : IpcReq) : IpcResp × Option EntryArgs :=
  match req.val with
  | none => (.fail "missing value", none)
  | some value =>
    if pubqueueTakes room value then
      let target := (bep44ImmutableTarget C value).getD []
      (.okVal target, some (target, true, [], some value, value.length, 0))
    else (.fail "publish queue full", none)

def servePublogAdd (req : IpcReq) : IpcResp × Option EntryArgs :=
  match req.val with
  | none => (.fail "bad publog request", none)
  | some val =>
    if req.key.length ≠ 20 ∨ val.length < 10 then (.fail "bad publog request", none)
    else
      let immutable := val.getD 0 0 ≠ 0
      let seq := fromLittleEndian ((val.drop 5).take 4)
      let nl := packetNameLen val
      let value := val.drop (10 + nl)
      let valLen := (val.length + 2 ^ 64 - (10 + nl)) % 2 ^ 64
      let name := if nl < 128 then (val.drop 10).take nl else []
      (.okEmpty, some (req.key, immutable, name, some value, valLen, seq))

def servePublish (req : IpcReq) : Option IpcResp × Option EntryArgs :=
  if req.op = "bep44-set" then (serveBep44Set C pubkey now room req).map some id
  else if req.op = "bep44-put" then (serveBep44Put C room req).map some id
  else if req.op = "publog-add" then (servePublogAdd req).map some id
  else (none, none)

end

structure Publication where
  target : Bytes
  name : Bytes
  value : Bytes

def IpcReq.given (req : IpcReq) : Bytes × Bytes :=
  let val := req.val.getD []
  if req.op = "bep44-set" then (req.key, val)
  else if req.op = "publog-add" then
    ((val.drop 10).take (packetNameLen val), val.drop (10 + packetNameLen val))
  else ([], val)

def FileEntry.publication (e : FileEntry) : Publication := ⟨e.target, e.name, e.value⟩

def declaredEntry (file : Bytes) : Option (Publication × Bytes) := do
  let (target, file) ← fread 20 file
  let (_, file) ← freadNat 1 file
  let (vl, file) ← freadNat 4 file
  let (_, file) ← freadNat 4 file
  let (_, file) ← fread 8 file
  let (nl, file) ← freadNat 1 file
  let (name, file) ← fread nl file
  let (value, file) ← fread vl file
  some (⟨target, name, value⟩, file)

def filePublications (file : Bytes) : List Publication :=
  (fileHeader file).elim [] fun out => (readAll declaredEntry out.1 out.2).1

structure PublishLog where
  entries : List PublogEntry
  given : List Publication

inductive PublishEvent
  | request (now : ℤ) (room : Bool) (req : IpcReq)
  | load (now : ℤ) (file : Bytes) (s : DhtStore)

instance : Inhabited PublishEvent := ⟨.load 0 [] (dhtstoreInit 0)⟩

namespace PublishLog
variable (C : DhtCrypto) (pubkey : Bytes)

def step (log : PublishLog) : PublishEvent → PublishLog
  | .request now room req =>
    match (servePublish C pubkey now room req).2 with
    | none => log
    | some args =>
      ⟨addEntry now log.entries args, ⟨args.1, req.given.1, req.given.2⟩ :: log.given⟩
  | .load now file s =>
    ⟨(dhtPersistLoad C now file log.entries s).2.1, (filePublications file).reverse ++ log.given⟩

def events : System PublishLog PublishEvent where
  init log := log = ⟨[], []⟩
  next log e log' := log' = log.step C pubkey e

/-- Every entry has the name and the value that were published last. -/
def AsGiven (log : PublishLog) : Prop :=
  ∀ e ∈ log.entries, e.vlen ≤ publogMaxVal ∧
    ∃ pub, (log.given.find? fun pub => pub.target = e.target) = some pub ∧
      e.name = pub.name ∧ e.value = pub.value

end PublishLog

structure EntryArgs.Stores (args : EntryArgs) (pub : Publication) : Prop where
  target : args.1 = pub.target
  name : (cString args.2.2.1).take 127 = pub.name
  vlen_le : args.2.2.2.2.1 ≤ publogMaxVal
  value : ∀ buf : Bytes, (PublogEntry.fillBuf args.2.2.2.1 args.2.2.2.2.1 buf).take
    args.2.2.2.2.1 = pub.value

variable {now : ℤ} {p : List PublogEntry} {args : EntryArgs} {value file : Bytes} {e : FileEntry}
namespace PublishLog

structure Traced (log : PublishLog) : Prop where
  nodup : (log.entries.map PublogEntry.target).Nodup
  asGiven : log.AsGiven

variable {log : PublishLog}

theorem Traced.add (h : log.Traced) (now : ℤ) {pub : Publication} (hargs : args.Stores pub) :
    Traced ⟨addEntry now log.entries args, pub :: log.given⟩ := by
  refine ⟨nodup_publogAdd h.nodup, ?_⟩
  intro e he
  rcases mem_publogAdd h.nodup he with ⟨buf, -, rfl⟩ | ⟨hmem, hne⟩
  · refine ⟨hargs.vlen_le, pub, ?_, hargs.name, hargs.value buf⟩
    exact find?_cons_of_pos (decide_eq_true hargs.target.symm)
  · obtain ⟨hvlen, given, hfind, hname, hvalue⟩ := h.asGiven e hmem
    refine ⟨hvlen, given, ?_, hname, hvalue⟩
    rw [find?_cons_of_neg]
    · exact hfind
    · rw [decide_eq_true_eq, ← hargs.target]
      exact hne.symm

theorem Traced.addAll (now : ℤ) {xs : List (EntryArgs × Publication)}
    (hxs : ∀ x ∈ xs, x.1.Stores x.2) (h : log.Traced) :
    Traced ⟨(xs.map Prod.fst).foldl (addEntry now) log.entries,
      (xs.map Prod.snd).reverse ++ log.given⟩ := by
  induction xs generalizing log with
  | nil => exact h
  | cons x xs ih =>
    obtain ⟨hx, hxs⟩ := forall_mem_cons.mp hxs
    rw [map_cons, map_cons, foldl_cons, reverse_cons, append_assoc]
    exact ih hxs (h.add now hx)

end PublishLog

def PlainName (name : Bytes) : Prop := name.length ≤ 127 ∧ 0 ∉ name

theorem PlainName.kept {name : Bytes} (h : PlainName name) : (cString name).take 127 = name := by
  have hwhole : cString name = name := by
    rw [cString, takeWhile_eq_self_iff]
    intro b hb
    apply decide_eq_true
    rintro rfl
    exact h.2 hb
  rw [hwhole, take_of_length_le h.1]

theorem take_fillBuf {vlen : ℕ} (hlen : value.length = vlen) (hle : vlen ≤ publogMaxVal)
    (buf : Bytes) : (PublogEntry.fillBuf (some value) vlen buf).take vlen = value := by
  unfold PublogEntry.fillBuf
  dsimp only
  rw [if_pos hle, ← hlen, take_length, take_left]

/-- The name fits the log, and a packet of `publog-add` is as long as it says. -/
structure IpcReq.Plain (req : IpcReq) : Prop where
  set : req.op = "bep44-set" → PlainName req.key
  add : req.op = "publog-add" → ∀ val ∈ req.val, 10 + packetNameLen val ≤ val.length ∧
    val.length ≤ 10 + packetNameLen val + publogMaxVal ∧
    packetNameLen val ≤ 127 ∧ 0 ∉ (val.drop 10).take (packetNameLen val)

/-- The entries that the loader may find in the file fit the log. -/
structure PlainFile (file : Bytes) : Prop where
  names : ¬ DeclaresLongName file
  entries : ∀ (count : ℕ) (es : List FileEntry) (rest : Bytes), count < 256 ^ 4 →
    es.length ≤ count → (∀ e ∈ es, e.Loose) →
    file = littleEndian 4 dhtPersistMagic ++ (littleEndian 4 dhtPersistVersion ++
      (littleEndian 4 count ++ (es.flatMap FileEntry.bytes ++ rest))) →
    ∀ e ∈ es, PlainName e.name ∧ e.vl ≤ publogMaxVal

def PublishEvent.Plain : PublishEvent → Prop
  | .request _ _ req => req.Plain
  | .load _ file _ => PlainFile file

section
variable {C : DhtCrypto} {pubkey : Bytes} {now : ℤ} {room : Bool} {req : IpcReq} {args : EntryArgs}

theorem pubqueueTakes_le (h : pubqueueTakes room value = true) : value.length ≤ publogMaxVal :=
  (of_decide_eq_true h).1.trans (by decide)

theorem serveBep44Set_stores (hname : PlainName req.key)
    (h : (serveBep44Set C pubkey now room req).2 = some args) :
    args.Stores ⟨args.1, req.key, req.val.getD []⟩ := by
  unfold serveBep44Set at h
  cases hval : req.val with
  | none =>
    rw [hval] at h
    cases h
  | some value =>
    rw [hval] at h
    dsimp only at h
    split_ifs at h with hkey htakes
    cases h
    refine ⟨rfl, ?_, pubqueueTakes_le htakes, take_fillBuf rfl (pubqueueTakes_le htakes)⟩
    rw [take_of_length_le hname.1]
    exact hname.kept

theorem serveBep44Put_stores (h : (serveBep44Put C room req).2 = some args) :
    args.Stores ⟨args.1, [], req.val.getD []⟩ := by
  unfold serveBep44Put at h
  cases hval : req.val with
  | none =>
    rw [hval] at h
    cases h
  | some value =>
    rw [hval] at h
    dsimp only at h
    split_ifs at h with htakes
    cases h
    exact ⟨rfl, rfl, pubqueueTakes_le htakes, take_fillBuf rfl (pubqueueTakes_le htakes)⟩

theorem servePublogAdd_stores (hplain : ∀ val ∈ req.val, 10 + packetNameLen val ≤ val.length ∧
      val.length ≤ 10 + packetNameLen val + publogMaxVal ∧
      packetNameLen val ≤ 127 ∧ 0 ∉ (val.drop 10).take (packetNameLen val))
    (h : (servePublogAdd req).2 = some args) :
    args.Stores ⟨args.1, ((req.val.getD []).drop 10).take (packetNameLen (req.val.getD [])),
      (req.val.getD []).drop (10 + packetNameLen (req.val.getD []))⟩ := by
  unfold servePublogAdd at h
  cases hval : req.val with
  | none =>
    rw [hval] at h
    cases h
  | some val =>
    obtain ⟨hlen, hle, hnl, hnul⟩ := hplain val hval
    rw [hval] at h
    dsimp only at h
    by_cases hkey : req.key.length ≠ 20 ∨ val.length < 10
    · rw [if_pos hkey] at h
      cases h
    · have hsub : (val.length + 2 ^ 64 - (10 + packetNameLen val)) % 2 ^ 64 =
          val.length - (10 + packetNameLen val) := by
        unfold publogMaxVal at hle
        omega
      have hfits : val.length - (10 + packetNameLen val) ≤ publogMaxVal := by omega
      rw [if_neg hkey, if_pos (Nat.lt_succ_of_le hnl), hsub] at h
      cases h
      have hname : PlainName ((val.drop 10).take (packetNameLen val)) :=
        ⟨(length_take_le _ _).trans hnl, hnul⟩
      exact ⟨rfl, hname.kept, hfits, take_fillBuf length_drop hfits⟩

theorem servePublish_stores (hplain : req.Plain)
    (h : (servePublish C pubkey now room req).2 = some args) :
    args.Stores ⟨args.1, req.given.1, req.given.2⟩ := by
  unfold servePublish at h
  unfold IpcReq.given
  split_ifs at h with hset hput hadd
  · rw [if_pos hset]
    exact serveBep44Set_stores (hplain.set hset) h
  · rw [if_neg hset, if_neg (by rw [hput]; decide)]
    exact serveBep44Put_stores h
  · rw [if_neg hset, if_pos hadd]
    exact servePublogAdd_stores (hplain.add hadd) h

end

theorem declaredEntry_bytes (he : e.Loose) (hvl : e.vl ≤ publogMaxVal) (rest : Bytes) :
    declaredEntry (e.bytes ++ rest) = some (e.publication, rest) := by
  obtain ⟨hsized, hvalue⟩ := he
  rw [if_pos hvl] at hvalue
  simp only [declaredEntry, FileEntry.bytes, append_assoc, fread_append hsized.length_target,
    freadNat_append hsized.imm_lt, freadNat_append hsized.vl_lt, freadNat_append hsized.seq_lt,
    fread_append hsized.length_published, freadNat_append hsized.length_name,
    fread_append (rfl : e.name.length = _), fread_append hvalue, Option.bind_eq_bind,
    Option.bind_some]
  rfl

theorem declaredEntry_none (h : readEntry file = none) : declaredEntry file = none := by
  rw [Option.eq_none_iff_forall_not_mem]
  rintro ⟨pub, rest⟩ hdeclared
  rw [Option.mem_def] at hdeclared
  simp only [declaredEntry, Option.bind_eq_bind, Option.bind_eq_some_iff, Prod.exists,
    fread_eq_some_iff, freadNat_eq_some_iff, Option.some.injEq, Prod.mk.injEq] at hdeclared
  obtain ⟨target, _, ⟨htarget, rfl⟩, imm, _, ⟨himm, rfl⟩, vl, _, ⟨hvl, rfl⟩, seq, _, ⟨hseq, rfl⟩,
    published, _, ⟨hpublished, rfl⟩, nl, _, ⟨hnl, rfl⟩, name, _, ⟨rfl, rfl⟩, value, tail,
    ⟨hvalue, rfl⟩, -⟩ := hdeclared
  -- the loader takes this entry, with or without the value
  have htaken : ∃ taken left : Bytes, value ++ tail = taken ++ left ∧
      taken.length = if vl ≤ publogMaxVal then vl else 0 := by
    split_ifs
    · exact ⟨value, tail, rfl, hvalue⟩
    · exact ⟨[], value ++ tail, rfl, rfl⟩
  obtain ⟨taken, left, hsplit, htaken⟩ := htaken
  have hsome := (@readEntry_eq_some_iff _ left _).mpr
    ⟨⟨target, imm, vl, seq, published, name, taken⟩,
      ⟨⟨htarget, himm, hvl, hseq, hpublished, hnl⟩, htaken⟩, rfl, rfl⟩
  simp only [FileEntry.bytes, append_assoc, ← hsplit] at hsome
  rw [h] at hsome
  cases hsome

theorem loaderReads_fst (file : Bytes) : (loaderReads file).1 =
      (fileHeader file).elim [] fun out => (readAll readEntry out.1 out.2).1 := by
  rw [loaderReads]
  cases fileHeader file with
  | none => rfl
  | some out =>
    dsimp only [Option.elim]
    rcases readAll readEntry out.1 out.2 with ⟨es, _ | file⟩
    · rfl
    · dsimp only
      cases freadNat 4 file <;> rfl

theorem FileEntry.args_stores (he : e.Loose) (hname : PlainName e.name)
    (hvl : e.vl ≤ publogMaxVal) : e.args.Stores e.publication := by
  have hlen := he.2
  rw [if_pos hvl] at hlen
  refine ⟨rfl, hname.kept, hvl, ?_⟩
  intro buf
  by_cases hzero : e.vl = 0
  · rw [args, publication]
    dsimp only
    rw [hzero, take_zero, eq_nil_of_length_eq_zero (hlen.trans hzero)]
  · rw [args, publication]
    dsimp only
    rw [if_neg hzero]
    exact take_fillBuf hlen hvl buf

theorem PlainFile.exists_entries (h : PlainFile file) :
    ∃ es : List FileEntry, (loaderReads file).1 = es.map FileEntry.args ∧
      filePublications file = es.map FileEntry.publication ∧
      ∀ e ∈ es, e.args.Stores e.publication := by
  rw [loaderReads_fst, filePublications]
  cases hheader : fileHeader file with
  | none => exact ⟨[], rfl, rfl, forall_mem_nil _⟩
  | some out =>
    obtain ⟨count, entries⟩ := out
    obtain ⟨hcount, hfile⟩ := fileHeader_eq_some_iff.mp hheader
    obtain ⟨es, rest, hlen, hes, rfl, hfst, hend⟩ := exists_readAll_fst
      (fun file x rest => @readEntry_eq_some_iff file rest x) count entries
    have hplain := h.entries count es rest hcount hlen hes hfile
    have hdeclared : ∀ e ∈ es, ∀ rest,
        declaredEntry (e.bytes ++ rest) = some (e.publication, rest) :=
      fun e he => declaredEntry_bytes (hes e he) (hplain e he).2
    have hnone : (readAll declaredEntry (count - es.length) rest).1 = [] := by
      rcases hend with hall | hend
      · rw [hall, Nat.sub_self]
        rfl
      · cases count - es.length with
        | zero => rfl
        | succ n =>
          rw [readAll, declaredEntry_none hend]
    refine ⟨es, hfst, ?_, ?_⟩
    · exact (readAll_flatMap hlen hdeclared rest).trans (by rw [hnone, append_nil])
    · intro e he
      exact FileEntry.args_stores (hes e he) (hplain e he).1 (hplain e he).2

namespace PublishLog
variable {C : DhtCrypto} {pubkey : Bytes}

theorem Traced.step {log : PublishLog} (h : log.Traced) {e : PublishEvent} (he : e.Plain) :
    (log.step C pubkey e).Traced := by
  cases e with
  | request now room req =>
    unfold PublishLog.step
    dsimp only
    cases hargs : (servePublish C pubkey now room req).2 with
    | none => exact h
    | some args => exact h.add now (servePublish_stores he hargs)
  | load now file s =>
    obtain ⟨es, hargs, hpubs, hstores⟩ := PlainFile.exists_entries he
    have hxs : ∀ x ∈ es.map fun e => (e.args, e.publication), x.1.Stores x.2 :=
      forall_mem_map.mpr hstores
    have hall := h.addAll now hxs
    rw [map_map, map_map] at hall
    unfold PublishLog.step
    dsimp only
    rw [dhtPersistLoad_eq, hargs, hpubs]
    exact hall

/-- Plain requests and files leave the log as given. -/
theorem asGiven_of_plain (run : Run (events C pubkey))
    (hplain : ∀ k < run.len, (run.event k).Plain) : ∀ k ≤ run.len, (run.state k).AsGiven := by
  have htraced : ∀ k ≤ run.len, (run.state k).Traced := by
    refine run.invariant ?_ ?_
    · rintro log rfl
      exact ⟨nodup_nil, forall_mem_nil _⟩
    · intro k hk ih
      rw [run.steps k hk]
      exact ih.step (hplain k hk)
  intro k hk
  exact (htraced k hk).asGiven

def letterSet : Run (events toyCrypto []) :=
  Run.ofTotal (step toyCrypto []) (fun _ _ => rfl) ⟨[], []⟩ rfl
    [.request 0 true ⟨"bep44-set", [97], some [98], none⟩,
      .load 0 (fileContents [] []) (dhtstoreInit 0)]

theorem plainFile_empty : PlainFile (fileContents [] []) := by
  have hcount : ∀ count rest, count < 256 ^ 4 →
      fileContents [] [] = littleEndian 4 dhtPersistMagic ++ (littleEndian 4 dhtPersistVersion ++
        (littleEndian 4 count ++ rest)) → count = 0 := by
    intro count rest hlt hfile
    have hheader := fileHeader_eq_some_iff.mpr ⟨hlt, hfile⟩
    have hzero : fileHeader (fileContents [] []) = some (0, [0, 0, 0, 0]) := by decide +kernel
    exact (Prod.mk.inj (Option.some.inj (hheader.symm.trans hzero))).1
  refine ⟨?_, ?_⟩
  · rintro ⟨count, entries, es, header, tail, nl, hlt, hfile, hlong⟩
    exact absurd (hcount count entries hlt hfile ▸ hlong.length_lt) (Nat.not_lt_zero _)
  · intro count es rest hlt hlen _ hfile e he
    rw [hcount count _ hlt hfile, Nat.le_zero, length_eq_zero_iff] at hlen
    rw [hlen] at he
    cases he

theorem letterSet_asGiven :
    (letterSet.state 2).entries.map PublogEntry.name = [[97]] ∧ (letterSet.state 2).AsGiven := by
  refine ⟨by decide +kernel, asGiven_of_plain letterSet ?_ 2 le_rfl⟩
  intro k hk
  match k, hk with
  | 0, _ => exact ⟨fun _ => ⟨by decide, by decide⟩, fun h => absurd h (by decide)⟩
  | 1, _ => exact plainFile_empty

def shortPacket : Run (events toyCrypto []) :=
  Run.ofTotal (step toyCrypto []) (fun _ _ => rfl) ⟨[], []⟩ rfl
    [.request 0 true ⟨"publog-add", .replicate 20 7, some [0, 0, 0, 0, 0, 0, 0, 0, 0, 1], none⟩]

theorem shortPacket_vlen :
    (shortPacket.state 1).entries.map PublogEntry.vlen = [2 ^ 64 - 1] ∧
      ¬ (shortPacket.state 1).AsGiven := by
  have hvlen : (shortPacket.state 1).entries.map PublogEntry.vlen = [2 ^ 64 - 1] := by
    decide +kernel
  refine ⟨hvlen, ?_⟩
  intro h
  have hmem : 2 ^ 64 - 1 ∈ (shortPacket.state 1).entries.map PublogEntry.vlen :=
    hvlen ▸ mem_singleton_self _
  obtain ⟨e, he, hlen⟩ := mem_map.mp hmem
  have hle := (h e he).1
  rw [hlen] at hle
  exact absurd hle (by decide)

end PublishLog
end Norn
