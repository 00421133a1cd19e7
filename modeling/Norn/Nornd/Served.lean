import Norn.Kv.Dispatch

/-!
# Serving one stream

The codec of `served_proto.c`, the handler of `served.c` and the driver of `served_conn.c`.
-/

namespace Norn
open List

def norndServedMaxArg : ℕ := 256
def norndServedMaxErr : ℕ := 256

def newline : UInt8 := 10
def carriageReturn : UInt8 := 13
def space : UInt8 := 32

inductive ServedVerb
  | get | cat | list
  deriving DecidableEq

def verbName : ServedVerb → Bytes
  | .get => text ['G', 'E', 'T']
  | .cat => text ['C', 'A', 'T']
  | .list => text ['L', 'I', 'S', 'T']

structure ServedReq where
  verb : ServedVerb
  arg : Bytes
  deriving DecidableEq

def norndServedEncodeReq (verb : ServedVerb) (arg : Bytes) (cap : ℕ) : Option Bytes :=
  if norndServedMaxArg < arg.length then none
  else if arg.length = 0 ∧ verb ≠ .list then none
  else
    let line := if arg.length = 0 then verbName verb ++ [newline]
      else verbName verb ++ [space] ++ arg ++ [newline]
    if line.length < cap then some line else none

def trimLine (line : Bytes) : Bytes :=
  let line := if line.getLast? = some newline then line.dropLast else line
  if line.getLast? = some carriageReturn then line.dropLast else line

def norndServedParseReq (line : Bytes) : Option ServedReq :=
  let line := trimLine line
  let name := line.takeWhile fun b => b != space
  let arg := line.drop (name.length + 1)
  let verb := if name = verbName .get then some ServedVerb.get
    else if name = verbName .cat then some .cat
    else if name = verbName .list then some .list
    else none
  match verb with
  | none => none
  | some verb =>
    if norndServedMaxArg < arg.length then none
    else if arg.length = 0 ∧ verb ≠ .list then none
    else some ⟨verb, arg⟩

def norndServedEncodeStatus (ok : Bool) (len : ℕ) (err : Bytes) (cap : ℕ) : Option Bytes :=
  let line := if ok then text ['O', 'K', ' '] ++ decimal len ++ [newline]
    else text ['E', 'R', 'R', ' '] ++ err ++ [newline]
  if line.length < cap then some line else none

inductive ServedStatus
  | ok (len : ℕ)
  | err (msg : Bytes)

def parseLength : Bytes → ℕ → Option ℕ
  | [], v => some v
  | b :: bs, v => if isDigit b then parseLength bs ((v * 10 + digitValue b) % 2 ^ 64) else none

def norndServedParseStatus (line : Bytes) (errcap : ℕ) : Option ServedStatus :=
  let line := trimLine line
  if 3 ≤ line.length ∧ line.take 3 = text ['O', 'K', ' '] then
    if line.length ≤ 3 then none else (parseLength (line.drop 3) 0).map .ok
  else if 4 ≤ line.length ∧ line.take 4 = text ['E', 'R', 'R', ' '] then
    some (.err ((line.drop 4).take (errcap - 1)))
  else none

theorem parseLength_digits {bs : Bytes} (hdigits : ∀ b ∈ bs, isDigit b = true) (v : ℕ) :
    parseLength bs (v % 2 ^ 64) =
      some (bs.foldl (fun v b => v * 10 + digitValue b) v % 2 ^ 64) := by
  induction bs generalizing v with
  | nil => rfl
  | cons b bs ih =>
    rw [parseLength, if_pos (hdigits b mem_cons_self)]
    have hmod : (v % 2 ^ 64 * 10 + digitValue b) % 2 ^ 64 = (v * 10 + digitValue b) % 2 ^ 64 := by
      omega
    rw [hmod, ih fun b hb => hdigits b (mem_cons_of_mem _ hb)]
    rfl

theorem isDigit_of_parseLength {bs : Bytes} {v x : ℕ} (h : parseLength bs v = some x) :
    ∀ b ∈ bs, isDigit b = true := by
  induction bs generalizing v with
  | nil => exact forall_mem_nil _
  | cons b bs ih =>
    rw [parseLength] at h
    split_ifs at h with hdigit
    exact forall_mem_cons.mpr ⟨hdigit, ih h⟩

/-- The line says `OK` and a number, of any size. -/
def SaysLength (line digits : Bytes) : Prop :=
  trimLine line = text ['O', 'K', ' '] ++ digits ∧ digits ≠ [] ∧ ∀ b ∈ digits, isDigit b = true

theorem parseStatus_ok_iff (line : Bytes) (errcap len : ℕ) :
    norndServedParseStatus line errcap = some (.ok len) ↔
      ∃ digits, SaysLength line digits ∧ len = decimalValue digits % 2 ^ 64 := by
  have hvalue : ∀ digits : Bytes, (∀ b ∈ digits, isDigit b = true) →
      parseLength digits 0 = some (decimalValue digits % 2 ^ 64) := fun digits hdigits =>
    parseLength_digits hdigits 0
  rw [norndServedParseStatus]
  constructor
  · intro h
    split_ifs at h with hok hshort herr
    · obtain ⟨x, hx, hlen⟩ := Option.map_eq_some_iff.mp h
      cases hlen
      have hdigits := isDigit_of_parseLength hx
      rw [hvalue _ hdigits] at hx
      refine ⟨(trimLine line).drop 3, ⟨?_, ?_, hdigits⟩, (Option.some.inj hx).symm⟩
      · rw [← hok.2, take_append_drop]
      · intro hnil
        exact hshort (drop_eq_nil_iff.mp hnil)
    · cases h
  · rintro ⟨digits, ⟨hline, hne, hdigits⟩, rfl⟩
    have hpos := length_pos_iff.mpr hne
    have hlen : (text ['O', 'K', ' '] ++ digits).length = 3 + digits.length := length_append
    rw [hline, if_pos ⟨by omega, take_left' rfl⟩, if_neg (by omega),
      show (text ['O', 'K', ' '] ++ digits).drop 3 = digits from drop_left' rfl,
      hvalue digits hdigits]
    rfl

def okLine (n : ℕ) : Bytes := text ['O', 'K', ' '] ++ decimal n ++ [newline]

theorem trimLine_okLine (n : ℕ) : trimLine (okLine n) = text ['O', 'K', ' '] ++ decimal n := by
  have hlast : (text ['O', 'K', ' '] ++ decimal n).getLast? ≠ some carriageReturn := by
    intro h
    have hmem : carriageReturn ∈ decimal n := by
      rw [getLast?_append_of_ne_nil _ (decimal_ne_nil n)] at h
      exact mem_of_getLast? h
    exact absurd (isDigit_of_mem_decimal n _ hmem) (by decide)
  rw [trimLine, okLine, getLast?_concat, if_pos rfl, dropLast_concat, if_neg hlast]

theorem parseStatus_okLine {n : ℕ} (h : n < 2 ^ 64) (errcap : ℕ) :
    norndServedParseStatus (okLine n) errcap = some (.ok n) := by
  have hpos := length_pos_iff.mpr (decimal_ne_nil n)
  have hlen : (text ['O', 'K', ' '] ++ decimal n).length = 3 + (decimal n).length :=
    length_append
  have hvalue : parseLength (decimal n) 0 = some n := by
    refine (parseLength_digits (isDigit_of_mem_decimal n) 0).trans ?_
    rw [show foldl _ 0 (decimal n) = n from decimalValue_decimal n, Nat.mod_eq_of_lt h]
  rw [norndServedParseStatus, trimLine_okLine]
  rw [if_pos ⟨by omega, rfl⟩, if_neg (by omega)]
  exact congrArg _ hvalue

theorem length_okLine_le {n : ℕ} (h : n < 2 ^ 64) : (okLine n).length ≤ 24 := by
  have hdigits := length_decimal_le (show 0 < 20 by decide) (h.trans (show 2 ^ 64 < 10 ^ 20 by decide))
  rw [okLine, length_append, length_append]
  change 3 + _ + 1 ≤ 24
  omega

structure CatObject where
  len : ℕ
  content : Option Bytes
  len_lt : len < 2 ^ 64
  unchanged : ∀ bs, content = some bs → bs.length = len

structure ServedBackend where
  get : Bytes → ℕ → Option Bytes
  list : Bytes → Option (List Bytes)
  stat : Bytes → Option CatObject
  get_le : ∀ key cap val, get key cap = some val → val.length ≤ cap

structure ServedResult where
  ok : Bool
  len : ℕ
  err : Bytes
  streamFile : Bool
  path : Option Bytes
  inbuf : Bytes

def ServedResult.setErr (msg : Bytes) : ServedResult :=
  ⟨false, 0, msg.take (norndServedMaxErr - 1), false, none, []⟩

def ServedResult.listVisit (inbuf key : Bytes) : Bytes :=
  if norndIpcMaxVal < inbuf.length + key.length + 1 then inbuf else inbuf ++ key ++ [newline]

def notFound : Bytes := text ['n', 'o', 't', ' ', 'f', 'o', 'u', 'n', 'd']
def listFailed : Bytes := text ['l', 'i', 's', 't', ' ', 'f', 'a', 'i', 'l', 'e', 'd']
def badRequest : Bytes := text ['b', 'a', 'd', ' ', 'r', 'e', 'q', 'u', 'e', 's', 't']
def openFailed : Bytes := text ['o', 'p', 'e', 'n', ' ', 'f', 'a', 'i', 'l', 'e', 'd']

def norndServedHandle (be : ServedBackend) (req : ServedReq) : ServedResult :=
  match req.verb with
  | .get =>
    match be.get req.arg norndIpcMaxVal with
    | none => .setErr notFound
    | some val => ⟨true, val.length, [], false, none, val⟩
  | .cat =>
    match be.stat req.arg with
    | none => .setErr notFound
    | some file => ⟨true, file.len, [], true, file.content, []⟩
  | .list =>
    match be.list req.arg with
    | none => .setErr listFailed
    | some keys =>
      let inbuf := keys.foldl ServedResult.listVisit []
      ⟨true, inbuf.length, [], false, none, inbuf⟩

inductive ServePhase
  | req | status | body | done
  deriving DecidableEq

structure ServeWrite where
  phase : ServePhase
  file : Bool
  offered : ℕ
  took : ℕ

/-- `catf` is the position in the open file. The last four fields are the stream. -/
structure ServeConn where
  phase : ServePhase
  req : Bytes
  res : ServedResult
  sent : ℕ
  catf : Option ℕ
  unread : Bytes
  room : List ℕ
  accepted : Bytes
  writes : List ServeWrite

def serveReqSize : ℕ := norndServedMaxArg + 8

def serveChunk : ℕ := 1024

def serveLineSize : ℕ := norndServedMaxErr + 32

namespace ServeConn

def init : ServeConn := ⟨.req, [], ⟨false, 0, [], false, none, []⟩, 0, none, [], [], [], []⟩

variable (c : ServeConn)

def tryWrite (p : Bytes) : ℕ × ServeConn :=
  if p.length = 0 then (0, c)
  else
    let w := min (c.room.headD 0) p.length
    (w, { c with
      room := c.room.tail, accepted := c.accepted ++ p.take w,
      writes := c.writes ++ [⟨c.phase, c.res.streamFile, p.length, w⟩] })

def readReq : ℕ → ServeConn → ServeConn
  | 0, c => c
  | rounds + 1, c =>
    match c.unread with
    | [] => c
    | b :: bs =>
      let c := { c with unread := bs, req := c.req ++ [b] }
      if b = newline then c else readReq rounds c

def resolve (be : ServedBackend) (c : ServeConn) : ServeConn :=
  match norndServedParseReq c.req with
  | none => { c with res := .setErr badRequest, phase := .status }
  | some req =>
    let res := norndServedHandle be req
    if res.ok = true ∧ res.streamFile = true then
      match res.path with
      | none => { c with
          res := { res with ok := false, err := openFailed, streamFile := false }, phase := .status }
      | some _ => { c with res := res, catf := some 0, phase := .status }
    else { c with res := res, phase := .status }

def reqPhase (be : ServedBackend) (c : ServeConn) : ServeConn :=
  let c := readReq (serveReqSize - c.req.length) c
  if c.req.getLast? ≠ some newline then
    if serveReqSize ≤ c.req.length then { c with phase := .done } else c
  else c.resolve be

def statusPhase : ServeConn :=
  match norndServedEncodeStatus c.res.ok c.res.len c.res.err serveLineSize with
  | none => { c with phase := .done }
  | some line =>
    let out := c.tryWrite line
    if out.1 ≠ line.length then out.2
    else { out.2 with phase := if c.res.ok = true ∧ 0 < c.res.len then .body else .done }

def fileLoop : ℕ → ServeConn → ServeConn
  | 0, c => c
  | rounds + 1, c =>
    if c.res.len ≤ c.sent then c
    else
      let pos := c.catf.getD 0
      let buf := ((c.res.path.getD []).drop pos).take (min (c.res.len - c.sent) serveChunk)
      let c := { c with catf := some (pos + buf.length) }
      if buf.length = 0 then { c with phase := .done }
      else
        let out := c.tryWrite buf
        if out.1 = 0 then out.2
        else
          let c := { out.2 with sent := out.2.sent + out.1 }
          if out.1 < buf.length then { c with catf := some (pos + buf.length - (buf.length - out.1)) }
          else fileLoop rounds c

def inlineLoop : ℕ → ServeConn → ServeConn
  | 0, c => c
  | rounds + 1, c =>
    if c.res.inbuf.length ≤ c.sent then c
    else
      let out := c.tryWrite (c.res.inbuf.drop c.sent)
      if out.1 = 0 then out.2
      else inlineLoop rounds { out.2 with sent := out.2.sent + out.1 }

def bodyPhase : ServeConn :=
  let c := if c.res.streamFile then fileLoop (c.res.len - c.sent) c
    else inlineLoop (c.res.inbuf.length - c.sent) c
  if c.res.len ≤ c.sent then { c with phase := .done } else c

def norndServeConnPump (be : ServedBackend) (c : ServeConn) : Bool × ServeConn :=
  let c := if c.phase = .req then c.reqPhase be else c
  let c := if c.phase = .status then c.statusPhase else c
  let c := if c.phase = .body then c.bodyPhase else c
  let c := if c.phase = .done then { c with catf := none } else c
  (c.phase = .done, c)

end ServeConn

namespace ServedResult

def statusLine (res : ServedResult) : Bytes :=
  if res.ok then okLine res.len else text ['E', 'R', 'R', ' '] ++ res.err ++ [newline]

def body (res : ServedResult) : Bytes :=
  if res.ok = false then [] else if res.streamFile then res.path.getD [] else res.inbuf

structure Sound (res : ServedResult) : Prop where
  len : res.ok = true → res.len = res.body.length
  len_lt : res.ok = true → res.len < 2 ^ 64
  err : res.err.length < norndServedMaxErr

variable {res : ServedResult}

theorem sound_err (hok : res.ok = false) (herr : res.err.length < norndServedMaxErr) : res.Sound :=
  ⟨fun h => absurd h (by rw [hok]; decide), fun h => absurd h (by rw [hok]; decide), herr⟩

theorem sound_setErr (msg : Bytes) : (setErr msg).Sound := by
  refine sound_err rfl ?_
  change (msg.take (norndServedMaxErr - 1)).length < norndServedMaxErr
  rw [length_take]
  exact (min_le_left _ _).trans_lt (by decide)

theorem sound_inline {bs : Bytes} (h : bs.length ≤ norndIpcMaxVal) :
    Sound ⟨true, bs.length, [], false, none, bs⟩ :=
  ⟨fun _ => rfl, fun _ => h.trans_lt (by decide), show 0 < norndServedMaxErr by decide⟩

theorem length_listVisit (keys : List Bytes) {inbuf : Bytes} (h : inbuf.length ≤ norndIpcMaxVal) :
    (keys.foldl listVisit inbuf).length ≤ norndIpcMaxVal := by
  induction keys generalizing inbuf with
  | nil => exact h
  | cons key keys ih =>
    refine ih ?_
    unfold listVisit
    split_ifs with hfull
    · exact h
    · rw [length_append, length_append, length_singleton]
      omega

theorem encodeStatus_eq (h : res.Sound) :
    norndServedEncodeStatus res.ok res.len res.err serveLineSize = some res.statusLine := by
  unfold norndServedEncodeStatus statusLine
  cases hok : res.ok with
  | true =>
    refine if_pos ?_
    exact (length_okLine_le (h.len_lt hok)).trans_lt (by decide)
  | false =>
    refine if_pos ?_
    have herr := h.err
    change (text ['E', 'R', 'R', ' '] ++ res.err ++ [newline]).length < serveLineSize
    rw [length_append, length_append]
    change 4 + res.err.length + 1 < norndServedMaxErr + 32
    omega

theorem statusLine_ne_nil (res : ServedResult) : res.statusLine ≠ [] := by
  unfold statusLine
  split_ifs <;> exact cons_ne_nil _ _

theorem head_notMem_tail (hok : res.ok = true) :
    ∃ bs, res.statusLine = UInt8.ofNat 'O'.toNat :: bs ∧ UInt8.ofNat 'O'.toNat ∉ bs := by
  refine ⟨text ['K', ' '] ++ decimal res.len ++ [newline], by rw [statusLine, if_pos hok]; rfl, ?_⟩
  intro hmem
  rcases mem_append.mp hmem with hmem | hmem
  · rcases mem_append.mp hmem with hmem | hmem
    · exact absurd hmem (by decide)
    · exact absurd (isDigit_of_mem_decimal _ _ hmem) (by decide)
  · exact absurd hmem (by decide)

end ServedResult

def ServeConn.response (c : ServeConn) : Bytes :=
  if c.req.getLast? = some newline then c.res.statusLine ++ c.res.body else []

end Norn
