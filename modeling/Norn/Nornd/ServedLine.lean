import Norn.Nornd.Served

/-!
# What becomes of a line

The server takes a line up to the first newline and drops a carriage return at its end.
-/

namespace Norn
open List

def dropReturn (line : Bytes) : Bytes :=
  if line.getLast? = some carriageReturn then line.dropLast else line

theorem trimLine_newline (line : Bytes) : trimLine (line ++ [newline]) = dropReturn line := by
  rw [trimLine, getLast?_concat, if_pos rfl, dropLast_concat, dropReturn]

variable {line arg : Bytes} {verb : ServedVerb} {cap : ℕ}

theorem dropReturn_eq_self_iff : dropReturn line = line ↔ line.getLast? ≠ some carriageReturn := by
  rw [dropReturn]
  split_ifs with h
  · have hne : line ≠ [] := fun hnil => by
      rw [hnil] at h
      cases h
    have hlt : line.dropLast.length < line.length := by
      rw [length_dropLast]
      have := length_pos_iff.mpr hne
      omega
    exact ⟨fun heq => absurd (congrArg length heq) hlt.ne, fun hno => absurd h hno⟩
  · exact ⟨fun _ => h, fun _ => rfl⟩

theorem length_dropReturn_le (line : Bytes) : (dropReturn line).length ≤ line.length := by
  rw [dropReturn]
  split_ifs
  · rw [length_dropLast]
    exact Nat.sub_le _ _
  · exact le_rfl

theorem dropReturn_append {front : Bytes} (h : front.getLast? ≠ some carriageReturn) :
    dropReturn (front ++ line) = front ++ dropReturn line := by
  rcases eq_nil_or_concat line with rfl | ⟨as, a, rfl⟩
  · rw [append_nil, dropReturn, if_neg h, dropReturn, if_neg (by simp), append_nil]
  · rw [concat_eq_append, dropReturn, dropReturn, ← append_assoc, getLast?_concat,
      getLast?_concat, dropLast_concat, dropLast_concat]
    split_ifs
    · rfl
    · exact append_assoc _ _ _

def requestLine (verb : ServedVerb) (arg : Bytes) : Bytes := verbName verb ++ [space] ++ arg

theorem takeWhile_requestLine (verb : ServedVerb) (arg : Bytes) :
    (requestLine verb arg).takeWhile (fun b => b != space) = verbName verb := by
  have hname : ∀ b ∈ verbName verb, (b != space) = true := by
    rw [← all_eq_true]
    cases verb <;> rfl
  rw [requestLine, append_assoc, takeWhile_append_of_pos hname]
  simp

theorem parseReq_requestLine (verb : ServedVerb) (arg : Bytes) :
    norndServedParseReq (requestLine verb arg ++ [newline]) =
      if norndServedMaxArg < (dropReturn arg).length then none
      else if (dropReturn arg).length = 0 ∧ verb ≠ .list then none
      else some ⟨verb, dropReturn arg⟩ := by
  have hfront : (verbName verb ++ [space]).getLast? ≠ some carriageReturn := by
    rw [getLast?_concat]
    decide
  have htrim : trimLine (requestLine verb arg ++ [newline]) =
      requestLine verb (dropReturn arg) := by
    rw [trimLine_newline, requestLine, dropReturn_append hfront, requestLine]
  have hdrop : (requestLine verb (dropReturn arg)).drop ((verbName verb).length + 1) =
      dropReturn arg := by
    rw [requestLine, show (verbName verb).length + 1 = (verbName verb ++ [space]).length by simp]
    exact drop_left
  rw [norndServedParseReq, htrim, takeWhile_requestLine, hdrop]
  cases verb <;> rfl

theorem ServeConn.req_readReq {as bs : Bytes} (has : newline ∉ as) :
    ∀ {rounds : ℕ} {c : ServeConn}, c.unread = as ++ newline :: bs → as.length < rounds →
      (c.readReq rounds).req = c.req ++ (as ++ [newline]) := by
  induction as with
  | nil =>
    intro rounds c hunread hrounds
    cases rounds with
    | zero => exact absurd hrounds (Nat.not_lt_zero _)
    | succ rounds =>
      rw [readReq, hunread, nil_append]
      dsimp only
      rw [if_pos rfl]
      rfl
  | cons a as ih =>
    intro rounds c hunread hrounds
    cases rounds with
    | zero => exact absurd hrounds (Nat.not_lt_zero _)
    | succ rounds =>
      have hne : a ≠ newline := fun heq => has (heq ▸ mem_cons_self)
      rw [readReq, hunread, cons_append]
      dsimp only
      rw [if_neg hne, ih (fun hmem => has (mem_cons_of_mem a hmem)) rfl
        (Nat.lt_of_succ_lt_succ hrounds)]
      exact (append_assoc _ _ _).trans rfl

theorem exists_takeWhile_newline (arg : Bytes) :
    ∃ bs, arg ++ [newline] = (arg.takeWhile fun b => b != newline) ++ newline :: bs := by
  induction arg with
  | nil => exact ⟨[], rfl⟩
  | cons a arg ih =>
    by_cases ha : a = newline
    · rw [ha, takeWhile_cons_of_neg (by simp)]
      exact ⟨arg ++ [newline], rfl⟩
    · obtain ⟨bs, hbs⟩ := ih
      rw [takeWhile_cons_of_pos (by simpa using ha), cons_append, hbs]
      exact ⟨bs, rfl⟩

theorem encodeReq_eq_some {out : Bytes} (h : norndServedEncodeReq verb arg cap = some out) :
    arg.length ≤ norndServedMaxArg ∧ (arg = [] ∧ verb = .list ∧ out = verbName .list ++ [newline] ∨
        arg ≠ [] ∧ out = requestLine verb arg ++ [newline]) := by
  rw [norndServedEncodeReq] at h
  by_cases hmax : norndServedMaxArg < arg.length
  · rw [if_pos hmax] at h
    cases h
  by_cases hshort : arg.length = 0 ∧ verb ≠ .list
  · rw [if_neg hmax, if_pos hshort] at h
    cases h
  rw [if_neg hmax, if_neg hshort] at h
  refine ⟨not_lt.mp hmax, ?_⟩
  obtain ⟨-, hout⟩ := Option.ite_none_right_eq_some.mp h
  by_cases harg : arg.length = 0
  · rw [if_pos harg] at hout
    have hverb : verb = .list := not_not.mp fun hne => hshort ⟨harg, hne⟩
    rw [hverb] at hout
    exact .inl ⟨length_eq_zero_iff.mp harg, hverb, (Option.some.inj hout).symm⟩
  · rw [if_neg harg] at hout
    exact .inr ⟨fun hnil => harg (congrArg length hnil), (Option.some.inj hout).symm⟩

theorem readReq_requestLine (hmax : arg.length ≤ norndServedMaxArg) (c : ServeConn) :
    (ServeConn.readReq serveReqSize
        { c with req := [], unread := requestLine verb arg ++ [newline] }).req =
      requestLine verb (arg.takeWhile fun b => b != newline) ++ [newline] := by
  have hname : newline ∉ verbName verb ++ [space] := by cases verb <;> decide
  have hfree : newline ∉ arg.takeWhile fun b => b != newline := by
    intro hmem
    exact absurd (mem_takeWhile_imp hmem) (by decide)
  have hlength :
      (requestLine verb (arg.takeWhile fun b => b != newline)).length < serveReqSize := by
    have hle := (takeWhile_sublist (l := arg) fun b => b != newline).length_le
    have hverb : (verbName verb).length ≤ 4 := by cases verb <;> decide
    rw [requestLine, length_append, length_append, length_singleton, serveReqSize]
    rw [norndServedMaxArg] at hmax ⊢
    omega
  obtain ⟨bs, hbs⟩ := exists_takeWhile_newline arg
  refine @ServeConn.req_readReq _ bs ?_ _ _ ?_ hlength
  · rw [requestLine]
    exact fun hmem => (mem_append.mp hmem).elim hname hfree
  · dsimp only
    rw [requestLine, append_assoc, hbs, requestLine,
      append_assoc (verbName verb ++ [space])]

theorem dropReturn_takeWhile_eq_iff (arg : Bytes) :
    dropReturn (arg.takeWhile fun b => b != newline) = arg ↔
      newline ∉ arg ∧ arg.getLast? ≠ some carriageReturn := by
  have hself : newline ∉ arg ↔ (arg.takeWhile fun b => b != newline) = arg := by
    rw [takeWhile_eq_self_iff]
    constructor
    · intro hno b hb
      simpa using fun heq : b = newline => hno (heq ▸ hb)
    · intro hall hmem
      exact absurd (hall newline hmem) (by decide)
  constructor
  · intro heq
    have hle := length_dropReturn_le (arg.takeWhile fun b => b != newline)
    rw [heq] at hle
    have hwhole := (takeWhile_sublist (l := arg) fun b => b != newline).eq_of_length_le hle
    rw [hwhole] at heq
    exact ⟨hself.mpr hwhole, dropReturn_eq_self_iff.mp heq⟩
  · rintro ⟨hno, hlast⟩
    rw [hself.mp hno]
    exact dropReturn_eq_self_iff.mpr hlast

theorem parseReq_readReq_iff {out : Bytes} (h : norndServedEncodeReq verb arg cap = some out)
    (c : ServeConn) :
    norndServedParseReq (ServeConn.readReq serveReqSize { c with req := [], unread := out }).req =
        some ⟨verb, arg⟩ ↔
      newline ∉ arg ∧ arg.getLast? ≠ some carriageReturn := by
  obtain ⟨hmax, ⟨rfl, rfl, rfl⟩ | ⟨harg, rfl⟩⟩ := encodeReq_eq_some h
  · have hread : (ServeConn.readReq serveReqSize
        { c with req := [], unread := verbName .list ++ [newline] }).req =
        verbName .list ++ [newline] :=
      @ServeConn.req_readReq (verbName .list) [] (by decide) _ _ rfl (by decide)
    rw [hread]
    exact ⟨fun _ => ⟨not_mem_nil, by simp⟩, fun _ => by decide⟩
  · rw [readReq_requestLine hmax, parseReq_requestLine, ← dropReturn_takeWhile_eq_iff]
    have hpos := length_pos_iff.mpr harg
    constructor
    · intro hparse
      split_ifs at hparse
      exact congrArg ServedReq.arg (Option.some.inj hparse)
    · intro heq
      rw [heq, if_neg (not_lt.mpr hmax), if_neg fun hzero => hpos.ne' hzero.1]

theorem parseStatus_exact_iff (line : Bytes) (errcap : ℕ) :
    (∀ len, norndServedParseStatus line errcap = some (.ok len) →
        ∃ digits, SaysLength line digits ∧ len = decimalValue digits) ↔
      ∀ digits, SaysLength line digits → decimalValue digits < 2 ^ 64 := by
  constructor
  · intro hexact digits hsaid
    obtain ⟨digits', hsaid', hlen⟩ :=
      hexact _ ((parseStatus_ok_iff line errcap _).mpr ⟨digits, hsaid, rfl⟩)
    obtain rfl : digits = digits' := append_cancel_left (hsaid.1.symm.trans hsaid'.1)
    rw [← hlen]
    exact Nat.mod_lt _ (by decide)
  · intro hsmall len hparse
    obtain ⟨digits, hsaid, rfl⟩ := (parseStatus_ok_iff line errcap len).mp hparse
    exact ⟨digits, hsaid, Nat.mod_eq_of_lt (hsmall digits hsaid)⟩

/-- A request arrives exactly if its argument has no newline and no return at the end, and a length
is read exactly if it fits 64 bits. -/
theorem served_line_codec_iff {verb : ServedVerb} {arg out : Bytes} {cap : ℕ}
    (h : norndServedEncodeReq verb arg cap = some out) (c : ServeConn) (line : Bytes) (errcap : ℕ) :
    (norndServedParseReq (ServeConn.readReq serveReqSize { c with req := [], unread := out }).req =
        some ⟨verb, arg⟩ ↔
      newline ∉ arg ∧ arg.getLast? ≠ some carriageReturn) ∧
    ((∀ len, norndServedParseStatus line errcap = some (.ok len) →
        ∃ digits, SaysLength line digits ∧ len = decimalValue digits) ↔
      ∀ digits, SaysLength line digits → decimalValue digits < 2 ^ 64) :=
  ⟨parseReq_readReq_iff h c, parseStatus_exact_iff line errcap⟩

theorem letter_line_codec :
    (norndServedParseReq (ServeConn.readReq serveReqSize
        { ServeConn.init with req := [], unread := [71, 69, 84, 32, 97, 10] }).req =
        some ⟨.get, [97]⟩ ↔
      newline ∉ [97] ∧ [97].getLast? ≠ some carriageReturn) ∧
    ((∀ len, norndServedParseStatus [79, 75, 32, 48, 10] 0 = some (.ok len) →
        ∃ digits, SaysLength [79, 75, 32, 48, 10] digits ∧ len = decimalValue digits) ↔
      ∀ digits, SaysLength [79, 75, 32, 48, 10] digits → decimalValue digits < 2 ^ 64) :=
  @served_line_codec_iff .get [97] [71, 69, 84, 32, 97, 10] 264 (by decide) ServeConn.init
    [79, 75, 32, 48, 10] 0

theorem newline_and_overflow :
    norndServedEncodeReq .get [97, 10, 98] 264 = some [71, 69, 84, 32, 97, 10, 98, 10] ∧
    norndServedParseReq (ServeConn.readReq serveReqSize
        { ServeConn.init with req := [], unread := [71, 69, 84, 32, 97, 10, 98, 10] }).req =
      some ⟨.get, [97]⟩ ∧
    norndServedParseStatus (okLine (2 ^ 64)) 0 = some (.ok 0) := by
  refine ⟨by decide, by decide, ?_⟩
  refine (parseStatus_ok_iff _ 0 0).mpr
    ⟨decimal (2 ^ 64), ⟨trimLine_okLine _, decimal_ne_nil _, isDigit_of_mem_decimal _⟩, ?_⟩
  rw [decimalValue_decimal, Nat.mod_self]

end Norn
