import Norn.Lib.Run
import Norn.Nornd.Served

/-!
# What a served stream has taken

A line that is cut short is written again, and refused bytes of a file are not.
-/

namespace Norn
open List

/-- No line is cut, and no bytes of a file are refused altogether. -/
def ServeWrite.Clean (w : ServeWrite) : Prop :=
  match w.phase with
  | .status => w.took = 0 ∨ w.took = w.offered
  | .body => w.file = true → w.took ≠ 0
  | _ => True

instance (w : ServeWrite) : Decidable w.Clean :=
  match w with
  | ⟨.status, _, offered, took⟩ => inferInstanceAs (Decidable (took = 0 ∨ took = offered))
  | ⟨.body, file, _, took⟩ => inferInstanceAs (Decidable (file = true → took ≠ 0))
  | ⟨.req, _, _, _⟩ => inferInstanceAs (Decidable True)
  | ⟨.done, _, _, _⟩ => inferInstanceAs (Decidable True)

namespace ServeConn
variable (c : ServeConn)

def Clean : Prop := ∀ w ∈ c.writes, w.Clean

instance (c : ServeConn) : Decidable c.Clean := inferInstanceAs (Decidable (∀ w ∈ c.writes, w.Clean))

def wrote (p : Bytes) (w : ℕ) : ServeConn :=
  { c with
    room := c.room.tail, accepted := c.accepted ++ p.take w,
    writes := c.writes ++ [⟨c.phase, c.res.streamFile, p.length, w⟩] }

theorem tryWrite_eq {p : Bytes} (h : p ≠ []) : ∃ w ≤ p.length, c.tryWrite p = (w, c.wrote p w) := by
  refine ⟨min (c.room.headD 0) p.length, min_le_right _ _, ?_⟩
  rw [tryWrite, if_neg (by rwa [length_eq_zero_iff])]
  rfl

structure Sent (c : ServeConn) (cuts : List ℕ) (tail : Bytes) (lost : ℕ) : Prop where
  sound : c.res.Sound
  answered : c.req.getLast? = some newline
  short : ∀ k ∈ cuts, 0 < k ∧ k < c.res.statusLine.length
  accepted : c.accepted = cuts.flatMap (fun k => c.res.statusLine.take k) ++ tail
  clean : c.Clean ↔ cuts = [] ∧ lost = 0

structure BodyPart (c : ServeConn) (part : Bytes) (lost : ℕ) : Prop where
  length : part.length = c.sent
  le : c.sent + lost ≤ c.res.body.length
  exact : lost = 0 → part = c.res.body.take c.sent
  file : lost ≠ 0 → c.res.ok = true ∧ c.res.streamFile = true

/-- Where the driver is, and what the stream has taken by then. -/
inductive Stage (c : ServeConn) : Prop
  | unanswered (hphase : c.phase = .req ∨ c.phase = .done) (hsent : c.sent = 0)
      (hreq : c.req.getLast? ≠ some newline) (haccepted : c.accepted = []) (hwrites : c.writes = [])
  | status (cuts : List ℕ) (hphase : c.phase = .status) (hsent : c.sent = 0)
      (hfile : c.res.streamFile = true → c.catf = some 0) (h : c.Sent cuts [] 0)
  | body (cuts : List ℕ) (part : Bytes) (lost : ℕ) (hphase : c.phase = .body)
      (hok : c.res.ok = true) (hfile : c.res.streamFile = true → c.catf = some (c.sent + lost))
      (h : c.Sent cuts (c.res.statusLine ++ part) lost) (hpart : c.BodyPart part lost)
  | done (cuts : List ℕ) (part : Bytes) (lost : ℕ) (hphase : c.phase = .done)
      (h : c.Sent cuts (c.res.statusLine ++ part) lost) (hpart : c.BodyPart part lost)
      (hall : c.sent + lost = c.res.body.length)

variable {c c' : ServeConn} {cuts : List ℕ} {tail part : Bytes} {lost : ℕ}

theorem Sent.write {cuts' : List ℕ} {tail' : Bytes} {lost' : ℕ} (h : c.Sent cuts tail lost)
    {w : ServeWrite} (hres : c'.res = c.res) (hreq : c'.req = c.req)
    (hwrites : c'.writes = c.writes ++ [w])
    (hshort : ∀ k ∈ cuts', k ∈ cuts ∨ 0 < k ∧ k < c.res.statusLine.length)
    (haccepted : c'.accepted = cuts'.flatMap (fun k => c.res.statusLine.take k) ++ tail')
    (hclean : (cuts = [] ∧ lost = 0) ∧ w.Clean ↔ cuts' = [] ∧ lost' = 0) :
    c'.Sent cuts' tail' lost' := by
  refine ⟨hres ▸ h.sound, hreq ▸ h.answered, fun k hk => ?_, ?_, ?_⟩
  · rw [hres]
    exact (hshort k hk).elim (h.short k) id
  · rw [hres]
    exact haccepted
  · rw [← hclean, ← h.clean, Clean, hwrites, forall_mem_append, forall_mem_singleton]
    rfl

variable (rounds : ℕ)

theorem readReq_eq (c : ServeConn) :
    ∃ unread req, readReq rounds c = { c with unread := unread, req := req } := by
  induction rounds generalizing c with
  | zero => exact ⟨c.unread, c.req, rfl⟩
  | succ rounds ih =>
    rw [readReq]
    split
    · exact ⟨c.unread, c.req, rfl⟩
    · split_ifs
      · exact ⟨_, _, rfl⟩
      · obtain ⟨unread, req, h⟩ := ih { c with unread := _, req := c.req ++ [_] }
        exact ⟨unread, req, h⟩

theorem stage_resolved (hphase : c.phase = .status) (hsent : c.sent = 0)
    (hfile : c.res.streamFile = true → c.catf = some 0) (hsound : c.res.Sound)
    (hreq : c.req.getLast? = some newline) (haccepted : c.accepted = []) (hwrites : c.writes = []) :
    c.Stage := by
  refine .status [] hphase hsent hfile ⟨hsound, hreq, fun k hk => (nomatch hk), ?_, ?_⟩
  · rw [haccepted]
    rfl
  · refine ⟨fun _ => ⟨rfl, rfl⟩, fun _ w hw => ?_⟩
    rw [hwrites] at hw
    cases hw

variable (be : ServedBackend)

theorem resolve_eq (c : ServeConn) : ∃ res catf,
    c.resolve be = { c with res := res, catf := catf, phase := .status } ∧ res.Sound ∧
      (res.streamFile = true → catf = some 0) := by
  have hinline : ∀ {res : ServedResult}, res.Sound → res.streamFile = false →
      ∃ res' catf, { c with res := res, phase := ServePhase.status } =
        { c with res := res', catf := catf, phase := .status } ∧ res'.Sound ∧
          (res'.streamFile = true → catf = some 0) := fun hsound hfile =>
    ⟨_, c.catf, rfl, hsound, fun h => absurd (hfile.symm.trans h) (by decide)⟩
  have herr := fun e => hinline (ServedResult.sound_setErr e) rfl
  unfold resolve
  cases norndServedParseReq c.req with
  | none => exact herr _
  | some req =>
    simp only
    unfold norndServedHandle
    cases req.verb with
    | get =>
      simp only
      cases hget : be.get req.arg norndIpcMaxVal with
      | none => exact herr _
      | some val => exact hinline (ServedResult.sound_inline (be.get_le _ _ _ hget)) rfl
    | cat =>
      simp only
      cases be.stat req.arg with
      | none => exact herr _
      | some file =>
        simp only [and_self, if_true]
        cases hcontent : file.content with
        | none =>
          exact hinline (ServedResult.sound_err rfl
            (show openFailed.length < norndServedMaxErr by decide)) rfl
        | some bs =>
          refine ⟨_, some 0, rfl, ⟨fun _ => ?_, fun _ => file.len_lt,
            show 0 < norndServedMaxErr by decide⟩, fun _ => rfl⟩
          exact (file.unchanged bs hcontent).symm
    | list =>
      simp only
      cases be.list req.arg with
      | none => exact herr _
      | some keys =>
        exact hinline (ServedResult.sound_inline
          (ServedResult.length_listVisit keys (Nat.zero_le _))) rfl

theorem stage_reqPhase (hphase : c.phase = .req) (h : c.Stage) : (c.reqPhase be).Stage := by
  cases h with
  | status _ hphase' | body _ _ _ hphase' | done _ _ _ hphase' => cases hphase.symm.trans hphase'
  | unanswered _ hsent _ haccepted hwrites =>
    unfold reqPhase
    obtain ⟨unread, req, hread⟩ := readReq_eq (serveReqSize - c.req.length) c
    rw [hread]
    simp only
    split_ifs with hreq hfull
    · exact .unanswered (.inr rfl) hsent hreq haccepted hwrites
    · exact .unanswered (.inl hphase) hsent hreq haccepted hwrites
    · obtain ⟨res, catf, heq, hsound, hfile⟩ := resolve_eq be { c with unread := unread, req := req }
      rw [heq]
      exact stage_resolved rfl hsent hfile hsound (not_not.mp hreq) haccepted hwrites

theorem BodyPart.empty (hsent : c.sent = 0) : c.BodyPart [] 0 :=
  ⟨hsent.symm, by rw [hsent]; exact Nat.zero_le _, fun _ => by rw [hsent]; rfl,
    fun h => absurd rfl h⟩

theorem stage_statusPhase (hphase : c.phase = .status) (h : c.Stage) : c.statusPhase.Stage := by
  cases h with
  | unanswered hphase' => rcases hphase' with h | h <;> cases hphase.symm.trans h
  | body _ _ _ hphase' | done _ _ _ hphase' => cases hphase.symm.trans hphase'
  | status cuts _ hsent hfile h =>
    unfold statusPhase
    rw [ServedResult.encodeStatus_eq h.sound]
    obtain ⟨w, hw, hwrite⟩ := c.tryWrite_eq c.res.statusLine_ne_nil
    simp only [hwrite]
    have haccepted : c.accepted = cuts.flatMap fun k => c.res.statusLine.take k := by
      rw [h.accepted, append_nil]
    by_cases hcut : w ≠ c.res.statusLine.length
    · rw [if_pos hcut]
      by_cases hzero : w = 0
      · refine .status cuts hphase hsent hfile (h.write rfl rfl rfl (fun k hk => .inl hk) ?_ ?_)
        · rw [hzero]
          exact congrArg (· ++ []) haccepted
        · simp [ServeWrite.Clean, hphase, hzero]
      · refine .status (cuts ++ [w]) hphase hsent hfile (h.write rfl rfl rfl (fun k hk => ?_) ?_ ?_)
        · rcases mem_append.mp hk with hk | hk
          · exact .inl hk
          · rw [mem_singleton.mp hk]
            exact .inr ⟨by omega, by omega⟩
        · change c.accepted ++ _ = _
          rw [haccepted, flatMap_append, flatMap_singleton, append_nil]
        · simp [ServeWrite.Clean, hphase, hzero, hcut]
    · rw [if_neg hcut]
      obtain rfl : w = c.res.statusLine.length := not_not.mp hcut
      have hnext : ∀ phase, Sent { c.wrote c.res.statusLine c.res.statusLine.length with
          phase := phase } cuts (c.res.statusLine ++ []) 0 := by
        intro phase
        refine h.write rfl rfl rfl (fun k hk => .inl hk) ?_ ?_
        · change c.accepted ++ _ = _
          rw [haccepted, take_length, append_nil]
        · simp [ServeWrite.Clean, hphase]
      split_ifs with hbody
      · refine .body cuts [] 0 rfl hbody.1 (fun hf => ?_) (hnext _) (.empty hsent)
        exact (hfile hf).trans (congrArg some hsent.symm)
      · refine .done cuts [] 0 rfl (hnext _) (.empty hsent) ?_
        change c.sent = c.res.body.length
        rw [hsent]
        by_cases hok : c.res.ok = true
        · rw [← h.sound.len hok]
          exact (Nat.eq_zero_of_not_pos fun hpos => hbody ⟨hok, hpos⟩).symm
        · rw [ServedResult.body, if_pos (Bool.eq_false_of_not_eq_true hok)]
          rfl

/-- One more write of the body, of which `took` bytes are taken and `skipped` read in vain. -/
theorem BodyPart.write {bs : Bytes} (h : c.BodyPart part lost) (skipped : ℕ) (hres : c'.res = c.res)
    (hsent : c'.sent = c.sent + bs.length)
    (hle : c.sent + lost + bs.length + skipped ≤ c.res.body.length)
    (hbs : bs = (c.res.body.drop (c.sent + lost)).take bs.length)
    (hfile : skipped ≠ 0 → c.res.ok = true ∧ c.res.streamFile = true) :
    c'.BodyPart (part ++ bs) (lost + skipped) := by
  refine ⟨?_, ?_, fun hlost => ?_, fun hlost => ?_⟩
  · rw [length_append, h.length, hsent]
  · rw [hsent, hres]
    omega
  · obtain ⟨rfl, rfl⟩ : lost = 0 ∧ skipped = 0 := by omega
    rw [hres, hsent, take_add, ← h.exact rfl]
    exact congrArg (part ++ ·) hbs
  · rw [hres]
    by_cases hold : lost = 0
    · exact hfile (by omega)
    · exact h.file hold

theorem Sent.wroteBody {buf : Bytes} {w : ℕ} (h : c.Sent cuts (c.res.statusLine ++ part) lost)
    (hpart : c.BodyPart part lost) (hphase : c.phase = .body) (hw : w ≤ buf.length)
    (hbuf : buf <+: c.res.body.drop (c.sent + lost)) (hle : c.sent + lost ≤ c.res.body.length)
    (hclean : c.res.streamFile = true → w ≠ 0) (hres : c'.res = c.res) (hreq : c'.req = c.req)
    (hwrites : c'.writes = (c.wrote buf w).writes)
    (haccepted : c'.accepted = c.accepted ++ buf.take w) (hsent : c'.sent = c.sent + w) :
    c'.Sent cuts (c.res.statusLine ++ (part ++ buf.take w)) lost ∧
      c'.BodyPart (part ++ buf.take w) lost := by
  have htake : (buf.take w).length = w := length_take_of_le hw
  have hlen := hbuf.length_le
  rw [length_drop] at hlen
  refine ⟨h.write hres hreq hwrites (fun k hk => .inl hk) ?_ ?_,
    hpart.write 0 hres ?_ ?_ ?_ fun hno => absurd rfl hno⟩
  · rw [haccepted, h.accepted]
    simp only [append_assoc]
  · simpa [ServeWrite.Clean, hphase] using fun _ _ => hclean
  · rw [hsent, htake]
  · rw [htake]
    omega
  · exact prefix_iff_eq_take.mp (IsPrefix.trans ⟨_, take_append_drop w buf⟩ hbuf)

theorem stage_fileLoop (hphase : c.phase = .body) (hok : c.res.ok = true)
    (hfile : c.res.streamFile = true) (hpos : c.catf = some (c.sent + lost))
    (h : c.Sent cuts (c.res.statusLine ++ part) lost) (hpart : c.BodyPart part lost) :
    (fileLoop rounds c).Stage ∧
      ((fileLoop rounds c).phase = .body ∨ (fileLoop rounds c).phase = .done) := by
  induction rounds generalizing c part lost with
  | zero => exact ⟨.body cuts part lost hphase hok (fun _ => hpos) h hpart, .inl hphase⟩
  | succ rounds ih =>
    have hbody : c.res.path.getD [] = c.res.body := by
      rw [ServedResult.body, if_neg (by rw [hok]; decide), if_pos hfile]
    have hlen := h.sound.len hok
    have hle := hpart.le
    rw [fileLoop]
    by_cases hend : c.res.len ≤ c.sent
    · rw [if_pos hend]
      exact ⟨.body cuts part lost hphase hok (fun _ => hpos) h hpart, .inl hphase⟩
    rw [if_neg hend]
    simp only [hpos, Option.getD_some, hbody]
    generalize hbuf : (c.res.body.drop (c.sent + lost)).take (min (c.res.len - c.sent) serveChunk) = buf
    have hpre : buf <+: c.res.body.drop (c.sent + lost) := hbuf ▸ take_prefix _ _
    have hbuflen := hpre.length_le
    rw [length_drop] at hbuflen
    by_cases hempty : buf.length = 0
    · rw [if_pos hempty]
      refine ⟨.done cuts part lost rfl ⟨h.sound, h.answered, h.short, h.accepted, h.clean⟩
        ⟨hpart.length, hpart.le, hpart.exact, hpart.file⟩ ?_, .inr rfl⟩
      rw [← hbuf, length_take, length_drop] at hempty
      change c.sent + lost = c.res.body.length
      have : 0 < serveChunk := by decide
      omega
    rw [if_neg hempty]
    obtain ⟨w, hw, hwrite⟩ := tryWrite_eq { c with catf := some (c.sent + lost + buf.length) }
      (length_pos_iff.mp (Nat.pos_of_ne_zero hempty))
    rw [hwrite]
    simp only
    by_cases hzero : w = 0
    · -- the stream refuses the chunk: it is not read again
      rw [if_pos hzero]
      subst hzero
      refine ⟨.body cuts part (lost + buf.length) hphase hok (fun _ => ?_)
        (h.write rfl rfl rfl (fun k hk => .inl hk) ?_ ?_) ?_, .inl hphase⟩
      · exact congrArg some (Nat.add_assoc _ _ _)
      · change c.accepted ++ [] = _
        rw [append_nil, h.accepted]
        rfl
      · refine ⟨fun hc => ?_, fun hc => absurd hc.2 (by omega)⟩
        rw [hphase] at hc
        exact absurd rfl (hc.2 hfile)
      · rw [← append_nil part]
        exact hpart.write buf.length rfl rfl (by rw [length_nil]; omega) rfl
          fun _ => ⟨hok, hfile⟩
    rw [if_neg hzero]
    have hsent := fun c' : ServeConn =>
      (h.wroteBody hpart hphase hw hpre hle fun _ => hzero : c'.res = c.res → _)
    by_cases hshort : w < buf.length
    · rw [if_pos hshort]
      obtain ⟨hs, hp⟩ := hsent { c.wrote buf w with
        catf := some (c.sent + lost + buf.length - (buf.length - w)), sent := c.sent + w }
        rfl rfl rfl rfl rfl
      refine ⟨.body cuts _ lost hphase hok (fun _ => ?_) hs hp, .inl hphase⟩
      exact congrArg some (show c.sent + lost + buf.length - (buf.length - w) = c.sent + w + lost by omega)
    · rw [if_neg hshort]
      obtain ⟨hs, hp⟩ := hsent { c.wrote buf w with
        catf := some (c.sent + lost + buf.length), sent := c.sent + w } rfl rfl rfl rfl rfl
      refine ih hphase hok hfile ?_ hs hp
      exact congrArg some (show c.sent + lost + buf.length = c.sent + w + lost by omega)

theorem stage_inlineLoop (hphase : c.phase = .body) (hok : c.res.ok = true)
    (hfile : c.res.streamFile = false) (h : c.Sent cuts (c.res.statusLine ++ part) 0)
    (hpart : c.BodyPart part 0) :
    ∃ part', (inlineLoop rounds c).phase = .body ∧ (inlineLoop rounds c).res = c.res ∧
      (inlineLoop rounds c).Sent cuts (c.res.statusLine ++ part') 0 ∧
      (inlineLoop rounds c).BodyPart part' 0 := by
  induction rounds generalizing c part with
  | zero => exact ⟨part, hphase, rfl, h, hpart⟩
  | succ rounds ih =>
    have hbody : c.res.inbuf = c.res.body := by
      rw [ServedResult.body, if_neg (by rw [hok]; decide), if_neg (by rw [hfile]; decide)]
    rw [inlineLoop, hbody]
    by_cases hend : c.res.body.length ≤ c.sent
    · rw [if_pos hend]
      exact ⟨part, hphase, rfl, h, hpart⟩
    rw [if_neg hend]
    have hrest : c.res.body.drop c.sent ≠ [] := fun hnil => hend (drop_eq_nil_iff.mp hnil)
    obtain ⟨w, hw, hwrite⟩ := c.tryWrite_eq hrest
    rw [hwrite]
    simp only
    have hsent := fun c' : ServeConn => (h.wroteBody hpart hphase hw prefix_rfl (by omega)
      fun hno => absurd (hfile.symm.trans hno) (by decide) : c'.res = c.res → _)
    by_cases hzero : w = 0
    · rw [if_pos hzero]
      obtain ⟨hs, hp⟩ := hsent (c.wrote (c.res.body.drop c.sent) w) rfl rfl rfl rfl
        (by rw [hzero]; rfl)
      exact ⟨_, hphase, rfl, hs, hp⟩
    · rw [if_neg hzero]
      obtain ⟨hs, hp⟩ := hsent { c.wrote (c.res.body.drop c.sent) w with sent := c.sent + w }
        rfl rfl rfl rfl rfl
      exact ih hphase hok hfile hs hp

theorem Stage.finish (h : c.Stage) (hphase : c.phase = .body ∨ c.phase = .done) :
    (if c.res.len ≤ c.sent then { c with phase := ServePhase.done } else c).Stage := by
  split_ifs with hend
  · cases h with
    | unanswered hphase' hsent hreq haccepted hwrites =>
      exact .unanswered (.inr rfl) hsent hreq haccepted hwrites
    | status _ hphase' => rcases hphase with h | h <;> cases hphase'.symm.trans h
    | body cuts part lost _ hok _ h hpart =>
      refine .done cuts part lost rfl ⟨h.sound, h.answered, h.short, h.accepted, h.clean⟩
        ⟨hpart.length, hpart.le, hpart.exact, hpart.file⟩ ?_
      have hle := hpart.le
      have hlen := h.sound.len hok
      change c.sent + lost = c.res.body.length
      omega
    | done cuts part lost _ h hpart hall =>
      exact .done cuts part lost rfl ⟨h.sound, h.answered, h.short, h.accepted, h.clean⟩
        ⟨hpart.length, hpart.le, hpart.exact, hpart.file⟩ hall
  · exact h

theorem stage_bodyPhase (hphase : c.phase = .body) (h : c.Stage) : c.bodyPhase.Stage := by
  cases h with
  | unanswered hphase' => rcases hphase' with h | h <;> cases hphase.symm.trans h
  | status _ hphase' | done _ _ _ hphase' => cases hphase.symm.trans hphase'
  | body cuts part lost _ hok hpos h hpart =>
    unfold bodyPhase
    cases hfile : c.res.streamFile with
    | true =>
      obtain ⟨hstage, hphase'⟩ :=
        stage_fileLoop (c.res.len - c.sent) hphase hok hfile (hpos hfile) h hpart
      exact hstage.finish hphase'
    | false =>
      obtain rfl : lost = 0 := by
        by_contra hlost
        rw [(hpart.file hlost).2] at hfile
        cases hfile
      obtain ⟨part', hphase', hres, hs, hp⟩ :=
        stage_inlineLoop (c.res.inbuf.length - c.sent) hphase hok hfile h hpart
      refine (Stage.body cuts part' 0 hphase' (by rw [hres]; exact hok) (fun hf => ?_) ?_ hp).finish
        (.inl hphase')
      · rw [hres, hfile] at hf
        cases hf
      · rw [hres]
        exact hs

theorem Stage.congr (h : c.Stage) (unread : Bytes) (room : List ℕ) {catf : Option ℕ}
    (hcatf : c.phase ≠ .done → catf = c.catf) :
    { c with unread := unread, room := room, catf := catf }.Stage := by
  cases h with
  | unanswered hphase hsent hreq haccepted hwrites =>
    exact .unanswered hphase hsent hreq haccepted hwrites
  | status cuts hphase hsent hfile h =>
    obtain rfl := hcatf (by rw [hphase]; decide)
    exact .status cuts hphase hsent hfile ⟨h.sound, h.answered, h.short, h.accepted, h.clean⟩
  | body cuts part lost hphase hok hfile h hpart =>
    obtain rfl := hcatf (by rw [hphase]; decide)
    exact .body cuts part lost hphase hok hfile ⟨h.sound, h.answered, h.short, h.accepted, h.clean⟩
      ⟨hpart.length, hpart.le, hpart.exact, hpart.file⟩
  | done cuts part lost hphase h hpart hall =>
    exact .done cuts part lost hphase ⟨h.sound, h.answered, h.short, h.accepted, h.clean⟩
      ⟨hpart.length, hpart.le, hpart.exact, hpart.file⟩ hall

theorem Stage.ite {p : ServePhase} {f : ServeConn → ServeConn} (h : c.Stage)
    (hf : c.phase = p → c.Stage → (f c).Stage) : (if c.phase = p then f c else c).Stage := by
  split_ifs with hphase
  · exact hf hphase h
  · exact h

theorem stage_pump (h : c.Stage) : (c.norndServeConnPump be).2.Stage :=
  (((h.ite (stage_reqPhase be)).ite stage_statusPhase).ite stage_bodyPhase).ite
    (f := fun c => { c with catf := none }) fun hphase h => h.congr _ _ fun hne => absurd hphase hne

inductive Event
  | arrive (bs : Bytes)
  | pump (be : ServedBackend) (room : List ℕ)

instance : Inhabited Event := ⟨.arrive []⟩

def apply (c : ServeConn) : Event → ServeConn
  | .arrive bs => { c with unread := c.unread ++ bs }
  | .pump be room => ({ c with room := room }.norndServeConnPump be).2

def system : System ServeConn Event where
  init c := c = init
  next c e c' := c' = c.apply e

theorem stage_of_run (run : Run system) : ∀ k ≤ run.len, (run.state k).Stage := by
  refine run.invariant (fun c hc => ?_) fun k hk ih => ?_
  · rw [show c = init from hc]
    exact .unanswered (.inl rfl) rfl (by decide) rfl rfl
  · rw [run.steps k hk]
    cases run.event k with
    | arrive bs => exact ih.congr _ _ fun _ => rfl
    | pump be room => exact stage_pump be (ih.congr _ room fun _ => rfl)

theorem Sent.eq_of_clean (h : c.Sent cuts tail lost) (hclean : c.Clean) :
    c.response = c.res.statusLine ++ c.res.body ∧ c.accepted = tail ∧ lost = 0 := by
  obtain ⟨rfl, hlost⟩ := h.clean.mp hclean
  exact ⟨if_pos h.answered, h.accepted, hlost⟩

theorem head_cuts {line bs : Bytes} {b : UInt8} {ks : List ℕ} (hks : ∀ k ∈ ks, 0 < k)
    (hline : line = b :: bs) :
    (ks.flatMap (fun k => line.take k) ++ (line ++ tail))[0]? = some b := by
  cases ks with
  | nil =>
    rw [hline]
    rfl
  | cons k ks =>
    obtain ⟨j, rfl⟩ : ∃ j, k = j + 1 := ⟨k - 1, by have := hks k mem_cons_self; omega⟩
    rw [hline]
    rfl

theorem clean_of_eq (h : c.Sent cuts (c.res.statusLine ++ part) lost) (hpart : c.BodyPart part lost)
    (hall : c.sent + lost = c.res.body.length) (heq : c.accepted = c.res.statusLine ++ c.res.body) :
    c.Clean := by
  rw [h.clean]
  rw [h.accepted] at heq
  by_cases hlost : lost = 0
  · refine ⟨?_, hlost⟩
    have hbody : part = c.res.body := by
      rw [hpart.exact hlost, take_of_length_le (by omega)]
    cases hcuts : cuts with
    | nil => rfl
    | cons k ks =>
      have hlen := congrArg length heq
      obtain ⟨hk, hk'⟩ := h.short k (by rw [hcuts]; exact mem_cons_self)
      rw [hbody, hcuts, flatMap_cons] at hlen
      simp only [length_append, length_take] at hlen
      omega
  · obtain ⟨hok, _⟩ := hpart.file hlost
    obtain ⟨bs, hline, hnot⟩ := ServedResult.head_notMem_tail hok
    cases hcuts : cuts with
    | nil =>
      rw [hcuts, flatMap_nil, nil_append] at heq
      have hlen := congrArg length (append_cancel_left heq)
      rw [hpart.length] at hlen
      omega
    | cons k ks =>
      -- the line starts again at a place where its first letter does not stand
      exfalso
      obtain ⟨hk, hk'⟩ := h.short k (by rw [hcuts]; exact mem_cons_self)
      have hget : (c.res.statusLine ++ c.res.body)[k]? = some (UInt8.ofNat 'O'.toNat) := by
        rw [← heq, hcuts, flatMap_cons, append_assoc, getElem?_append_right
          (length_take_le k _), length_take_of_le hk'.le, Nat.sub_self]
        exact head_cuts (fun j hj => (h.short j (by rw [hcuts]; exact mem_cons_of_mem _ hj)).1)
          hline
      rw [getElem?_append_left hk', hline] at hget
      obtain ⟨j, rfl⟩ : ∃ j, k = j + 1 := ⟨k - 1, by omega⟩
      rw [getElem?_cons_succ] at hget
      exact hnot (mem_of_getElem? hget)

/-- By clean writes the stream has a beginning of the response, and at the end it has all of it
exactly if all writes were clean. -/
theorem accepted_exact_iff (run : Run system) {k : ℕ} (hk : k ≤ run.len) :
    ((run.state k).Clean → (run.state k).accepted <+: (run.state k).response) ∧
    ((run.state k).phase = .done →
      ((run.state k).accepted = (run.state k).response ↔ (run.state k).Clean)) := by
  generalize hc : run.state k = c
  have hstage : c.Stage := hc ▸ stage_of_run run k hk
  clear hc
  cases hstage with
  | unanswered _ _ hreq haccepted hwrites =>
    have hclean : c.Clean := by
      intro w hw
      rw [hwrites] at hw
      cases hw
    rw [haccepted]
    exact ⟨fun _ => nil_prefix, fun _ => ⟨fun _ => hclean, fun _ => (if_neg hreq).symm⟩⟩
  | status cuts hphase hsent hfile h =>
    refine ⟨fun hclean => ?_, fun hdone => by rw [hphase] at hdone; cases hdone⟩
    rw [(h.eq_of_clean hclean).2.1]
    exact nil_prefix
  | body cuts part lost hphase hok hfile h hpart =>
    refine ⟨fun hclean => ?_, fun hdone => by rw [hphase] at hdone; cases hdone⟩
    obtain ⟨hresponse, haccepted, hlost⟩ := h.eq_of_clean hclean
    rw [hresponse, haccepted, hpart.exact hlost, prefix_append_right_inj]
    exact take_prefix _ _
  | done cuts part lost hphase h hpart hall =>
    have hexact : c.Clean → c.accepted = c.response := by
      intro hclean
      obtain ⟨hresponse, haccepted, hlost⟩ := h.eq_of_clean hclean
      rw [hresponse, haccepted, hpart.exact hlost, take_of_length_le (by omega)]
    refine ⟨fun hclean => hexact hclean ▸ prefix_rfl, fun _ => ⟨fun heq => ?_, hexact⟩⟩
    rw [response, if_pos h.answered] at heq
    exact clean_of_eq h hpart hall heq

def oneBackend : ServedBackend where
  get _ cap := if 1 ≤ cap then some (text ['v']) else none
  list _ := some []
  stat _ := some ⟨3, some (text ['a', 'b', 'c']), by decide, fun bs hbs => by cases hbs; rfl⟩
  get_le _ cap val h := by
    split_ifs at h with hcap
    cases h
    exact hcap

def runOf (line : Bytes) (rooms : List (List ℕ)) : Run system :=
  Run.ofTotal apply (fun _ _ => rfl) init rfl (.arrive line :: rooms.map (.pump oneBackend))

def getLine : Bytes := verbName .get ++ [space] ++ text ['k'] ++ [newline]

def catLine : Bytes := verbName .cat ++ [space] ++ text ['h'] ++ [newline]

theorem fileRun_exact : ((runOf catLine [[5, 2], [9]]).state 3).accepted =
    ((runOf catLine [[5, 2], [9]]).state 3).response :=
  ((accepted_exact_iff (runOf catLine [[5, 2], [9]]) (k := 3) (by decide)).2
    (by decide +kernel)).mpr (by decide +kernel)

theorem cutRun_not_exact :
    ((runOf getLine [[2], [9, 9]]).state 3).phase = .done ∧
      ((runOf getLine [[2], [9, 9]]).state 3).accepted = text ['O', 'K'] ++ okLine 1 ++ text ['v'] ∧
      ¬ ((runOf getLine [[2], [9, 9]]).state 3).accepted <+:
        ((runOf getLine [[2], [9, 9]]).state 3).response ∧
      ((runOf catLine [[5, 0], [9]]).state 3).phase = .done ∧
      ((runOf catLine [[5, 0], [9]]).state 3).accepted = okLine 3 ∧
      ((runOf catLine [[5, 0], [9]]).state 3).accepted ≠
        ((runOf catLine [[5, 0], [9]]).state 3).response := by
  decide +kernel

end ServeConn
end Norn
