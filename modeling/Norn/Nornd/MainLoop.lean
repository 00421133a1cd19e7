import Norn.Lib.Compact

/-!
# Serving the clients

The results of the poll stay where they are while the array of clients changes (`main.c`).
-/

namespace Norn
open List Norn.Compact

def maxClients : ℕ := 64

def pollIn : ℕ := 1
def pollErr : ℕ := 8
def pollHup : ℕ := 16

/-- The values of `poll` and `accept`, the results for listener and clients, and which calls of
`serve_client` fail. A slot behind those polled has what was on the stack. -/
structure PollRound where
  rc : ℤ
  listenRevents : ℕ
  afd : ℤ
  revents : ℕ → ℕ
  fails : ℕ → Bool

structure ServeState where
  i : ℕ
  clients : List ℤ
  served : List ℤ
  deriving DecidableEq

namespace PollRound
variable (r : PollRound) (clients : List ℤ)

def joined : List ℤ :=
  if r.listenRevents &&& pollIn ≠ 0 ∧ 0 ≤ r.afd ∧ clients.length < maxClients then
    clients ++ [r.afd]
  else clients

def marked (i : ℕ) : Bool := r.revents i &&& (pollIn ||| pollHup ||| pollErr) != 0

def step (s : ServeState) : ServeState :=
  match s.clients[s.i]? with
  | none => s
  | some fd =>
    if r.marked s.i then
      if r.fails s.served.length then
        ⟨s.i, Compact.swapRemove s.clients s.i, s.served ++ [fd]⟩
      else ⟨s.i + 1, s.clients, s.served ++ [fd]⟩
    else ⟨s.i + 1, s.clients, s.served⟩

def stage : ℕ → ServeState
  | 0 => ⟨0, r.joined clients, []⟩
  | m + 1 => r.step (stage m)

def iteration : ServeState :=
  if r.rc ≤ 0 then ⟨0, clients, []⟩ else r.stage clients (r.joined clients).length

def PolledReady (fd : ℤ) : Prop := ∃ i, clients[i]? = some fd ∧ r.marked i = true

/-- A marked slot was polled, and a ready client fills the place of one that fails. -/
def Orderly (s : ServeState) : Prop :=
  s.i < s.clients.length → r.marked s.i = true →
    s.i < clients.length ∧
      (r.fails s.served.length = true → s.i + 1 < s.clients.length →
        ∀ fd, s.clients.getLast? = some fd → r.PolledReady clients fd)

end PollRound

namespace Compact
variable {α : Type*} {l : List α} {i : ℕ}

theorem length_swapRemove (l : List α) (i : ℕ) : (swapRemove l i).length = l.length - 1 := by
  rw [swapRemove]
  cases h : l.getLast? with
  | none =>
    rw [getLast?_eq_none_iff] at h
    rw [h]
    rfl
  | some x =>
    dsimp only
    rw [length_dropLast, length_set]

theorem getElem?_swapRemove {j : ℕ} (hi : i < l.length) (hj : j + 1 < l.length) :
    (swapRemove l i)[j]? = if i = j then l.getLast? else l[j]? := by
  rw [swapRemove]
  cases h : l.getLast? with
  | none =>
    rw [getLast?_eq_none_iff] at h
    rw [h] at hi
    exact absurd hi (Nat.not_lt_zero i)
  | some x =>
    dsimp only
    rw [getElem?_dropLast, length_set, if_pos (by omega), getElem?_set]
    split_ifs
    · rfl
    · rfl

theorem drop_swapRemove_perm {a : α} (h : l[i]? = some a) :
    (l.drop (i + 1)).Perm ((swapRemove l i).drop i) := by
  obtain ⟨hperm, htake⟩ := perm_cons_swapRemove h
  obtain ⟨hi, rfl⟩ := List.getElem?_eq_some_iff.mp h
  have hl : l = l.take i ++ l[i] :: l.drop (i + 1) := by
    rw [← drop_eq_getElem_cons hi, take_append_drop]
  have hrest : swapRemove l i = l.take i ++ (swapRemove l i).drop i := by
    rw [← htake, take_append_drop]
  rw [hrest] at hperm
  have hmiddle : (l[i] :: (l.take i ++ l.drop (i + 1))).Perm
      (l[i] :: (l.take i ++ (swapRemove l i).drop i)) :=
    perm_middle.symm.trans ((Perm.of_eq hl.symm).trans hperm)
  exact (perm_append_left_iff _).mp ((perm_cons _).mp hmiddle)

end Compact

namespace PollRound
variable {r : PollRound} {clients : List ℤ}

theorem step_cases (r : PollRound) (s : ServeState) : s.clients.length ≤ s.i ∧ r.step s = s ∨
      ∃ fd, s.clients[s.i]? = some fd ∧
        (r.marked s.i = false ∧ r.step s = ⟨s.i + 1, s.clients, s.served⟩ ∨
          r.marked s.i = true ∧ r.fails s.served.length = false ∧
            r.step s = ⟨s.i + 1, s.clients, s.served ++ [fd]⟩ ∨
          r.marked s.i = true ∧ r.fails s.served.length = true ∧
            r.step s = ⟨s.i, Compact.swapRemove s.clients s.i, s.served ++ [fd]⟩) := by
  rw [step]
  cases hfd : s.clients[s.i]? with
  | none => exact .inl ⟨getElem?_eq_none_iff.mp hfd, rfl⟩
  | some fd =>
    refine .inr ⟨fd, rfl, ?_⟩
    cases hmarked : r.marked s.i with
    | false => exact .inl ⟨rfl, rfl⟩
    | true =>
      cases hfails : r.fails s.served.length with
      | false => exact .inr (.inl ⟨rfl, rfl, rfl⟩)
      | true => exact .inr (.inr ⟨rfl, rfl, rfl⟩)

variable {s : ServeState} {m : ℕ} {fd : ℤ} {start : List ℤ}

theorem step_of_fails (hlt : s.i < s.clients.length) (hmarked : r.marked s.i = true)
    (hfails : r.fails s.served.length = true) :
    ∃ served, r.step s = ⟨s.i, Compact.swapRemove s.clients s.i, served⟩ := by
  rw [step, getElem?_eq_getElem hlt, hmarked, hfails]
  exact ⟨_, rfl⟩

theorem stage_length (r : PollRound) (clients : List ℤ) (m : ℕ) :
    (r.stage clients m).clients.length - (r.stage clients m).i ≤ (r.joined clients).length - m := by
  induction m with
  | zero => exact le_rfl
  | succ m ih =>
    rw [stage]
    rcases r.step_cases (r.stage clients m) with ⟨hdone, hstep⟩ | ⟨fd, hfd, hcases⟩
    · rw [hstep]
      omega
    · have hlt := (List.getElem?_eq_some_iff.mp hfd).1
      rcases hcases with ⟨-, hstep⟩ | ⟨-, -, hstep⟩ | ⟨-, -, hstep⟩
      · rw [hstep]
        dsimp only
        omega
      · rw [hstep]
        dsimp only
        omega
      · rw [hstep]
        dsimp only
        rw [Compact.length_swapRemove]
        omega

theorem stage_stable (hm : (r.joined clients).length ≤ m) :
    r.stage clients m = r.stage clients (r.joined clients).length := by
  induction m, hm using Nat.le_induction with
  | base => rfl
  | succ m hm ih =>
    have hlen := r.stage_length clients m
    rw [stage]
    rcases r.step_cases (r.stage clients m) with ⟨-, hstep⟩ | ⟨fd, hfd, -⟩
    · rw [hstep, ih]
    · have hlt := (List.getElem?_eq_some_iff.mp hfd).1
      omega

theorem served_stage_succ (r : PollRound) (clients : List ℤ) (m : ℕ) :
    (r.stage clients m).served ⊆ (r.stage clients (m + 1)).served := by
  rw [stage]
  rcases r.step_cases (r.stage clients m) with
    ⟨-, hstep⟩ | ⟨fd, -, ⟨-, hstep⟩ | ⟨-, -, hstep⟩ | ⟨-, -, hstep⟩⟩ <;> rw [hstep]
  · exact List.Subset.refl _
  · exact List.Subset.refl _
  · exact subset_append_left _ _
  · exact subset_append_left _ _

theorem served_stage_subset (m : ℕ) :
    (r.stage clients m).served ⊆ (r.stage clients (r.joined clients).length).served := by
  have hmono : ∀ k, (r.stage clients m).served ⊆ (r.stage clients (m + k)).served := by
    intro k
    induction k with
    | zero => exact List.Subset.refl _
    | succ k ih => exact List.Subset.trans ih (r.served_stage_succ clients (m + k))
  have h := hmono (r.joined clients).length
  rwa [stage_stable (Nat.le_add_left _ m)] at h

theorem mem_served (hfd : (r.stage clients m).clients[(r.stage clients m).i]? = some fd)
    (hmarked : r.marked (r.stage clients m).i = true) :
    fd ∈ (r.stage clients (r.joined clients).length).served := by
  refine served_stage_subset (m + 1) ?_
  rw [stage]
  rcases r.step_cases (r.stage clients m) with ⟨hdone, -⟩ | ⟨fd', hfd', hcases⟩
  · have hlt := (List.getElem?_eq_some_iff.mp hfd).1
    omega
  · obtain rfl : fd' = fd := Option.some.inj (hfd'.symm.trans hfd)
    rcases hcases with ⟨hno, -⟩ | ⟨-, -, hstep⟩ | ⟨-, -, hstep⟩
    · rw [hmarked] at hno
      cases hno
    · rw [hstep]
      exact mem_append_right _ (mem_singleton_self _)
    · rw [hstep]
      exact mem_append_right _ (mem_singleton_self _)

structure Tracks (start : List ℤ) (s : ServeState) : Prop where
  nodup : s.clients.Nodup
  served : s.served.Nodup
  fresh : ∀ fd ∈ s.served, fd ∉ s.clients.drop s.i
  whole : s.clients = start ∨ s.clients.length < start.length

theorem Tracks.serve (h : Tracks start s) (hfd : s.clients[s.i]? = some fd) :
    (s.served ++ [fd]).Nodup ∧ ∀ fd' ∈ s.served ++ [fd], fd' ∉ s.clients.drop (s.i + 1) := by
  obtain ⟨hlt, hget⟩ := List.getElem?_eq_some_iff.mp hfd
  have hdrop : s.clients.drop s.i = fd :: s.clients.drop (s.i + 1) := by
    rw [drop_eq_getElem_cons hlt, hget]
  have hnew : fd ∉ s.served := by
    intro hmem
    refine h.fresh fd hmem ?_
    rw [hdrop]
    exact mem_cons_self
  have hnodup : (fd :: s.clients.drop (s.i + 1)).Nodup := by
    rw [← hdrop]
    exact h.nodup.sublist (drop_sublist _ _)
  refine ⟨?_, ?_⟩
  · exact h.served.append (nodup_singleton fd) (disjoint_singleton.mpr hnew)
  · intro fd' hmem
    rcases mem_append.mp hmem with hmem | hmem
    · have hold := h.fresh fd' hmem
      rw [hdrop] at hold
      exact fun htail => hold (mem_cons_of_mem fd htail)
    · rw [mem_singleton.mp hmem]
      exact (nodup_cons.mp hnodup).1

theorem Tracks.step (h : Tracks start s) (r : PollRound) : Tracks start (r.step s) := by
  rcases r.step_cases s with ⟨-, hstep⟩ | ⟨fd, hfd, ⟨-, hstep⟩ | ⟨-, -, hstep⟩ | ⟨-, -, hstep⟩⟩ <;>
    rw [hstep]
  · exact h
  · refine ⟨h.nodup, h.served, fun fd' hmem htail => ?_, h.whole⟩
    exact h.fresh fd' hmem (drop_subset_drop_left _ (Nat.le_succ _) htail)
  · exact ⟨h.nodup, (h.serve hfd).1, (h.serve hfd).2, h.whole⟩
  · have hlt := (List.getElem?_eq_some_iff.mp hfd).1
    have hlen := Compact.length_swapRemove s.clients s.i
    refine ⟨?_, (h.serve hfd).1, ?_, .inr ?_⟩
    · exact ((Compact.perm_cons_swapRemove hfd).1.nodup_iff.mp h.nodup).of_cons
    · intro fd' hmem htail
      exact (h.serve hfd).2 fd' hmem ((Compact.drop_swapRemove_perm hfd).mem_iff.mpr htail)
    · dsimp only
      rcases h.whole with hwhole | hless
      · rw [hlen, ← hwhole]
        omega
      · omega

theorem tracks_stage (hdistinct : (r.joined clients).Nodup) (m : ℕ) :
    Tracks (r.joined clients) (r.stage clients m) := by
  induction m with
  | zero => exact ⟨hdistinct, nodup_nil, forall_mem_nil _, .inl rfl⟩
  | succ m ih => exact ih.step r

theorem getElem?_joined {j : ℕ} (hj : j < clients.length) : (r.joined clients)[j]? = clients[j]? := by
  rw [joined]
  split_ifs
  · exact getElem?_append_left hj
  · rfl

/-- Only ready clients stand in marked slots that were polled, and only they are served. -/
structure Ready (r : PollRound) (clients : List ℤ) (s : ServeState) : Prop where
  ahead : ∀ j fd, s.i ≤ j → j < clients.length → s.clients[j]? = some fd → r.marked j = true →
    r.PolledReady clients fd
  served : ∀ fd ∈ s.served, r.PolledReady clients fd

theorem Ready.step (h : Ready r clients s) (horderly : r.Orderly clients s) :
    Ready r clients (r.step s) := by
  rcases r.step_cases s with ⟨-, hstep⟩ | ⟨fd, hfd, ⟨-, hstep⟩ | ⟨hmarked, -, hstep⟩ |
    ⟨hmarked, hfails, hstep⟩⟩ <;> rw [hstep]
  · exact h
  · exact ⟨fun j fd hj => h.ahead j fd (Nat.le_of_succ_le hj), h.served⟩
  all_goals
    have hlt := (List.getElem?_eq_some_iff.mp hfd).1
    obtain ⟨hpolled, hlast⟩ := horderly hlt hmarked
    have hserved : ∀ fd' ∈ s.served ++ [fd], r.PolledReady clients fd' := by
      intro fd' hmem
      rcases mem_append.mp hmem with hmem | hmem
      · exact h.served fd' hmem
      · rw [mem_singleton.mp hmem]
        exact h.ahead s.i fd le_rfl hpolled hfd hmarked
  · exact ⟨fun j fd hj => h.ahead j fd (Nat.le_of_succ_le hj), hserved⟩
  · refine ⟨fun j fd' hj hjlt hget hmarkedj => ?_, hserved⟩
    have hlen := (List.getElem?_eq_some_iff.mp hget).1
    rw [Compact.length_swapRemove] at hlen
    rw [Compact.getElem?_swapRemove hlt (by omega)] at hget
    -- The slot that was just tried has the last client now.
    split_ifs at hget with hij
    · exact hlast hfails (by omega) fd' hget
    · exact h.ahead j fd' hj hjlt hget hmarkedj

theorem ready_stage (horderly : ∀ m, r.Orderly clients (r.stage clients m)) (m : ℕ) :
    Ready r clients (r.stage clients m) := by
  induction m with
  | zero =>
    refine ⟨fun j fd _ hjlt hget hmarked => ⟨j, ?_, hmarked⟩, forall_mem_nil _⟩
    rw [← getElem?_joined hjlt]
    exact hget
  | succ m ih => exact ih.step (horderly m)

theorem orderly_of_ready (hdistinct : (r.joined clients).Nodup)
    (hready : ∀ fd ∈ (r.stage clients (r.joined clients).length).served, r.PolledReady clients fd)
    (m : ℕ) : r.Orderly clients (r.stage clients m) := by
  intro hlt hmarked
  have hfd := getElem?_eq_getElem hlt
  constructor
  · -- A slot that was not polled has the new client, who was not polled either.
    by_contra hge
    obtain ⟨j, hj, -⟩ := hready _ (mem_served hfd hmarked)
    have hwhole := (tracks_stage hdistinct m).whole
    have hmem := mem_of_getElem? hj
    by_cases hjoin : r.listenRevents &&& pollIn ≠ 0 ∧ 0 ≤ r.afd ∧ clients.length < maxClients
    · have hjoined : r.joined clients = clients ++ [r.afd] := by rw [joined, if_pos hjoin]
      have hlen : (r.joined clients).length = clients.length + 1 := by
        rw [hjoined, length_append, length_singleton]
      rcases hwhole with hwhole | hless
      · have hi : (r.stage clients m).i = clients.length := by
          rw [hwhole] at hlt
          omega
        have hafd : (r.stage clients m).clients[(r.stage clients m).i] = r.afd := by
          rw [← Option.some_inj, ← hfd, hwhole, hi, hjoined]
          exact getElem?_concat_length
        rw [hafd] at hmem
        rw [hjoined] at hdistinct
        exact (disjoint_of_nodup_append hdistinct) hmem (mem_singleton_self _)
      · omega
    · have hjoined : r.joined clients = clients := by rw [joined, if_neg hjoin]
      rw [hjoined] at hwhole
      rcases hwhole with hwhole | hless
      · rw [hwhole] at hlt
        exact hge hlt
      · omega
  · intro hfails hmore fd hlast
    -- The next round tries the last client in the same slot.
    obtain ⟨served, hstep⟩ := step_of_fails hlt hmarked hfails
    refine hready fd (mem_served (m := m + 1) ?_ ?_) <;> rw [stage, hstep]
    · rw [← hlast]
      exact (getElem?_swapRemove hlt hmore).trans (if_pos rfl)
    · exact hmarked

/-- The clients served are ready ones, each once, exactly if every round is orderly. -/
theorem served_ready_iff (r : PollRound) {clients : List ℤ} (hdistinct : (r.joined clients).Nodup) :
    ((∀ fd ∈ (r.iteration clients).served, r.PolledReady clients fd) ∧
        (r.iteration clients).served.Nodup) ↔
      (0 < r.rc → ∀ m, r.Orderly clients (r.stage clients m)) := by
  rw [iteration]
  by_cases hrc : r.rc ≤ 0
  · rw [if_pos hrc]
    exact ⟨fun _ hpos => absurd hrc (not_le.mpr hpos),
      fun _ => ⟨forall_mem_nil _, nodup_nil⟩⟩
  · rw [if_neg hrc]
    constructor
    · rintro ⟨hready, -⟩ -
      exact orderly_of_ready hdistinct hready
    · intro horderly
      exact ⟨(ready_stage (horderly (not_le.mp hrc)) _).served, (tracks_stage hdistinct _).served⟩

def firstReady (fails : Bool) : PollRound :=
  ⟨1, 0, -1, fun i => if i = 0 then 1 else 0, fun _ => fails⟩

theorem firstReady_served :
    ((∀ fd ∈ ((firstReady false).iteration [4, 5]).served,
        (firstReady false).PolledReady [4, 5] fd) ∧
        ((firstReady false).iteration [4, 5]).served.Nodup) ↔
      (0 < (firstReady false).rc →
        ∀ m, (firstReady false).Orderly [4, 5] ((firstReady false).stage [4, 5] m)) :=
  served_ready_iff (firstReady false) (by decide)

theorem firstReady_drop : ((firstReady true).iteration [4, 5]).served = [4, 5] ∧
    ¬ (firstReady true).PolledReady [4, 5] 5 := by
  refine ⟨by decide, ?_⟩
  rintro ⟨i, hi, hmarked⟩
  rcases i with _ | _ | i
  · cases hi
  · cases hmarked
  · cases hi

end PollRound
end Norn
