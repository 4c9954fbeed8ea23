import Ccollections.Chttpclient.ConnectRace
import Mathlib.Data.List.Nodup
import Mathlib.Data.List.Perm.Basic
import Mathlib.Data.List.TakeWhile

/-!
# Every round of a connect race keeps its sockets
-/

namespace Ccollections.Chttpclient.ConnectRace

open List Option

/-! ## The order of the addresses -/

section Order

variable {α : Type} {isFirst : α → Bool}

theorem alternate_perm (xs ys : List α) : (alternate xs ys).Perm (xs ++ ys) := by
  induction xs, ys using alternate.induct with
  | case1 ys => simp [alternate]
  | case2 x xs ys ih =>
    rw [alternate, cons_append]
    exact (ih.trans perm_append_comm).cons x

theorem alternate_filter (isFirst : α → Bool) (b : Bool) (xs ys : List α) (hxs : ∀ x ∈ xs, isFirst x = b) (hys : ∀ y ∈ ys, isFirst y = !b) :
    (alternate xs ys).filter (isFirst · = b) = xs ∧ (alternate xs ys).filter (isFirst · = !b) = ys := by
  induction xs, ys using alternate.induct generalizing b with
  | case1 ys =>
    have hnone : ∀ y ∈ ys, ¬decide (isFirst y = b) = true := fun y hy => by simp [hys y hy]
    rw [alternate]
    exact ⟨filter_eq_nil_iff.mpr hnone, filter_eq_self.mpr fun y hy => by simp [hys y hy]⟩
  | case2 x xs ys ih =>
    obtain ⟨hfirst, hsecond⟩ := ih (!b) hys fun y hy => by rw [Bool.not_not]; exact hxs y (mem_cons_of_mem x hy)
    rw [Bool.not_not] at hsecond
    have hx := hxs x mem_cons_self
    rw [alternate]
    exact ⟨by simp [hx, hsecond], by simp [hx, hfirst]⟩

theorem interleaveFrom_eq (i : Nat) (rest : List α) :
    interleaveFrom isFirst i rest =
      alternate (rest.filter (isFirst · = decide (i % 2 = 0))) (rest.filter (isFirst · = !decide (i % 2 = 0))) := by
  generalize hn : rest.length = n
  induction n using Nat.strongRecOn generalizing i rest with
  | ind n ih =>
    have hsplit := takeWhile_append_dropWhile (p := (isFirst · ≠ decide (i % 2 = 0))) (l := rest)
    have hskipped : ∀ x ∈ rest.takeWhile (isFirst · ≠ decide (i % 2 = 0)), isFirst x = !decide (i % 2 = 0) := fun x hx => by
      simpa [Bool.eq_not] using mem_takeWhile_imp hx
    have hnone : (rest.takeWhile (isFirst · ≠ decide (i % 2 = 0))).filter (isFirst · = decide (i % 2 = 0)) = [] :=
      filter_eq_nil_iff.mpr fun x hx => by simp [hskipped x hx]
    have hall : (rest.takeWhile (isFirst · ≠ decide (i % 2 = 0))).filter (isFirst · = !decide (i % 2 = 0)) =
        rest.takeWhile (isFirst · ≠ decide (i % 2 = 0)) := filter_eq_self.mpr fun x hx => by simp [hskipped x hx]
    rw [interleaveFrom]
    split
    · rename_i hdrop
      rw [hdrop, append_nil] at hsplit
      rw [hsplit] at hnone hall
      rw [hnone, hall, alternate]
    · rename_i moved after hdrop
      have hmoved : isFirst moved = decide (i % 2 = 0) := by
        have hhead := head_dropWhile_not (isFirst · ≠ decide (i % 2 = 0)) (l := rest) (by rw [hdrop]; exact cons_ne_nil _ _)
        simp only [hdrop, head_cons] at hhead
        simpa using hhead
      have hparity : decide ((i + 1) % 2 = 0) = !decide (i % 2 = 0) := by
        by_cases heven : i % 2 = 0
        · simp [heven, show (i + 1) % 2 ≠ 0 by omega]
        · simp [heven, show (i + 1) % 2 = 0 by omega]
      rw [hdrop] at hsplit
      have hshort : (rest.takeWhile (isFirst · ≠ decide (i % 2 = 0)) ++ after).length < n := by
        rw [← hn]
        conv_rhs => rw [← hsplit]
        simp only [length_append, length_cons]
        omega
      rw [ih _ hshort _ _ rfl, hparity, Bool.not_not, filter_append, filter_append, hnone, hall]
      conv_rhs => rw [← hsplit, filter_append, filter_append, hnone, hall]
      simp [hmoved, alternate]

theorem addrListInterleave_eq {φ : Type} [DecidableEq φ] (family : α → φ) (a : α) (rest : List α) :
    addrListInterleave family (a :: rest) =
      alternate ((a :: rest).filter (family · = family a)) ((a :: rest).filter (family · ≠ family a)) := by
  rw [addrListInterleave]
  split
  · match rest with
    | [] => simp [alternate]
    | [b] => by_cases h : family b = family a <;> simp [alternate, h]
    | _ :: _ :: _ => simp only [length_cons] at *; omega
  · simp [interleaveFrom_eq, alternate]

end Order

/-! ## Rounds -/

variable {sys : System} {count : Nat} {r : Race} {pfds w : List Nat}

/-- Every attempt is pending, has won or has failed, and the open sockets are those that did not fail. -/
structure Kept (count : Nat) (r : Race) (pfds w : List Nat) : Prop where
  opened : ∀ i, r.opened.count i = pfds.count i + w.count i + r.closed.count i
  once : ∀ i, r.opened.count i ≤ if i < r.next then 1 else 0
  started : ∀ i, pfds.count i + w.count i + r.failed.count i = if i < r.next then 1 else 0
  connected : r.connected = w
  next : r.next ≤ count

theorem count_cons_next (l : List Nat) (n i : Nat) : (n :: l).count i = l.count i + if i = n then 1 else 0 := by
  rw [count_cons]
  by_cases h : n = i
  · simp [h]
  · simp [h, Ne.symm h]

theorem startAttempts_kept (sys : System) (h : Kept count r r.pfds []) :
    Kept count (startAttempts sys count r).1 (startAttempts sys count r).1.pfds (startAttempts sys count r).2.toList ∧
      (startAttempts sys count r).1.now = r.now ∧
      ((startAttempts sys count r).2 = none → (startAttempts sys count r).1.pfds = [] → (startAttempts sys count r).1.next = count) := by
  generalize hn : count - r.next = n
  induction n generalizing r with
  | zero =>
    rw [startAttempts, dif_neg (by omega)]
    exact ⟨h, rfl, fun _ _ => Nat.le_antisymm h.next (Nat.le_of_sub_eq_zero hn)⟩
  | succ n ih =>
    have hnew : ∀ i, (if i < r.next + 1 then 1 else 0) = (if i < r.next then 1 else 0) + if i = r.next then 1 else 0 := by
      intro i
      split <;> split <;> split <;> omega
    rw [startAttempts, dif_pos (by omega)]
    cases sys.start r.next with
    | noSocket =>
      refine ih ⟨h.opened, fun i => ?_, fun i => ?_, h.connected, by simp only; omega⟩ (by simp only; omega)
      · have hold := h.once i
        simp only [hnew]
        omega
      · have hold := h.started i
        simp only [hnew, count_cons_next]
        omega
    | refused =>
      refine ih ⟨fun i => ?_, fun i => ?_, fun i => ?_, h.connected, by simp only; omega⟩ (by simp only; omega)
      · have hold := h.opened i
        simp only [count_cons_next]
        omega
      · have hold := h.once i
        simp only [hnew, count_cons_next]
        omega
      · have hold := h.started i
        simp only [hnew, count_cons_next]
        omega
    | connected =>
      refine ⟨⟨fun i => ?_, fun i => ?_, fun i => ?_, by simp [h.connected], by simp only; omega⟩, rfl, nofun⟩
      · have hold := h.opened i
        simp only [count_cons_next, toList_some, count_nil] at hold ⊢
        omega
      · have hold := h.once i
        simp only [hnew, count_cons_next]
        omega
      · have hold := h.started i
        simp only [hnew, count_cons_next, toList_some, count_nil] at hold ⊢
        omega
    | pending =>
      refine ⟨⟨fun i => ?_, fun i => ?_, fun i => ?_, h.connected, by simp only; omega⟩, rfl, fun _ hnil => by simp at hnil⟩
      · have hold := h.opened i
        simp only [count_append, count_cons_next, toList_none, count_nil] at hold ⊢
        omega
      · have hold := h.once i
        simp only [hnew, count_cons_next]
        omega
      · have hold := h.started i
        simp only [hnew, count_append, count_cons_next, toList_none, count_nil] at hold ⊢
        omega

theorem scan_kept (revents soerrOk : Nat → Bool) (winner : Option Nat) (kept fds : List Nat)
    (h : Kept count r (kept ++ fds) winner.toList) :
    Kept count (scan revents soerrOk winner kept fds r).1 (scan revents soerrOk winner kept fds r).1.pfds
        (scan revents soerrOk winner kept fds r).2.toList ∧
      (scan revents soerrOk winner kept fds r).1.now = r.now := by
  induction fds generalizing winner kept r with
  | nil =>
    rw [append_nil] at h
    exact ⟨⟨h.opened, h.once, h.started, h.connected, h.next⟩, rfl⟩
  | cons fd fds ih =>
    rw [scan]
    split
    · exact ih winner (kept ++ [fd]) (by rwa [append_assoc])
    · have hnone : winner = none := by
        cases winner with
        | none => rfl
        | some fd' => simp_all
      subst hnone
      have hmoved : ∀ i, (kept ++ fd :: fds).count i = (kept ++ fds).count i + if i = fd then 1 else 0 := by
        intro i
        rw [count_append, count_cons_next, count_append]
        omega
      split
      · refine ih (some fd) kept ⟨fun i => ?_, h.once, fun i => ?_, by simp [h.connected], h.next⟩
        · have hold := h.opened i
          simp only [hmoved, toList_some, toList_none, count_cons_next, count_nil] at hold ⊢
          omega
        · have hold := h.started i
          simp only [hmoved, toList_some, toList_none, count_cons_next, count_nil] at hold ⊢
          omega
      · refine ih none kept ⟨fun i => ?_, h.once, fun i => ?_, h.connected, h.next⟩
        · have hold := h.opened i
          simp only [hmoved, count_cons_next] at hold ⊢
          omega
        · have hold := h.started i
          simp only [hmoved, count_cons_next] at hold ⊢
          omega

def Ended.winner : Ended → List Nat
  | .success fd => [fd]
  | _ => []

structure Finished (sys : System) (count : Nat) (e : Ended) (r : Race) : Prop where
  nodup : r.opened.Nodup
  closed : r.opened.Perm (e.winner ++ r.closed)
  first : r.connected = e.winner
  allFailed : e = .allFailed → r.failed.Perm (List.range count)
  timedOut : e = .timedOut → reached sys.connectDl r.now = true ∨ reached sys.overall r.now = true

theorem Kept.finish {e : Ended} (h : Kept count r r.pfds e.winner)
    (hfailed : e = .allFailed → r.pfds = [] ∧ r.next = count)
    (htimedOut : e = .timedOut → reached sys.connectDl r.now = true ∨ reached sys.overall r.now = true) :
    Finished sys count (finish e r).1 (finish e r).2 := by
  refine ⟨?_, ?_, h.connected, ?_, htimedOut⟩
  · refine nodup_iff_count_le_one.mpr fun i => (h.once i).trans ?_
    split <;> omega
  · refine perm_iff_count.mpr fun i => ?_
    have hcount := h.opened i
    simp only [ConnectRace.finish, count_append]
    omega
  · rintro rfl
    obtain ⟨hnil, hnext⟩ := hfailed rfl
    refine perm_iff_count.mpr fun i => ?_
    have hcount := h.started i
    rw [hnil, hnext] at hcount
    rw [count_range]
    simpa [Ended.winner, ConnectRace.finish] using hcount

theorem round_kept (k : Nat) (h : Kept count r r.pfds []) :
    match round sys count k r with
    | .inl r' => Kept count r' r'.pfds [] ∧ r'.now = sys.clock (k + 1)
    | .inr (e, r') => Finished sys count e r' := by
  have hstart : ∃ p : Race × Option Nat,
      p = (if decide (r.pfds = []) || decide (r.nextStart ≤ r.now) then startAttempts sys count r else (r, none)) ∧
      Kept count p.1 p.1.pfds p.2.toList ∧ (p.2 = none → p.1.pfds = [] → p.1.next = count) := by
    refine ⟨_, rfl, ?_⟩
    split
    · obtain ⟨hkept, -, hall⟩ := startAttempts_kept sys h
      exact ⟨hkept, hall⟩
    · refine ⟨h, fun _ hnil => ?_⟩
      simp_all
  obtain ⟨⟨r', winner⟩, hp, hkept, hall⟩ := hstart
  rw [round]
  simp only
  rw [← hp]
  cases winner with
  | some fd => exact hkept.finish nofun nofun
  | none =>
    simp only
    by_cases hnil : r'.pfds = []
    · rw [if_pos hnil]
      exact hkept.finish (fun _ => ⟨hnil, hall rfl hnil⟩) nofun
    · rw [if_neg hnil]
      by_cases hreached : (reached sys.connectDl r'.now || reached sys.overall r'.now) = true
      · rw [if_pos hreached]
        exact hkept.finish nofun fun _ => by simpa using hreached
      · rw [if_neg hreached]
        have hlater : ∀ now, Kept count { r' with now := now } r'.pfds [] := fun _ =>
          ⟨hkept.opened, hkept.once, hkept.started, hkept.connected, hkept.next⟩
        cases sys.poll k with
        | error => exact hkept.finish nofun nofun
        | interrupted => exact ⟨hlater _, rfl⟩
        | timeout => exact ⟨hlater _, rfl⟩
        | ready revents =>
          have hscan := scan_kept revents (sys.soerrOk k) none [] r'.pfds (hlater (sys.clock (k + 1)))
          simp only
          generalize scan revents (sys.soerrOk k) none [] r'.pfds { r' with now := sys.clock (k + 1) } = p at hscan
          obtain ⟨r'', winner⟩ := p
          cases winner with
          | none => exact hscan
          | some fd => exact hscan.1.finish nofun nofun

theorem round_ends (k : Nat) (h : Kept count r r.pfds [])
    (hend : r.pfds = [] ∧ r.next = count ∨ reached sys.connectDl r.now = true ∨ reached sys.overall r.now = true) :
    ∃ out, round sys count k r = .inr out := by
  rw [round]
  simp only
  rcases hend with ⟨hnil, hnext⟩ | hreached
  · rw [if_pos (by simp [hnil]), startAttempts, dif_neg (by omega)]
    exact ⟨_, if_pos hnil⟩
  · have hnow : (if decide (r.pfds = []) || decide (r.nextStart ≤ r.now) then startAttempts sys count r else (r, none)).1.now = r.now := by
      split
      · exact (startAttempts_kept sys h).2.1
      · rfl
    generalize (if decide (r.pfds = []) || decide (r.nextStart ≤ r.now) then startAttempts sys count r else (r, none)) = p at hnow
    obtain ⟨r', winner⟩ := p
    cases winner with
    | some fd => exact ⟨_, rfl⟩
    | none =>
      simp only at hnow ⊢
      split
      · exact ⟨_, rfl⟩
      · rw [hnow, if_pos (by simpa using hreached)]
        exact ⟨_, rfl⟩

theorem tcpConnect_kept (sys : System) (count k : Nat) :
    match tcpConnect sys count k with
    | .inl r => Kept count r r.pfds [] ∧ r.now = sys.clock k
    | .inr (e, r) => Finished sys count e r := by
  induction k with
  | zero => exact ⟨⟨by simp [Race.start], by simp [Race.start], by simp [Race.start], rfl, Nat.zero_le _⟩, rfl⟩
  | succ k ih =>
    rw [tcpConnect]
    cases hrun : tcpConnect sys count k with
    | inr out =>
      rw [hrun] at ih
      exact ih
    | inl r =>
      rw [hrun] at ih
      exact round_kept k ih.1

end Ccollections.Chttpclient.ConnectRace
