import Sylar.Proofs.Timers
import Sylar.Lib.Buckets

/-! Entries. Every insertion that the wheel takes is one entry, which is in the wheel until a
scan takes it out, then with the call of `listExpiredCb`, and then handed out. -/

namespace Sylar

open Lib

open scoped List

namespace TimerManager

variable {Cb : Type} {s s' : Run Cb} {o : Op Cb}

/-- The entries are accounted for, their timers exist, and a cancelled timer has no
callback. -/
structure Sound (s : Run Cb) : Prop where
  balance : s.accepted ~ s.contents ++ (s.pending ++ s.delivered)
  made : ∀ x ∈ s.accepted, x < s.m.timers.length
  dead : ∀ x ∈ s.cancelled, ∃ τ, s.m.timers[x]? = some τ ∧ τ.m_cb = none

theorem sound_init : Sound (Run.init : Run Cb) := by
  refine ⟨?_, fun x hx => absurd hx List.not_mem_nil, fun x hx => absurd hx List.not_mem_nil⟩
  rw [Run.contents, Run.init, TimerManager.new, TimeWheel.new_contents]
  exact List.Perm.refl _

theorem balance_insert {w : TimeWheel} {acc rest : List ℕ} (x d t : ℕ)
    (h : acc ~ w.contents ++ rest) :
    (if t ≤ d then x :: acc else acc) ~ (w.addTimer x d t).2.contents ++ rest := by
  split
  · rename_i hd
    exact (h.cons x).trans ((TimeWheel.contents_addTimer hd).append_right rest).symm
  · rename_i hd
    rw [TimeWheel.addTimer_rejected (not_le.mp hd)]
    exact h

theorem moves {calls : List (ℕ × List ℕ)} {c now_ms x : ℕ} {rest : List ℕ}
    (hc : calls[c]? = some (now_ms, x :: rest)) (handed : List (ℕ × Option Cb)) (cb : Option Cb) :
    calls.flatMap Prod.snd ++ handed.map Prod.fst ~
      (calls.set c (now_ms, rest)).flatMap Prod.snd ++ (handed ++ [(x, cb)]).map Prod.fst := by
  have hc' : (calls.map Prod.snd)[c]? = some (x :: rest) := by
    rw [List.getElem?_map, hc]
    rfl
  obtain ⟨others, hold, hnew⟩ := flatten_set_perm hc'
  have hset : (calls.set c (now_ms, rest)).flatMap Prod.snd =
      ((calls.map Prod.snd).set c rest).flatten := by
    rw [List.flatMap_def, List.map_set]
  rw [hset, List.flatMap_def, List.map_append, List.map_singleton]
  calc (calls.map Prod.snd).flatten ++ handed.map Prod.fst
    _ ~ x :: rest ++ others ++ handed.map Prod.fst := hold.append_right _
    _ ~ x :: (((calls.map Prod.snd).set c rest).flatten ++ handed.map Prod.fst) :=
      ((hnew rest).symm.append_right _).cons x
    _ ~ ((calls.map Prod.snd).set c rest).flatten ++ handed.map Prod.fst ++ [x] :=
      (List.perm_append_singleton _ _).symm
    _ = ((calls.map Prod.snd).set c rest).flatten ++ (handed.map Prod.fst ++ [x]) :=
      List.append_assoc _ _ _

/-- A timer object is written, with its callback as it was or without one. -/
theorem Sound.dead_write (h : Sound s) {x : ℕ} {τ τ' : Timer Cb} (hx : s.m.timers[x]? = some τ)
    (hcb : τ'.m_cb = τ.m_cb ∨ τ'.m_cb = none) :
    ∀ y ∈ s.cancelled, ∃ σ, (s.m.timers.set x τ')[y]? = some σ ∧ σ.m_cb = none := by
  intro y hy
  obtain ⟨σ, hσ, hnone⟩ := h.dead y hy
  rw [getElem?_write hx]
  split
  · rename_i hyx
    rw [hyx, hx] at hσ
    obtain rfl := Option.some.inj hσ
    rcases hcb with hcb | hcb
    · exact ⟨τ', rfl, hcb.trans hnone⟩
    · exact ⟨τ', rfl, hcb⟩
  · exact ⟨σ, hσ, hnone⟩

theorem Sound.made_insert (h : Sound s) {x d t : ℕ} {n : ℕ} (hx : x < n)
    (hn : s.m.timers.length ≤ n) :
    ∀ y ∈ (if t ≤ d then x :: s.accepted else s.accepted), y < n := by
  intro y hy
  split at hy
  · rcases List.mem_cons.mp hy with rfl | hy
    · exact hx
    · exact (h.made y hy).trans_le hn
  · exact (h.made y hy).trans_le hn

theorem length_made (m : TimerManager Cb) (ms : ℕ) (cb : Option Cb) (recurring : Bool) (t₁ t₂ : ℕ) :
    (m.addTimer ms cb recurring t₁ t₂).2.timers.length = m.timers.length + 1 := by
  rw [addTimer, place]
  simp

theorem sound_step (h : Sound s) (hstep : step s o = .ok s') : Sound s' := by
  cases step_outcome hstep with
  | made ms cb recurring t₁ t₂ =>
    refine ⟨balance_insert _ _ _ h.balance, ?_, fun y hy => ?_⟩
    · have hlen := length_made s.m ms cb recurring t₁ t₂
      exact h.made_insert (by rw [Run.note]; dsimp only; omega) (by rw [Run.note]; dsimp only; omega)
    · obtain ⟨σ, hσ, hnone⟩ := h.dead y hy
      refine ⟨σ, ?_, hnone⟩
      have hy' := (List.getElem?_eq_some_iff.mp hσ).1
      rw [Run.note]
      dsimp only
      rw [getElem?_made, if_neg (by omega)]
      exact hσ
  | moved _ hx _ hcb _ _ =>
    have hlt := (List.getElem?_eq_some_iff.mp hx).1
    refine ⟨balance_insert _ _ _ h.balance, ?_, h.dead_write hx (.inl hcb)⟩
    exact h.made_insert (by simpa [Run.note, place] using hlt) (by simp [Run.note, place])
  | ignored _ _ => exact h
  | @cancelled x τ hx _ =>
    refine ⟨h.balance, by simpa using h.made, ?_⟩
    have hgone := getElem?_write hx { τ with m_cb := none } x
    rw [if_pos rfl] at hgone
    exact List.forall_mem_cons.mpr ⟨⟨_, hgone, rfl⟩, h.dead_write hx (.inr rfl)⟩
  | scanned now_ms hget =>
    refine ⟨?_, h.made, h.dead⟩
    have hscan := (TimeWheel.scan_of_some hget).contents_perm
    rename_i now expired w
    have hpending : (s.calls ++ [(now_ms, expired)]).flatMap Prod.snd = s.pending ++ expired := by
      simp [Run.pending]
    calc s.accepted
      _ ~ s.contents ++ (s.pending ++ s.delivered) := h.balance
      _ ~ w.contents ++ expired ++ (s.pending ++ s.delivered) := hscan.append_right _
      _ ~ w.contents ++ (s.pending ++ expired ++ s.delivered) := by
        rw [List.append_assoc, List.append_assoc]
        exact (List.perm_append_comm_assoc _ _ _).append_left _
      _ = w.contents ++ ((s.calls ++ [(now_ms, expired)]).flatMap Prod.snd ++ s.delivered) := by
        rw [hpending]
  | again t hc hx hrec =>
    have hlt := (List.getElem?_eq_some_iff.mp hx).1
    refine ⟨?_, ?_, h.dead_write hx (.inl rfl)⟩
    · exact balance_insert _ _ _ (h.balance.trans ((moves hc s.handed _).append_left _))
    · exact h.made_insert (by simpa [Run.note, place] using hlt) (by simp [Run.note, place])
  | once t hc hx hrec =>
    refine ⟨h.balance.trans ?_, by simpa using h.made, h.dead_write hx (.inr rfl)⟩
    exact (moves hc s.handed _).append_left _

/-- Each timer is in the wheel at most once, and each insertion is handed out at most once. -/
def Single (s : Run Cb) : Prop := s.contents.Nodup ∧ ∀ x, s.delivered.count x ≤ s.accepted.count x

/-- The timer is not in the wheel when the wheel takes it. -/
def Enters (s : Run Cb) : Effect → Prop
  | .insert x d t => t ≤ d → x ∉ s.contents
  | .none | .scan _ _ => True

theorem Sound.single_iff (h : Sound s) : Single s ↔ s.contents.Nodup := by
  refine ⟨And.left, fun hnodup => ⟨hnodup, fun x => ?_⟩⟩
  rw [h.balance.count_eq, List.count_append, List.count_append]
  omega

theorem nodup_step_iff (hstep : step s o = .ok s') (hnodup : s.contents.Nodup) :
    s'.contents.Nodup ↔ Enters s (effect s o) := by
  have happlies := step_applies hstep
  cases heff : effect s o with
  | none =>
    rw [heff] at happlies
    rw [Run.contents, happlies.1]
    exact ⟨fun _ => trivial, fun _ => hnodup⟩
  | insert x d t =>
    rw [heff] at happlies
    rw [Run.contents, happlies.1, Enters]
    by_cases hd : t ≤ d
    · rw [(TimeWheel.contents_addTimer hd).nodup_iff, List.nodup_cons]
      exact ⟨fun h _ => h.1, fun h => ⟨h hd, hnodup⟩⟩
    · rw [TimeWheel.addTimer_rejected (not_le.mp hd)]
      exact ⟨fun _ hle => absurd hle hd, fun _ => hnodup⟩
  | scan now now_ms =>
    rw [heff] at happlies
    obtain ⟨expired, hget, -⟩ := happlies
    have hscan := (TimeWheel.scan_of_some hget).contents_perm
    refine ⟨fun _ => trivial, fun _ => ?_⟩
    exact ((hscan.nodup_iff.mp hnodup).sublist (List.sublist_append_left _ _))

/-- In every run each timer is in the wheel at most once exactly when the wheel only takes
timers that are not in it. -/
theorem single_iff_enters (os : List (Op Cb)) :
    Along step Single (Run.init : Run Cb) os ↔
      Each step (fun s o => Enters s (effect s o)) (Run.init : Run Cb) os := by
  refine along_iff_each Sound _ (fun _ _ => True) _ ?_ os _ sound_init ?_ (each_true os _)
  · intro s o s' hs hsingle _ hstep
    have hs' := sound_step hs hstep
    exact ⟨hs', hs'.single_iff.trans (nodup_step_iff hstep hsingle.1)⟩
  · rw [sound_init.single_iff, Run.contents, Run.init, TimerManager.new, TimeWheel.new_contents]
    exact List.nodup_nil

/-- `refresh` before the deadline leaves the old entry, and both are handed out. -/
theorem refresh_enters_twice :
    ¬ Along step Single (Run.init : Run Unit)
      [.addTimer 1000 (some ()) false 0 0, .refresh 0 500 500] := by
  intro h
  have hnodup := ((h.2 _ rfl).2 _ rfl).1
  exact absurd hnodup (by decide)

/-- The step puts no cancelled timer into the wheel and hands out no callback for one. -/
def Quiet (s s' : Run Cb) : Prop :=
  ∀ x ∈ s.cancelled, s'.contents.count x ≤ s.contents.count x ∧
    ∀ e ∈ s'.handed.drop s.handed.length, e.1 = x → e.2 = none

/-- `listExpiredCb` does not come to a cancelled timer that is recurring, unless its next
deadline is over already. -/
def RevivesNone (s : Run Cb) : Op Cb → Prop
  | .handOut c t => ∀ call ∈ s.calls[c]?, ∀ x ∈ call.2.head?, ∀ τ ∈ s.m.timers[x]?,
      x ∈ s.cancelled → τ.m_recurring → deadline call.1 τ.m_ms < t
  | _ => True

instance (s : Run Cb) : ∀ o, Decidable (RevivesNone s o)
  | .handOut c t => inferInstanceAs (Decidable (∀ call ∈ s.calls[c]?, ∀ x ∈ call.2.head?,
      ∀ τ ∈ s.m.timers[x]?, x ∈ s.cancelled → τ.m_recurring → deadline call.1 τ.m_ms < t))
  | .addTimer _ _ _ _ _ | .refresh _ _ _ | .reset _ _ _ _ _ | .cancel _ | .takeExpired _ _ =>
      .isTrue trivial

theorem revivesNone_handOut {c t now_ms x : ℕ} {rest : List ℕ} {τ : Timer Cb}
    (hc : s.calls[c]? = some (now_ms, x :: rest)) (hx : s.m.timers[x]? = some τ) :
    RevivesNone s (.handOut c t) ↔
      (x ∈ s.cancelled → τ.m_recurring → deadline now_ms τ.m_ms < t) := by
  simp [RevivesNone, hc, hx]

theorem count_addTimer {w : TimeWheel} (x y d t : ℕ) :
    (w.addTimer x d t).2.contents.count y =
      if t ≤ d ∧ x = y then w.contents.count y + 1 else w.contents.count y := by
  by_cases hd : t ≤ d
  · rw [(TimeWheel.contents_addTimer hd).count_eq, List.count_cons]
    by_cases hxy : x = y
    · simp [hd, hxy]
    · simp [hxy]
  · rw [TimeWheel.addTimer_rejected (not_le.mp hd)]
    simp [hd]

theorem Sound.not_cancelled (h : Sound s) {x : ℕ} {τ : Timer Cb} (hx : s.m.timers[x]? = some τ)
    (hcb : τ.m_cb.isSome) : x ∉ s.cancelled := by
  intro hmem
  obtain ⟨σ, hσ, hnone⟩ := h.dead x hmem
  obtain rfl := Option.some.inj (hx.symm.trans hσ)
  rw [hnone] at hcb
  exact absurd hcb (by simp)

/-- What is handed out for a timer is its callback, and a cancelled one has none. -/
theorem Sound.hands_none (h : Sound s) {x y : ℕ} {τ : Timer Cb} (hx : s.m.timers[x]? = some τ)
    (hy : y ∈ s.cancelled) : ∀ e ∈ (s.handed ++ [(x, τ.m_cb)]).drop s.handed.length,
      e.1 = y → e.2 = none := by
  intro e he heq
  rw [List.drop_left, List.mem_singleton] at he
  subst he
  subst heq
  obtain ⟨σ, hσ, hnone⟩ := h.dead x hy
  obtain rfl := Option.some.inj (hx.symm.trans hσ)
  exact hnone

theorem revivesNone_of_timer {x : ℕ} (ho : o.timer = some x) : RevivesNone s o := by
  cases o with
  | handOut c t => exact absurd ho (by rintro ⟨⟩)
  | _ => trivial

theorem Sound.quiet_iff (h : Sound s) (hstep : step s o = .ok s') :
    Quiet s s' ↔ RevivesNone s o := by
  have hsilent : ∀ x, ∀ e ∈ s.handed.drop s.handed.length, e.1 = x → e.2 = none := by simp
  cases step_outcome hstep with
  | made ms cb recurring t₁ t₂ =>
    refine ⟨fun _ => trivial, fun _ y hy => ⟨?_, hsilent y⟩⟩
    have hne : s.m.timers.length ≠ y := by
      obtain ⟨σ, hσ, -⟩ := h.dead y hy
      exact (List.getElem?_eq_some_iff.mp hσ).1.ne'
    have hcount := count_addTimer (w := s.m.m_timeWheel) s.m.timers.length y (deadline t₁ ms) t₂
    rw [if_neg fun hand => hne hand.2] at hcount
    exact hcount.le
  | @moved _ x t τ τ' ho hx hcb _ _ heff =>
    refine ⟨fun _ => revivesNone_of_timer ho, fun _ y hy => ⟨?_, hsilent y⟩⟩
    have hne : x ≠ y := by
      rintro rfl
      exact h.not_cancelled hx hcb hy
    have hcount := count_addTimer (w := s.m.m_timeWheel) x y τ'.m_next t
    rw [if_neg fun hand => hne hand.2] at hcount
    exact hcount.le
  | ignored ho _ =>
    exact ⟨fun _ => revivesNone_of_timer ho, fun _ y _ => ⟨Nat.le_refl _, hsilent y⟩⟩
  | cancelled hx _ => exact ⟨fun _ => trivial, fun _ y _ => ⟨Nat.le_refl _, hsilent y⟩⟩
  | scanned now_ms hget =>
    refine ⟨fun _ => trivial, fun _ y _ => ⟨?_, hsilent y⟩⟩
    have hcount := (TimeWheel.scan_of_some hget).contents_perm.count_eq y
    rw [List.count_append] at hcount
    exact Nat.le.intro hcount.symm
  | @again c now_ms x rest τ t hc hx hrec =>
    have hcount := fun y =>
      count_addTimer (w := s.m.m_timeWheel) x y (deadline now_ms τ.m_ms) t
    rw [revivesNone_handOut hc hx]
    constructor
    · intro hquiet hmem _
      by_contra hge
      have hle : (s.m.m_timeWheel.addTimer x (deadline now_ms τ.m_ms) t).2.contents.count x ≤
        s.contents.count x := (hquiet x hmem).1
      rw [hcount, if_pos ⟨not_lt.mp hge, rfl⟩, Run.contents] at hle
      omega
    · intro hnone y hy
      refine ⟨?_, h.hands_none hx hy⟩
      have hno : ¬ (t ≤ deadline now_ms τ.m_ms ∧ x = y) := by
        rintro ⟨hle, rfl⟩
        exact absurd (hnone hy hrec) (not_lt.mpr hle)
      have hsame := hcount y
      rw [if_neg hno] at hsame
      exact hsame.le
  | @once c now_ms x rest τ t hc hx hrec =>
    rw [revivesNone_handOut hc hx]
    exact ⟨fun _ _ hrec' => absurd hrec' hrec, fun _ y hy => ⟨Nat.le_refl _, h.hands_none hx hy⟩⟩

theorem cancelled_stays (hstep : step s o = .ok s') {x : ℕ} (hx : x ∈ s.cancelled) :
    x ∈ s'.cancelled := by
  cases step_outcome hstep with
  | cancelled => exact List.mem_cons_of_mem _ hx
  | _ => exact hx

/-- `hasTimer` and `stopping` no longer wait for a timer. -/
def AtRest (m : TimerManager Cb) : Prop :=
  ∀ now, m.hasTimer now = false ∧ ∀ stops, m.stopping 0 stops now = stops

theorem atRest_of_empty {m : TimerManager Cb} (h : m.m_timeWheel.contents = []) : AtRest m := by
  intro now
  have hnext := TimeWheel.getNextTimer_empty h now
  refine ⟨?_, fun stops => ?_⟩
  · rw [hasTimer, hnext]
    rfl
  · rw [stopping, getNextTimer, hnext]
    rfl

/-- From any state of a run on, no step concerns a cancelled timer exactly when
`listExpiredCb` does not come to one that is recurring. Then a cancelled timer that is no
longer in the wheel stays out of it, and where all others are gone nothing is waited for. -/
theorem cancelled_quiet_iff {os₁ os₂ : List (Op Cb)} (hrun : os₁.foldlM step Run.init = .ok s) :
    (Each step (fun s o => ∀ s', step s o = .ok s' → Quiet s s') s os₂ ↔
      Each step RevivesNone s os₂) ∧
    (Each step RevivesNone s os₂ → ∀ x ∈ s.cancelled, x ∉ s.contents →
      Along step (fun s => x ∉ s.contents ∧ ((∀ y ∈ s.contents, y = x) → AtRest s.m)) s os₂) := by
  have hsound : Sound s := of_foldlM (fun _ _ _ => sound_step) sound_init hrun
  constructor
  · refine each_iff_each Sound _ _ ?_ os₂ s hsound
    intro s o s' hs hstep
    refine ⟨sound_step hs hstep, fun hquiet => (hs.quiet_iff hstep).mp (hquiet s' hstep), ?_⟩
    intro hnone s'' hstep'
    exact (hs.quiet_iff hstep').mpr hnone
  · intro hnone x hx hout
    have hstay := along_of_each (fun s => Sound s ∧ x ∈ s.cancelled ∧ x ∉ s.contents) RevivesNone
      (fun s o s' hs ho hstep => ?_) os₂ s ⟨hsound, hx, hout⟩ hnone
    · refine hstay.mono fun s hs => ⟨hs.2.2, fun hall => atRest_of_empty ?_⟩
      refine List.eq_nil_iff_forall_not_mem.mpr fun y hy => hs.2.2 ?_
      rw [← hall y hy]
      exact hy
    · obtain ⟨hs, hx, hout⟩ := hs
      refine ⟨sound_step hs hstep, cancelled_stays hstep hx, ?_⟩
      have hcount := ((hs.quiet_iff hstep).mpr ho x hx).1
      rw [List.count_eq_zero_of_not_mem hout] at hcount
      exact List.count_eq_zero.mp (Nat.le_zero.mp hcount)

/-- A timer that is not recurring is cancelled, and a scan takes it out of the wheel. -/
def cancelledOnce : List (Op Unit) :=
  [.addTimer 1000 (some ()) false 0 0, .addTimer 5000 (some ()) true 0 0, .cancel 0,
    .takeExpired 1000 1000]

theorem cancelled_quiet_iff_once :
    ∃ s : Run Unit, cancelledOnce.foldlM step Run.init = .ok s ∧
      Each step (fun s o => ∀ s', step s o = .ok s' → Quiet s s') s [.handOut 0 1000] ∧
      Along step (fun s => 0 ∉ s.contents ∧ ((∀ y ∈ s.contents, y = 0) → AtRest s.m)) s
        [.handOut 0 1000] := by
  refine ⟨_, rfl, ?_, ?_⟩
  · exact (cancelled_quiet_iff (show cancelledOnce.foldlM step Run.init = .ok _ from rfl)).1.mpr
      (by decide +kernel)
  · exact (cancelled_quiet_iff (show cancelledOnce.foldlM step Run.init = .ok _ from rfl)).2
      (by decide +kernel) 0 (by decide) (by decide)

/-- A recurring timer is cancelled, and `listExpiredCb` puts it back into the wheel. -/
theorem cancelled_timer_comes_back :
    ¬ Each step (fun s o => ∀ s', step s o = .ok s' → Quiet s s') (Run.init : Run Unit)
      [.addTimer 1000 (some ()) true 0 0, .addTimer 5000 (some ()) false 0 0, .cancel 0,
        .takeExpired 1000 1000, .handOut 0 1000] := by
  intro h
  have hquiet := (((((h _ rfl).2 _ rfl).2 _ rfl).2 _ rfl).2 _ rfl).1 _ rfl
  exact absurd (hquiet 0 (by decide)).1 (by decide)

/-- The timer is in the wheel, or a call of `listExpiredCb` has it, or its callback was
handed out. -/
def Kept (x : ℕ) (cb : Option Cb) (s : Run Cb) : Prop :=
  x ∈ s.contents ∨ x ∈ s.pending ∨ (x, cb) ∈ s.handed

/-- As long as the callback was not handed out, the timer has it. -/
def Holds (x : ℕ) (cb : Option Cb) (s : Run Cb) : Prop :=
  (x, cb) ∈ s.handed ∨
    ((x ∈ s.contents ∨ x ∈ s.pending) ∧ ∃ τ, s.m.timers[x]? = some τ ∧ τ.m_cb = cb)

def Lost (x : ℕ) (s : Run Cb) : Prop := x < s.m.timers.length ∧ x ∉ s.accepted

theorem mem_addTimer {w : TimeWheel} {x y d t : ℕ} (h : x ∈ w.contents) :
    x ∈ (w.addTimer y d t).2.contents := by
  by_cases hd : t ≤ d
  · exact (TimeWheel.contents_addTimer hd).mem_iff.mpr (List.mem_cons_of_mem _ h)
  · rwa [TimeWheel.addTimer_rejected (not_le.mp hd)]

theorem pending_or_head {calls : List (ℕ × List ℕ)} {c now_ms x y : ℕ} {rest : List ℕ}
    (hc : calls[c]? = some (now_ms, y :: rest)) (hx : x ∈ calls.flatMap Prod.snd) :
    x = y ∨ x ∈ (calls.set c (now_ms, rest)).flatMap Prod.snd := by
  have hmoves := moves hc ([] : List (ℕ × Option Unit)) none
  rw [List.map_nil, List.append_nil] at hmoves
  rcases List.mem_append.mp (hmoves.mem_iff.mp hx) with h | h
  · exact .inr h
  · exact .inl (by simpa using h)

theorem holds_step {x : ℕ} {cb : Option Cb} (h : Holds x cb s) (ho : o.timer ≠ some x)
    (hstep : step s o = .ok s') : Holds x cb s' := by
  rcases h with hdone | ⟨hin, τ, hτ, hcb⟩
  · left
    cases step_outcome hstep with
    | again => exact List.mem_append_left _ hdone
    | once => exact List.mem_append_left _ hdone
    | _ => exact hdone
  · cases step_outcome hstep with
    | made ms cb' recurring t₁ t₂ =>
      refine .inr ⟨hin.imp mem_addTimer id, τ, ?_, hcb⟩
      have hlt := (List.getElem?_eq_some_iff.mp hτ).1
      have hsame := getElem?_made s.m ms cb' recurring t₁ t₂ x
      rw [if_neg hlt.ne, hτ] at hsame
      exact hsame
    | moved ho' hy =>
      refine .inr ⟨hin.imp mem_addTimer id, τ, ?_, hcb⟩
      have hne : x ≠ _ := fun heq => ho (heq ▸ ho')
      exact (getElem?_write hy _ x).trans ((if_neg hne).trans hτ)
    | ignored => exact .inr ⟨hin, τ, hτ, hcb⟩
    | cancelled hy _ =>
      refine .inr ⟨hin, τ, ?_, hcb⟩
      have hne : x ≠ _ := fun heq => ho (heq ▸ rfl)
      exact (getElem?_write hy _ x).trans ((if_neg hne).trans hτ)
    | scanned now_ms hget =>
      refine .inr ⟨?_, τ, hτ, hcb⟩
      have hscan := (TimeWheel.scan_of_some hget).contents_perm
      rcases hin with hin | hin
      · rcases List.mem_append.mp (hscan.mem_iff.mp hin) with hin | hin
        · exact .inl hin
        · exact .inr (List.mem_flatMap.mpr ⟨_, List.mem_append_right _ List.mem_cons_self, hin⟩)
      · right
        obtain ⟨call, hcall, hx⟩ := List.mem_flatMap.mp hin
        exact List.mem_flatMap.mpr ⟨call, List.mem_append_left _ hcall, hx⟩
    | @again c now_ms y rest τ' t hc hy hrec =>
      by_cases hxy : x = y
      · subst hxy
        obtain rfl := Option.some.inj (hτ.symm.trans hy)
        exact .inl (List.mem_append_right _ (by rw [hcb]; exact List.mem_cons_self))
      · refine .inr ⟨?_, τ, (getElem?_write hy _ x).trans ((if_neg hxy).trans hτ), hcb⟩
        exact hin.imp mem_addTimer fun hp => (pending_or_head hc hp).resolve_left hxy
    | @once c now_ms y rest τ' t hc hy hrec =>
      by_cases hxy : x = y
      · subst hxy
        obtain rfl := Option.some.inj (hτ.symm.trans hy)
        exact .inl (List.mem_append_right _ (by rw [hcb]; exact List.mem_cons_self))
      · refine .inr ⟨?_, τ, (getElem?_write hy _ x).trans ((if_neg hxy).trans hτ), hcb⟩
        exact hin.imp id fun hp => (pending_or_head hc hp).resolve_left hxy

theorem Holds.kept {x : ℕ} {cb : Option Cb} (h : Holds x cb s) : Kept x cb s := by
  rcases h with h | ⟨h | h, -⟩
  · exact .inr (.inr h)
  · exact .inl h
  · exact .inr (.inl h)

theorem Sound.mem_accepted (h : Sound s) {x : ℕ}
    (hx : x ∈ s.contents ∨ x ∈ s.pending ∨ x ∈ s.delivered) : x ∈ s.accepted := by
  rw [h.balance.mem_iff, List.mem_append, List.mem_append]
  exact hx

theorem Sound.fresh (h : Sound s) : s.m.timers.length ∉ s.accepted := fun hmem =>
  absurd (h.made _ hmem) (Nat.lt_irrefl _)

theorem lost_step {x : ℕ} (h : Sound s) (hlost : Lost x s) (ho : o.timer ≠ some x)
    (hstep : step s o = .ok s') : Lost x s' := by
  obtain ⟨hlt, hout⟩ := hlost
  have hinsert : ∀ {y d t : ℕ}, x ≠ y → x ∉ if t ≤ d then y :: s.accepted else s.accepted := by
    intro y d t hne hmem
    split at hmem
    · exact (List.mem_cons.mp hmem).elim hne hout
    · exact hout hmem
  cases step_outcome hstep with
  | made ms cb recurring t₁ t₂ =>
    refine ⟨?_, hinsert hlt.ne⟩
    exact hlt.trans_le ((Nat.le_succ _).trans (length_made s.m ms cb recurring t₁ t₂).ge)
  | moved ho' _ =>
    exact ⟨by simpa [Run.note, place] using hlt, hinsert fun heq => ho (heq ▸ ho')⟩
  | ignored => exact ⟨hlt, hout⟩
  | cancelled => exact ⟨by simpa using hlt, hout⟩
  | scanned => exact ⟨hlt, hout⟩
  | @again c now_ms y rest τ t hc _ _ =>
    refine ⟨by simpa [Run.note, place] using hlt, hinsert ?_⟩
    rintro rfl
    have hpending : x ∈ s.pending :=
      List.mem_flatMap.mpr ⟨_, List.mem_of_getElem? hc, List.mem_cons_self⟩
    exact hout (h.mem_accepted (.inr (.inl hpending)))
  | once => exact ⟨by simpa using hlt, hout⟩

/-- The wheel takes a new timer exactly when the deadline, as a 64-bit number, is not over
when the wheel reads the clock. -/
theorem registers_iff (h : Sound s) (ms : ℕ) (cb : Option Cb) (recurring : Bool) (t₁ t₂ : ℕ) :
    (s.m.addTimer ms cb recurring t₁ t₂).1 ∈
      (s.m.addTimer ms cb recurring t₁ t₂).2.m_timeWheel.contents ↔ t₂ ≤ deadline t₁ ms := by
  have hnew : s.m.timers.length ∉ s.contents := fun hmem => h.fresh (h.mem_accepted (.inl hmem))
  change s.m.timers.length ∈
    (s.m.m_timeWheel.addTimer s.m.timers.length (deadline t₁ ms) t₂).2.contents ↔ _
  by_cases hd : t₂ ≤ deadline t₁ ms
  · exact ⟨fun _ => hd, fun _ => (TimeWheel.contents_addTimer hd).mem_iff.mpr List.mem_cons_self⟩
  · rw [TimeWheel.addTimer_rejected (not_le.mp hd)]
    exact ⟨fun hmem => absurd hmem hnew, fun hle => absurd hle hd⟩

/-- In any state of a run, a new timer is taken by the wheel exactly when its deadline is not
over when the wheel reads the clock. Then every later run that leaves the timer alone keeps
it until its callback is handed out; otherwise the callback is never handed out. -/
theorem new_timer_kept_iff {os₁ os₂ : List (Op Cb)} {s₁ : Run Cb} {ms : ℕ} {cb : Option Cb}
    {recurring : Bool} {t₁ t₂ : ℕ} (hrun : os₁.foldlM step Run.init = .ok s)
    (hadd : step s (.addTimer ms cb recurring t₁ t₂) = .ok s₁)
    (hos : ∀ o ∈ os₂, o.timer ≠ some s.m.timers.length) :
    ((s.m.addTimer ms cb recurring t₁ t₂).1 ∈
        (s.m.addTimer ms cb recurring t₁ t₂).2.m_timeWheel.contents ↔ t₂ ≤ deadline t₁ ms) ∧
      (Along step (Kept s.m.timers.length cb) s₁ os₂ ↔ t₂ ≤ deadline t₁ ms) ∧
      (deadline t₁ ms < t₂ → Along step (fun s' => ¬ Kept s.m.timers.length cb s') s₁ os₂) ∧
      ∀ usec resume, (usleep s.m usec resume t₁ t₂).1 ∈
        (usleep s.m usec resume t₁ t₂).2.m_timeWheel.contents ↔ t₂ ≤ deadline t₁ (usec / 1000) := by
  have hsound : Sound s := of_foldlM (fun _ _ _ => sound_step) sound_init hrun
  have hregisters := registers_iff hsound ms cb recurring t₁ t₂
  have hpermit : Each step (fun _ o => o.timer ≠ some s.m.timers.length) s₁ os₂ :=
    each_of_forall hos
  have hlost : deadline t₁ ms < t₂ →
      Along step (fun s' => ¬ Kept s.m.timers.length cb s') s₁ os₂ := by
    intro hd
    have hstays := along_of_each (fun s' => Sound s' ∧ Lost s.m.timers.length s') _
      (fun s o s' hs ho hstep => ⟨sound_step hs.1 hstep, lost_step hs.1 hs.2 ho hstep⟩) os₂ s₁
      ⟨sound_step hsound hadd, ?_⟩ hpermit
    · exact hstays.mono fun s' hs hkept => hs.2.2 (hs.1.mem_accepted
        (hkept.imp id (Or.imp id List.mem_map_of_mem)))
    · obtain ⟨-, -, -, haccepted⟩ := step_applies hadd
      constructor
      · obtain rfl := Except.ok.inj hadd
        exact (Nat.lt_succ_self _).trans_le (length_made s.m ms cb recurring t₁ t₂).ge
      · rw [haccepted, if_neg (not_le.mpr hd)]
        exact hsound.fresh
  refine ⟨hregisters, ⟨fun hkept => ?_, fun hd => ?_⟩, hlost,
    fun usec resume => registers_iff hsound _ _ _ t₁ t₂⟩
  · by_contra hd
    exact (hlost (not_le.mp hd)).head hkept.head
  · have hholds := along_of_each (Holds s.m.timers.length cb) _
      (fun s o s' hs ho hstep => holds_step hs ho hstep) os₂ s₁ ?_ hpermit
    · exact hholds.mono fun s hs => hs.kept
    · obtain rfl := Except.ok.inj hadd
      refine .inr ⟨.inl (hregisters.mpr hd), Timer.new ms cb recurring t₁, ?_, rfl⟩
      exact (getElem?_made s.m ms cb recurring t₁ t₂ _).trans (if_pos rfl)

/-- A timer of 20 ms, made at 100 and taken at 105, beside one of 5000 ms. -/
theorem new_timer_kept_iff_taken :
    ∃ s s₁ : Run Unit, [Op.addTimer 5000 (some ()) false 0 0].foldlM step Run.init = .ok s ∧
      step s (.addTimer 20 (some ()) false 100 105) = .ok s₁ ∧
      Along step (Kept 1 (some ())) s₁ [.takeExpired 130 130, .cancel 0, .handOut 0 130] := by
  refine ⟨_, _, rfl, rfl, ?_⟩
  refine (new_timer_kept_iff (show [Op.addTimer 5000 (some ()) false 0 0].foldlM step Run.init =
    .ok _ from rfl) (show step _ (.addTimer 20 (some ()) false 100 105) = .ok _ from rfl)
    ?_).2.1.mpr (by decide)
  simp [Op.timer, Run.init, TimerManager.new, Run.note, effect, addTimer, place]

/-- A timer of 0 ms is made at 5, and the wheel reads 6: `addTimer` returns the timer, and
nothing has it. -/
theorem short_timer_is_dropped :
    ∃ s : Run Unit, step Run.init (.addTimer 0 (some ()) false 5 6) = .ok s ∧
      ¬ Kept 0 (some ()) s ∧ 0 ∉ (usleep (.new : TimerManager Unit) 0 () 5 6).2.m_timeWheel.contents := by
  refine ⟨_, rfl, ?_, by decide⟩
  rintro (h | h | h)
  · exact absurd h (by decide)
  · exact absurd h (by decide)
  · exact absurd h (by decide)

end TimerManager

end Sylar
