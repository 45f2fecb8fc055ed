import Sylar.Lib.Partial
import Sylar.Lib.Window
import Sylar.Spec.HolderStatsSet

/-! The slots hold what was counted in the last seconds, until the clock is at `2 ^ 32 - 1`. The
loop of `init` does not end there: it goes on with the slots of the first seconds. -/

namespace Sylar

open Lib

namespace HolderStatsSet

def Cleared (n : ℕ) (now : UInt32) (turns : ℕ) (t : UInt32) (j : ℕ) : Prop :=
  ∃ i < turns, (now.toNat = 2 ^ 32 - 1 ∨ t.toNat + i ≤ now.toNat) ∧ (t.toNat + i) % 2 ^ 32 % n = j

theorem cleared_succ {n turns j : ℕ} {now t : UInt32} (ht : t ≤ now) :
    Cleared n now (turns + 1) t j ↔ t.toNat % n = j ∨ Cleared n now turns (t + 1) j := by
  have htlt := t.toNat_lt
  have hnowlt := now.toNat_lt
  have hle := UInt32.le_iff_toNat_le.mp ht
  have hsucc : (t + 1).toNat = (t.toNat + 1) % 2 ^ 32 := UInt32.toNat_add t 1
  have hnext : ∀ i, ((t + 1).toNat + i) % 2 ^ 32 = (t.toNat + (i + 1)) % 2 ^ 32 := fun i => by
    rw [hsucc, Nat.mod_add_mod, Nat.add_right_comm, Nat.add_assoc]
  unfold Cleared
  constructor
  · rintro ⟨i, hi, hbound, hslot⟩
    cases i with
    | zero => exact .inl (by rwa [Nat.add_zero, Nat.mod_eq_of_lt htlt] at hslot)
    | succ i => exact .inr ⟨i, by omega, by omega, by rw [hnext]; exact hslot⟩
  · rintro (hslot | ⟨i, hi, hbound, hslot⟩)
    · exact ⟨0, by omega, .inr hle, by rwa [Nat.add_zero, Nat.mod_eq_of_lt htlt]⟩
    · exact ⟨i + 1, by omega, by omega, by rw [← hnext]; exact hslot⟩

theorem length_clearLoop (now : UInt32) (turns : ℕ) (t : UInt32) (stats : List HolderStats) :
    (clearLoop now turns t stats).length = stats.length := by
  induction turns generalizing t stats with
  | zero => rfl
  | succ turns ih =>
    rw [clearLoop]
    split
    · rw [ih, List.length_modify]
    · rfl

theorem getElem?_clearLoop (now : UInt32) (turns : ℕ) (t : UInt32) (stats : List HolderStats)
    (j : ℕ) :
    (Cleared stats.length now turns t j →
      (clearLoop now turns t stats)[j]? = stats[j]?.map fun _ => .new) ∧
    (¬ Cleared stats.length now turns t j → (clearLoop now turns t stats)[j]? = stats[j]?) := by
  induction turns generalizing t stats with
  | zero => exact ⟨fun ⟨i, hi, _⟩ => absurd hi (Nat.not_lt_zero i), fun _ => rfl⟩
  | succ turns ih =>
    rw [clearLoop]
    by_cases ht : t ≤ now
    · rw [if_pos ht, cleared_succ ht]
      obtain ⟨hclear, hkeep⟩ := ih (t + 1) (stats.modify (t.toNat % stats.length) .clear)
      rw [List.length_modify] at hclear hkeep
      by_cases hlater : Cleared stats.length now turns (t + 1) j
      · refine ⟨fun _ => ?_, fun hno => absurd (.inr hlater) hno⟩
        rw [hclear hlater, List.getElem?_modify, Option.map_eq_map, Option.map_map]
        rfl
      · rw [hkeep hlater]
        constructor
        · intro h
          rw [h.resolve_right hlater, List.getElem?_modify_eq]
          rfl
        · exact fun hno => List.getElem?_modify_ne _ _ fun heq => hno (.inl heq)
    · rw [if_neg ht]
      have htlt := t.toNat_lt
      rw [UInt32.le_iff_toNat_le] at ht
      exact ⟨fun ⟨i, _, hbound, _⟩ => absurd hbound (by omega), fun _ => rfl⟩

theorem toNat_succ {last now : UInt32} (hlt : last.toNat < now.toNat) :
    (last + 1).toNat = last.toNat + 1 := by
  have hnow := now.toNat_lt
  have hsucc : (last + 1).toNat = (last.toNat + 1) % 2 ^ 32 := UInt32.toNat_add last 1
  rw [hsucc, Nat.mod_eq_of_lt (by omega)]

theorem cleared_of_later {n s : ℕ} {last now : UInt32} (hs : last.toNat < s) (hle : s ≤ now.toNat)
    (hn : 0 < n) : Cleared n now n (last + 1) (s % n) := by
  have hnow := now.toNat_lt
  have hlast := toNat_succ (show last.toNat < now.toNat by omega)
  have hmod := Nat.mod_le (s - (last.toNat + 1)) n
  refine ⟨(s - (last.toNat + 1)) % n, Nat.mod_lt _ hn, by omega, ?_⟩
  rw [hlast, Nat.mod_eq_of_lt (show _ < 2 ^ 32 by omega), mod_shift (by omega)]

/-- Of the seconds that stay, those are cleared that a loop past the last second comes to. -/
theorem cleared_iff {n s : ℕ} {last now : UInt32} (hs : s ≤ last.toNat) (hin : now.toNat < s + n)
    (hlt : last.toNat < now.toNat) (hn : n < 2 ^ 32) :
    Cleared n now n (last + 1) (s % n) ↔
      now.toNat = 2 ^ 32 - 1 ∧ s % n + (now.toNat - last.toNat) < n := by
  have hnow := now.toNat_lt
  have hpos : 0 < n := by omega
  have hmod : s % n < n := Nat.mod_lt s hpos
  unfold Cleared
  rw [toNat_succ hlt]
  constructor
  · rintro ⟨i, hi, hbound, hslot⟩
    by_cases hwrap : last.toNat + 1 + i < 2 ^ 32
    · -- a second after the last one, which is too near to have the same slot
      rw [Nat.mod_eq_of_lt hwrap] at hslot
      have heq := eq_of_mod_eq (show s ≤ last.toNat + 1 + i by omega) (by omega) hslot.symm
      omega
    · have hafter : (last.toNat + 1 + i) % 2 ^ 32 = last.toNat + 1 + i - 2 ^ 32 := by omega
      rw [hafter, Nat.mod_eq_of_lt (by omega)] at hslot
      omega
  · rintro ⟨hmax, hfew⟩
    refine ⟨s % n + (now.toNat - last.toNat), hfew, .inl hmax, ?_⟩
    rw [show last.toNat + 1 + (s % n + (now.toNat - last.toNat)) = s % n + 2 ^ 32 by omega,
      Nat.add_mod_right, Nat.mod_eq_of_lt (show s % n < 2 ^ 32 by omega), Nat.mod_mod]

namespace History

variable {n : ℕ} {f f' : History} {c : Call}

/-- The slot of each of the last `n` seconds holds what was counted in it, and a slot of none of
them holds nothing. -/
def Windowed (n : ℕ) (f : History) : Prop :=
  Window n HolderStats.new f.counted f.latest.toNat f.set.m_stats

/-- Where a call moves the clock to its end, nothing was counted in the seconds whose slots the
loop of `init` comes to when it goes on from 0. -/
def KeepsWindow (n : ℕ) (f : History) (c : Call) : Prop :=
  f.latest < c.now → c.now.toNat = 2 ^ 32 - 1 → ∀ s, s ≤ f.latest.toNat → c.now.toNat < s + n →
    s % n + (c.now.toNat - f.latest.toNat) < n → f.counted s = .new

structure Sound (f : History) : Prop where
  lastUpdateTime : f.set.m_lastUpdateTime = f.latest
  le_latest : ∀ c ∈ f.calls, c.now ≤ f.latest

theorem latest_append (f : History) (c : Call) (set : HolderStatsSet) :
    latest ⟨set, f.calls ++ [c]⟩ = c.now := by
  unfold latest
  rw [List.getLast?_concat]

theorem counted_append (f : History) (c : Call) (set : HolderStatsSet) :
    counted ⟨set, f.calls ++ [c]⟩ =
      Function.update f.counted c.now.toNat
        (c.updates.foldl HolderStats.update (f.counted c.now.toNat)) := by
  funext s
  unfold counted
  dsimp only
  rw [List.filter_append, List.flatMap_append, List.foldl_append]
  by_cases hs : s = c.now.toNat
  · rw [hs, Function.update_self]
    simp
  · rw [Function.update_of_ne hs]
    simp [Ne.symm hs]

theorem Sound.counted_later (h : Sound f) {s : ℕ} (hs : f.latest.toNat < s) :
    f.counted s = .new := by
  have hnone : (f.calls.filter fun c => c.now.toNat = s) = [] := by
    rw [List.filter_eq_nil_iff]
    intro c hc
    have hle := UInt32.le_iff_toNat_le.mp (h.le_latest c hc)
    simp only [decide_eq_true_eq]
    omega
  unfold counted
  rw [hnone]
  rfl

theorem eq_latest (hle : f.latest ≤ c.now) (hlt : ¬ f.latest.toNat < c.now.toNat) :
    c.now = f.latest := by
  rw [UInt32.le_iff_toNat_le] at hle
  exact UInt32.toNat_inj.mp (by omega)

/-- `init` moves the window exactly when the call keeps to the condition. -/
theorem windowed_init (h : Sound f) (hw : Windowed n f) (hpos : 0 < n) (hn : n < 2 ^ 32)
    (hle : f.latest ≤ c.now) :
    Window n .new f.counted c.now.toNat (f.set.init c.now).m_stats ↔ KeepsWindow n f c := by
  unfold HolderStatsSet.init KeepsWindow
  rw [h.lastUpdateTime]
  simp only [UInt32.lt_iff_toNat_lt]
  by_cases hlt : f.latest.toNat < c.now.toNat
  · have hloop := getElem?_clearLoop c.now n (f.latest + 1) f.set.m_stats
    rw [hw.length_eq] at hloop
    have hclear : ∀ j < n, Cleared n c.now n (f.latest + 1) j →
        (clearLoop c.now n (f.latest + 1) f.set.m_stats)[j]? = some .new := by
      intro j hj hcleared
      rw [(hloop j).1 hcleared, List.getElem?_eq_getElem (by rw [hw.length_eq]; exact hj)]
      rfl
    rw [if_pos hlt, hw.length_eq, hw.move_iff hlt.le (fun s hs => h.counted_later hs)
      (fun s hs hs' => cleared_of_later hs hs' hpos) ((length_clearLoop _ _ _ _).trans hw.length_eq)
      hclear fun j _ hno => (hloop j).2 hno]
    constructor
    · intro hzero _ hmax s hs hin hfew
      exact hzero s hs hin ((cleared_iff hs hin hlt hn).mpr ⟨hmax, hfew⟩)
    · intro hkeeps s hs hin hcleared
      obtain ⟨hmax, hfew⟩ := (cleared_iff hs hin hlt hn).mp hcleared
      exact hkeeps hlt hmax s hs hin hfew
  · rw [if_neg hlt, eq_latest hle hlt]
    exact ⟨fun _ hlt' => absurd hlt' (Nat.lt_irrefl _), fun _ => hw⟩

theorem init_slot (h : Sound f) (hw : Windowed n f) (hpos : 0 < n) (hle : f.latest ≤ c.now) :
    (f.set.init c.now).m_stats[c.now.toNat % n]? = some (f.counted c.now.toNat) := by
  unfold HolderStatsSet.init
  rw [h.lastUpdateTime]
  simp only [UInt32.lt_iff_toNat_lt]
  by_cases hlt : f.latest.toNat < c.now.toNat
  · have hclear := cleared_of_later hlt le_rfl hpos
    have hmod : c.now.toNat % n < f.set.m_stats.length := by
      rw [hw.length_eq]
      exact Nat.mod_lt _ hpos
    have hloop := getElem?_clearLoop c.now n (f.latest + 1) f.set.m_stats (c.now.toNat % n)
    rw [hw.length_eq] at hloop
    rw [if_pos hlt, h.counted_later hlt, hw.length_eq, hloop.1 hclear, List.getElem?_eq_getElem hmod]
    rfl
  · rw [if_neg hlt, eq_latest hle hlt]
    exact hw.kept _ (by omega) le_rfl

theorem length_init (hw : Windowed n f) : (f.set.init c.now).m_stats.length = n := by
  unfold HolderStatsSet.init
  split
  · exact (length_clearLoop _ _ _ _).trans hw.length_eq
  · exact hw.length_eq

theorem lastUpdateTime_init (h : Sound f) (hle : f.latest ≤ c.now) :
    (f.set.init c.now).m_lastUpdateTime = c.now := by
  unfold HolderStatsSet.init
  rw [h.lastUpdateTime]
  simp only [UInt32.lt_iff_toNat_lt]
  by_cases hlt : f.latest.toNat < c.now.toNat
  · rw [if_pos hlt]
  · rw [if_neg hlt, eq_latest hle hlt]
    exact h.lastUpdateTime

theorem step_windowed (hpos : 0 < n) (hn : n < 2 ^ 32) (h : Sound f) (hw : Windowed n f)
    (hstep : step f c = .ok f') : Sound f' ∧ (Windowed n f' ↔ KeepsWindow n f c) := by
  simp only [step] at hstep
  split at hstep
  · next hle =>
    cases hstep
    refine ⟨⟨?_, fun d hd => ?_⟩, ?_⟩
    · rw [latest_append]
      exact lastUpdateTime_init h hle
    · rw [latest_append]
      rcases List.mem_append.mp hd with hd | hd
      · exact UInt32.le_trans (h.le_latest d hd) hle
      · rw [List.mem_singleton.mp hd]
        exact UInt32.le_refl _
    · rw [← windowed_init h hw hpos hn hle]
      unfold Windowed
      rw [latest_append, counted_append]
      change Window n _ _ _ ((f.set.init c.now).m_stats.modify
        (c.now.toNat % (f.set.init c.now).m_stats.length) _) ↔ _
      rw [length_init hw]
      exact Window.modify_iff (init_slot h hw hpos hle)
        fun x => c.updates.foldl HolderStats.update x
  · cases hstep

/-- Before the last second of the clock every call keeps to the condition. -/
theorem keepsWindow_of_ne (h : c.now.toNat ≠ 2 ^ 32 - 1) : KeepsWindow n f c :=
  fun _ hmax => absurd hmax h

/-- For every size of the ring and every run of calls with a `now` that does not decrease. -/
theorem windowed_iff (size : UInt32) (hsize : 1 ≤ size.toNat) (calls : List Call) :
    Along step (Windowed size.toNat) (init size) calls ↔
      Each step (KeepsWindow size.toNat) (init size) calls := by
  apply along_iff_each Sound (Windowed size.toNat) (fun _ _ => True) (KeepsWindow size.toNat)
  · exact fun f c f' h hw _ hstep => step_windowed hsize size.toNat_lt h hw hstep
  · exact ⟨rfl, nofun⟩
  · exact window_replicate size.toNat HolderStats.new 0
  · exact each_true calls _

/-- Gaps that are shorter than the ring, as long as it and longer. -/
def gaps : List Call :=
  [⟨3, [.incTotal 1]⟩, ⟨4, [.incOks 2]⟩, ⟨9, [.incTotal 3]⟩, ⟨700, []⟩]

theorem windowed_gaps : Along step (Windowed 5) (init 5) gaps := by
  have hearly : Each step (fun _ c => c.now.toNat ≠ 2 ^ 32 - 1) (init 5) gaps :=
    each_of_forall (by decide)
  exact (windowed_iff 5 (by decide) gaps).mpr (hearly.mono fun f c h => keepsWindow_of_ne h)

def endOfClock : List Call :=
  [⟨4294967293, [.incTotal 1]⟩, ⟨4294967294, []⟩, ⟨4294967295, []⟩]

/-- What was counted two seconds before is lost. -/
theorem endOfClock_clears : ¬ ∀ (size : UInt32) (calls : List Call), 1 ≤ size.toNat →
    Along step (Windowed size.toNat) (init size) calls := by
  intro hall
  have hlast := (hall 5 endOfClock (by decide)).last rfl
  have hkept := hlast.kept 4294967293 (by decide) (by decide)
  exact absurd hkept (by decide)

end History

end HolderStatsSet

end Sylar
