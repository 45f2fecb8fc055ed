import Mathlib.Algebra.BigOperators.Group.Finset.Basic
import Mathlib.Data.Multiset.Basic
import Mathlib.Tactic

/-! A queue of items, workers that take one item at a time, and a counter of the busy ones.
An item that was submitted stays in exactly one place. -/

namespace Lib

open Function

open scoped List

theorem sum_update {ι A γ : Type*} [Fintype ι] [DecidableEq ι] [AddCommMonoid A] (g : γ → A) (h : ι → γ)
    (w : ι) (c : γ) : ∑ v, g (update h w c v) + g (h w) = ∑ v, g (h v) + g c := by
  have hrest : ∑ v ∈ Finset.univ.erase w, g (update h w c v) =
      ∑ v ∈ Finset.univ.erase w, g (h v) := by
    apply Finset.sum_congr rfl
    intro v hv
    rw [update_of_ne (Finset.ne_of_mem_erase hv)]
  rw [← Finset.add_sum_erase _ _ (Finset.mem_univ w), hrest, update_self,
    ← Finset.add_sum_erase _ (fun v => g (h v)) (Finset.mem_univ w)]
  abel

/-- `taken` and `done` are records, the latest entry first. -/
structure Pool (ι α β : Type*) where
  queue : List α
  held : ι → Option α
  taken : List (α × ι)
  done : List (α × β)
  accepted : List α
  active : ℕ

/-- Where an item can be. -/
inductive Place (ι β : Type*) where
  | queued
  | held (w : ι)
  | done (b : β)

namespace Pool

variable {ι α β : Type*}

def start : Pool ι α β := ⟨[], fun _ => none, [], [], [], 0⟩

def At (p : Pool ι α β) (x : α) : Place ι β → Prop
  | .queued => x ∈ p.queue
  | .held w => p.held w = some x
  | .done b => (x, b) ∈ p.done

def submit (p : Pool ι α β) (x : α) : Pool ι α β :=
  { p with queue := p.queue ++ [x], accepted := p.accepted ++ [x] }

def take [DecidableEq ι] (M : ℕ) (p : Pool ι α β) (w : ι) (x : α) (q : List α) : Pool ι α β :=
  { p with
    queue := q
    held := update p.held w (some x)
    taken := (x, w) :: p.taken
    active := (p.active + 1) % M }

def retire [DecidableEq ι] (M : ℕ) (p : Pool ι α β) (w : ι) (x : α) (b : β) : Pool ι α β :=
  { p with
    held := update p.held w none
    done := (x, b) :: p.done
    active := (p.active + (M - 1)) % M }

inductive Step [DecidableEq ι] (M : ℕ) (mayTake : α → ι → Prop) (mayEnd : α → β → Prop)
    (p : Pool ι α β) : Pool ι α β → Prop
  | submit (x : α) (hx : x ∉ p.accepted) : Step M mayTake mayEnd p (p.submit x)
  | take (w : ι) (x : α) (q : List α) (hw : p.held w = none) (hq : p.queue ~ x :: q)
      (hx : mayTake x w) : Step M mayTake mayEnd p (p.take M w x q)
  | retire (w : ι) (x : α) (b : β) (hw : p.held w = some x) (hb : mayEnd x b) :
      Step M mayTake mayEnd p (p.retire M w x b)

def hand : Option α → Multiset α
  | none => 0
  | some x => {x}

def ended (p : Pool ι α β) : Multiset α := (p.done.map Prod.fst : List α)

theorem mem_ended {p : Pool ι α β} {x : α} : x ∈ p.ended ↔ ∃ b, (x, b) ∈ p.done := by
  simp [ended]

variable [Fintype ι]

def inHand (p : Pool ι α β) : Multiset α := ∑ w, hand (p.held w)

structure Balanced (M : ℕ) (mayTake : α → ι → Prop) (mayEnd : α → β → Prop)
    (p : Pool ι α β) : Prop where
  conserved : (p.queue : Multiset α) + p.inHand + p.ended = p.accepted
  taken_eq : ((p.taken.map Prod.fst : List α) : Multiset α) = p.inHand + p.ended
  nodup : p.accepted.Nodup
  held_taken : ∀ w x, p.held w = some x → (x, w) ∈ p.taken
  may_take : ∀ e ∈ p.taken, mayTake e.1 e.2
  may_end : ∀ e ∈ p.done, mayEnd e.1 e.2
  active_eq : Fintype.card ι < M → p.active = p.inHand.card

theorem card_inHand (p : Pool ι α β) :
    p.inHand.card = (Finset.univ.filter fun w => (p.held w).isSome).card := by
  unfold inHand
  rw [Multiset.card_sum, Finset.card_filter]
  apply Finset.sum_congr rfl
  intro w _
  cases p.held w with
  | none => rfl
  | some x => rfl

theorem card_inHand_le (p : Pool ι α β) : p.inHand.card ≤ Fintype.card ι := by
  rw [card_inHand]
  exact Finset.card_le_univ _

section

variable {M : ℕ} {mayTake : α → ι → Prop} {mayEnd : α → β → Prop} {p p' : Pool ι α β}

theorem balanced_start : Balanced M mayTake mayEnd (start : Pool ι α β) where
  conserved := by simp [start, inHand, ended, hand]
  taken_eq := by simp [start, inHand, ended, hand]
  nodup := List.nodup_nil
  held_taken := by simp [start]
  may_take := by simp [start]
  may_end := by simp [start]
  active_eq := by simp [start, inHand, hand]

theorem mem_inHand {x : α} : x ∈ p.inHand ↔ ∃ w, p.held w = some x := by
  unfold inHand
  rw [Multiset.mem_sum]
  apply exists_congr
  intro w
  cases p.held w with
  | none => simp [hand]
  | some y => simp [hand, eq_comm]

theorem Balanced.taken_nodup (h : Balanced M mayTake mayEnd p) : (p.taken.map Prod.fst).Nodup := by
  have hnodup := Multiset.coe_nodup.mpr h.nodup
  rw [← h.conserved, add_assoc, ← h.taken_eq] at hnodup
  exact Multiset.coe_nodup.mp (Multiset.nodup_add.mp hnodup).2.1

/-- The queue, the hands and the record are without duplicates and apart. -/
theorem Balanced.nodup_parts (h : Balanced M mayTake mayEnd p) :
    (p.queue : Multiset α).Nodup ∧ (p.inHand.Nodup ∧ p.ended.Nodup ∧ Disjoint p.inHand p.ended) ∧
      Disjoint (p.queue : Multiset α) (p.inHand + p.ended) := by
  have hnodup := Multiset.coe_nodup.mpr h.nodup
  rw [← h.conserved, add_assoc, Multiset.nodup_add, Multiset.nodup_add] at hnodup
  exact hnodup

theorem Balanced.done_nodup (h : Balanced M mayTake mayEnd p) : (p.done.map Prod.fst).Nodup :=
  Multiset.coe_nodup.mp h.nodup_parts.2.1.2.1

theorem Balanced.queue_nodup (h : Balanced M mayTake mayEnd p) : p.queue.Nodup :=
  Multiset.coe_nodup.mp h.nodup_parts.1

theorem Balanced.mem_accepted_iff (h : Balanced M mayTake mayEnd p) {x : α} :
    x ∈ p.accepted ↔ x ∈ p.queue ∨ x ∈ p.inHand + p.ended := by
  rw [← Multiset.mem_coe, ← h.conserved, add_assoc, Multiset.mem_add, Multiset.mem_coe]

theorem Balanced.mem_accepted (h : Balanced M mayTake mayEnd p) {x : α} {place : Place ι β}
    (hplace : p.At x place) : x ∈ p.accepted := by
  rw [h.mem_accepted_iff, Multiset.mem_add]
  cases place with
  | queued => exact .inl hplace
  | held w => exact .inr (.inl (mem_inHand.mpr ⟨w, hplace⟩))
  | done b => exact .inr (.inr (mem_ended.mpr ⟨b, hplace⟩))

theorem Balanced.mem_taken_iff (h : Balanced M mayTake mayEnd p) {x : α} (hx : x ∈ p.accepted) :
    (∃ w, (x, w) ∈ p.taken) ↔ x ∉ p.queue := by
  have htaken : (∃ w, (x, w) ∈ p.taken) ↔ x ∈ p.inHand + p.ended := by
    rw [← h.taken_eq]
    simp
  rw [htaken]
  constructor
  · intro hr hq
    exact Multiset.disjoint_left.mp h.nodup_parts.2.2 hq hr
  · exact (h.mem_accepted_iff.mp hx).resolve_left

theorem Balanced.existsUnique_place (h : Balanced M mayTake mayEnd p) {x : α}
    (hx : x ∈ p.accepted) : ∃! place, p.At x place := by
  obtain ⟨-, ⟨-, -, hhand⟩, hqueue⟩ := h.nodup_parts
  have hqueue : x ∈ p.queue → x ∉ p.inHand ∧ x ∉ p.ended := by
    intro hq
    have hnot := Multiset.disjoint_left.mp hqueue (Multiset.mem_coe.mpr hq)
    rw [Multiset.mem_add, not_or] at hnot
    exact hnot
  have hhand : x ∈ p.inHand → x ∉ p.ended := fun hi => Multiset.disjoint_left.mp hhand hi
  rw [h.mem_accepted_iff, Multiset.mem_add] at hx
  rcases hx with hq | hi | he
  · refine ⟨.queued, hq, fun place hplace => ?_⟩
    cases place with
    | queued => rfl
    | held w => exact absurd (mem_inHand.mpr ⟨w, hplace⟩) (hqueue hq).1
    | done b => exact absurd (mem_ended.mpr ⟨b, hplace⟩) (hqueue hq).2
  · obtain ⟨w, hw⟩ := mem_inHand.mp hi
    refine ⟨.held w, hw, fun place hplace => ?_⟩
    cases place with
    | queued => exact absurd hi (hqueue hplace).1
    | held v =>
      have heq := List.inj_on_of_nodup_map h.taken_nodup (h.held_taken v x hplace)
        (h.held_taken w x hw) rfl
      rw [(Prod.mk.inj heq).2]
    | done b => exact absurd (mem_ended.mpr ⟨b, hplace⟩) (hhand hi)
  · obtain ⟨b, hb⟩ := mem_ended.mp he
    refine ⟨.done b, hb, fun place hplace => ?_⟩
    cases place with
    | queued => exact absurd he (hqueue hplace).2
    | held w => exact absurd he (hhand (mem_inHand.mpr ⟨w, hplace⟩))
    | done c =>
      have heq := List.inj_on_of_nodup_map h.done_nodup hplace hb rfl
      rw [(Prod.mk.inj heq).2]

theorem Balanced.submit (h : Balanced M mayTake mayEnd p) {x : α} (hx : x ∉ p.accepted) :
    Balanced M mayTake mayEnd (p.submit x) := by
  refine ⟨?_, h.taken_eq, ?_, h.held_taken, h.may_take, h.may_end, h.active_eq⟩
  · calc ((p.queue ++ [x] : List α) : Multiset α) + p.inHand + p.ended
        = p.queue + p.inHand + p.ended + ({x} : Multiset α) := by
          rw [← Multiset.coe_add, Multiset.coe_singleton]
          abel
      _ = ((p.accepted ++ [x] : List α) : Multiset α) := by
          rw [h.conserved, ← Multiset.coe_add, Multiset.coe_singleton]
  · show (p.accepted ++ [x]).Nodup
    simpa only [List.concat_eq_append] using h.nodup.concat hx

variable [DecidableEq ι]

theorem inHand_take {w : ι} {x : α} {q : List α} (hw : p.held w = none) :
    (p.take M w x q).inHand = x ::ₘ p.inHand := by
  have h := sum_update hand p.held w (some x)
  rw [hw] at h
  simpa [hand, inHand, take, add_comm] using h

theorem inHand_retire {w : ι} {x : α} {b : β} (hw : p.held w = some x) :
    x ::ₘ (p.retire M w x b).inHand = p.inHand := by
  have h := sum_update hand p.held w none
  rw [hw] at h
  simpa [hand, inHand, retire, add_comm] using h

theorem Balanced.take (h : Balanced M mayTake mayEnd p) {w : ι} {x : α} {q : List α}
    (hw : p.held w = none) (hq : p.queue ~ x :: q) (hx : mayTake x w) :
    Balanced M mayTake mayEnd (p.take M w x q) := by
  have hin : (p.take M w x q).inHand = x ::ₘ p.inHand := inHand_take hw
  refine ⟨?_, ?_, h.nodup, ?_, ?_, h.may_end, ?_⟩
  · calc (q : Multiset α) + (p.take M w x q).inHand + p.ended
        = x ::ₘ (q : Multiset α) + p.inHand + p.ended := by
          rw [hin, Multiset.add_cons, Multiset.cons_add, Multiset.cons_add, Multiset.cons_add]
      _ = p.queue + p.inHand + p.ended := by
          rw [Multiset.cons_coe, Multiset.coe_eq_coe.mpr hq]
      _ = p.accepted := h.conserved
  · calc (((x, w) :: p.taken).map Prod.fst : Multiset α)
        = x ::ₘ ((p.taken.map Prod.fst : List α) : Multiset α) := rfl
      _ = (p.take M w x q).inHand + p.ended := by rw [h.taken_eq, hin, Multiset.cons_add]
  · intro v y hv
    have hv : update p.held w (some x) v = some y := hv
    by_cases hvw : v = w
    · rw [hvw, update_self] at hv
      rw [hvw, ← Option.some.inj hv]
      exact List.mem_cons_self
    · rw [update_of_ne hvw] at hv
      exact List.mem_cons_of_mem _ (h.held_taken v y hv)
  · intro e he
    rcases List.mem_cons.mp he with rfl | he
    · exact hx
    · exact h.may_take e he
  · intro hM
    have hle : p.inHand.card + 1 ≤ Fintype.card ι := by
      rw [← Multiset.card_cons x, ← hin]
      exact card_inHand_le _
    rw [hin, Multiset.card_cons]
    show (p.active + 1) % M = p.inHand.card + 1
    rw [h.active_eq hM]
    exact Nat.mod_eq_of_lt (hle.trans_lt hM)

theorem Balanced.retire (h : Balanced M mayTake mayEnd p) {w : ι} {x : α} {b : β}
    (hw : p.held w = some x) (hb : mayEnd x b) :
    Balanced M mayTake mayEnd (p.retire M w x b) := by
  have hin : x ::ₘ (p.retire M w x b).inHand = p.inHand := inHand_retire hw
  have hmoved : (p.retire M w x b).inHand + (p.retire M w x b).ended = p.inHand + p.ended := by
    calc (p.retire M w x b).inHand + x ::ₘ p.ended
        = x ::ₘ (p.retire M w x b).inHand + p.ended := by
          rw [Multiset.add_cons, Multiset.cons_add]
      _ = p.inHand + p.ended := by rw [hin]
  refine ⟨?_, ?_, h.nodup, ?_, h.may_take, ?_, ?_⟩
  · rw [add_assoc, hmoved, ← add_assoc]
    exact h.conserved
  · rw [hmoved]
    exact h.taken_eq
  · intro v y hv
    have hv : update p.held w none v = some y := hv
    by_cases hvw : v = w
    · rw [hvw, update_self] at hv
      exact absurd hv (by simp)
    · rw [update_of_ne hvw] at hv
      exact h.held_taken v y hv
  · intro e he
    rcases List.mem_cons.mp he with rfl | he
    · exact hb
    · exact h.may_end e he
  · intro hM
    have hcard : (p.retire M w x b).inHand.card + 1 = p.inHand.card := by
      rw [← hin, Multiset.card_cons]
    have hle := card_inHand_le p
    show (p.active + (M - 1)) % M = (p.retire M w x b).inHand.card
    rw [h.active_eq hM, ← hcard,
      show (p.retire M w x b).inHand.card + 1 + (M - 1) = (p.retire M w x b).inHand.card + M by omega,
      Nat.add_mod_right]
    exact Nat.mod_eq_of_lt (by omega)

theorem Balanced.run (h : Balanced M mayTake mayEnd p)
    (hs : Relation.ReflTransGen (Step M mayTake mayEnd) p p') : Balanced M mayTake mayEnd p' := by
  induction hs with
  | refl => exact h
  | tail _ hstep ih =>
    cases hstep with
    | submit x hx => exact ih.submit hx
    | take w x q hw hq hx => exact ih.take hw hq hx
    | retire w x b hw hb => exact ih.retire hw hb

end

end Pool

end Lib
