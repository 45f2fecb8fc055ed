import Mathlib.Data.List.Basic
import Mathlib.Tactic

/-! Stretches of one element in a list that cannot be made longer. -/

namespace Lib

variable {α : Type*} {l₁ l₂ l : List α} {a b : α} {n : ℕ}

/-- `n` elements `a` stand together, with no other `a` next to them. -/
def IsRun (l : List α) (a : α) (n : ℕ) : Prop :=
  1 ≤ n ∧ ∃ pre post, l = pre ++ List.replicate n a ++ post ∧
    pre.getLast? ≠ some a ∧ post.head? ≠ some a

theorem getLast?_eq_some (h : ∀ x ∈ l, x = a) (hne : l ≠ []) : l.getLast? = some a := by
  rw [List.getLast?_eq_getLast_of_ne_nil hne, h _ (List.getLast_mem hne)]

theorem head?_eq_some (h : ∀ x ∈ l, x = a) (hne : l ≠ []) : l.head? = some a := by
  rw [List.head?_eq_some_head hne, h _ (List.head_mem hne)]

theorem isRun_replicate {k : ℕ} : IsRun (List.replicate k b) a n ↔ a = b ∧ n = k ∧ 1 ≤ n := by
  constructor
  · rintro ⟨hn, pre, post, heq, hpre, hpost⟩
    have hall : ∀ x ∈ pre ++ List.replicate n a ++ post, x = b :=
      fun x hx => List.eq_of_mem_replicate (heq ▸ hx)
    simp only [List.forall_mem_append] at hall
    obtain ⟨⟨hallpre, hallrun⟩, hallpost⟩ := hall
    have hab : a = b := hallrun a (List.mem_replicate.mpr ⟨by omega, rfl⟩)
    subst hab
    have hnil : pre = [] := by_contra fun hne => hpre (getLast?_eq_some hallpre hne)
    have hnil' : post = [] := by_contra fun hne => hpost (head?_eq_some hallpost hne)
    have hlen := congrArg List.length heq
    rw [hnil, hnil'] at hlen
    exact ⟨rfl, by simpa using hlen.symm, hn⟩
  · rintro ⟨rfl, rfl, hn⟩
    exact ⟨hn, [], [], by simp, by simp, by simp⟩

/-- A run of two lists is in one of them, unless it could go over from one to the other. -/
theorem isRun_append (h : ¬ (l₁.getLast? = some a ∧ l₂.head? = some a)) :
    IsRun (l₁ ++ l₂) a n ↔ IsRun l₁ a n ∨ IsRun l₂ a n := by
  constructor
  · rintro ⟨hn, pre, post, heq, hpre, hpost⟩
    rcases List.append_eq_append_iff.mp heq with ⟨c, hc, rfl⟩ | ⟨c, rfl, rfl⟩
    · rcases List.append_eq_append_iff.mp hc with ⟨d, rfl, hd⟩ | ⟨d, rfl, rfl⟩
      · have hall : ∀ x ∈ d ++ c, x = a := fun x hx => List.eq_of_mem_replicate (hd ▸ hx)
        rw [List.forall_mem_append] at hall
        by_cases hdnil : d = []
        · subst hdnil
          rw [List.nil_append] at hd
          exact .inr ⟨hn, [], post, by rw [hd]; rfl, by simp, hpost⟩
        · by_cases hcnil : c = []
          · subst hcnil
            rw [List.append_nil] at hd
            exact .inl ⟨hn, pre, [], by rw [hd, List.append_nil], hpre, by simp⟩
          · refine absurd ⟨?_, ?_⟩ h
            · rw [List.getLast?_append, getLast?_eq_some hall.1 hdnil, Option.some_or]
            · rw [List.head?_append, head?_eq_some hall.2 hcnil, Option.some_or]
      · -- the run is behind the first list
        refine .inr ⟨hn, d, post, rfl, fun hd => hpre ?_, hpost⟩
        rw [List.getLast?_append, hd, Option.some_or]
    · -- the run is before the second list
      refine .inl ⟨hn, pre, c, rfl, hpre, fun hc => hpost ?_⟩
      rw [List.head?_append, hc, Option.some_or]
  · rintro (⟨hn, pre, post, rfl, hpre, hpost⟩ | ⟨hn, pre, post, rfl, hpre, hpost⟩)
    · refine ⟨hn, pre, post ++ l₂, by simp, hpre, fun hhead => ?_⟩
      cases post with
      | nil =>
        refine h ⟨?_, hhead⟩
        rw [List.append_nil, List.getLast?_append, List.getLast?_replicate, if_neg (by omega),
          Option.some_or]
      | cons x xs => exact hpost hhead
    · refine ⟨hn, l₁ ++ pre, post, by simp, fun hlast => ?_, hpost⟩
      by_cases hnil : pre = []
      · subst hnil
        rw [List.append_nil] at hlast
        refine h ⟨hlast, ?_⟩
        rw [List.nil_append, List.head?_append, List.head?_replicate, if_neg (by omega),
          Option.some_or]
      · rw [List.getLast?_append, List.getLast?_eq_getLast_of_ne_nil hnil, Option.some_or] at hlast
        exact hpre ((List.getLast?_eq_getLast_of_ne_nil hnil).trans hlast)

theorem exists_suffix (l : List α) (a : α) :
    ∃ pre n, l = pre ++ List.replicate n a ∧ pre.getLast? ≠ some a := by
  induction l using List.reverseRecOn with
  | nil => exact ⟨[], 0, rfl, by simp⟩
  | append_singleton l b ih =>
    by_cases hb : b = a
    · obtain ⟨pre, n, rfl, hpre⟩ := ih
      exact ⟨pre, n + 1, by rw [hb, List.replicate_succ', List.append_assoc], hpre⟩
    · exact ⟨l ++ [b], 0, by simp, by simpa using hb⟩

theorem exists_prefix (l : List α) (a : α) :
    ∃ n post, l = List.replicate n a ++ post ∧ post.head? ≠ some a := by
  obtain ⟨pre, n, hl, hpre⟩ := exists_suffix l.reverse a
  refine ⟨n, pre.reverse, ?_, by rwa [List.head?_reverse]⟩
  rw [← List.reverse_reverse l, hl, List.reverse_append, List.reverse_replicate]

/-- Where `m` elements `a` stand together, there is a run of at least as many. -/
theorem replicate_infix_iff {m : ℕ} (hm : 1 ≤ m) :
    List.replicate m a <:+: l ↔ ∃ n, m ≤ n ∧ IsRun l a n := by
  constructor
  · rintro ⟨s, t, rfl⟩
    obtain ⟨pre, i, rfl, hpre⟩ := exists_suffix s a
    obtain ⟨j, post, rfl, hpost⟩ := exists_prefix t a
    refine ⟨i + m + j, by omega, by omega, pre, post, ?_, hpre, hpost⟩
    rw [List.replicate_add, List.replicate_add]
    simp only [List.append_assoc]
  · rintro ⟨n, hmn, -, pre, post, rfl, -, -⟩
    obtain ⟨k, rfl⟩ := Nat.exists_eq_add_of_le hmn
    refine ⟨pre, List.replicate k a ++ post, ?_⟩
    rw [List.replicate_add]
    simp only [List.append_assoc]

end Lib
