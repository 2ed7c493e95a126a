import Mathlib.Data.Nat.ModEq
import Mathlib.Logic.ExistsUnique
import Mathlib.Tactic.Ring

/-! # Lists that go round

The list `0, 1, …, m - 1, 0, 1, …` cut anywhere: between two occurrences of a number with none in
between, every other number below `m` occurs exactly once. -/

namespace GQuuuuuunix.Lib
set_option autoImplicit false

variable {m : ℕ}

/-- `l` is the beginning of `0, 1, …, m - 1, 0, 1, …`. -/
def Rounds (m : ℕ) (l : List ℕ) : Prop := ∀ k x, l[k]? = some x → x = k % m

theorem Rounds.nil : Rounds m [] := by
  intro k x h
  simp at h

/-- The next number goes at the end. -/
theorem Rounds.snoc {l : List ℕ} (hl : Rounds m l) : Rounds m (l ++ [l.length % m]) := by
  intro k x h
  rcases Nat.lt_trichotomy k l.length with hk | rfl | hk
  · rw [List.getElem?_append_left hk] at h
    exact hl k x h
  · rw [List.getElem?_concat_length] at h
    exact (Option.some.inj h).symm
  · have hlen : (l ++ [l.length % m]).length ≤ k := by
      rw [List.length_append]
      exact hk
    rw [List.getElem?_eq_none hlen] at h
    cases h

theorem Rounds.getElem? {l : List ℕ} (hl : Rounds m l) {k : ℕ} (hk : k < l.length) :
    l[k]? = some (k % m) := by
  rw [List.getElem?_eq_getElem hk, hl k l[k] (List.getElem?_eq_getElem hk)]

/-- Two numbers with one remainder and none of that remainder in between are `m` apart. -/
theorem eq_add_of_no_between {i j : ℕ} (hm : 0 < m) (hij : i < j) (h : i % m = j % m)
    (hno : ∀ k, i < k → k < j → k % m ≠ i % m) : j = i + m := by
  have hdvd : m ∣ j - i := (Nat.modEq_iff_dvd' hij.le).1 h
  have hle : m ≤ j - i := Nat.le_of_dvd (Nat.sub_pos_of_lt hij) hdvd
  by_contra hne
  have hlt : i + m < j := by omega
  exact hno (i + m) (by omega) hlt (Nat.add_mod_right i m)

/-- Every other remainder occurs once in a window of length `m`. -/
theorem existsUnique_mod {i u : ℕ} (hu : u < m) (hne : u ≠ i % m) :
    ∃! k, i < k ∧ k < i + m ∧ k % m = u := by
  have hm : 0 < m := Nat.zero_lt_of_lt hu
  have hi := Nat.div_add_mod i m
  have ht : i % m < m := Nat.mod_lt i hm
  have hexists : ∃ k, i < k ∧ k < i + m ∧ k % m = u := by
    rcases Nat.lt_or_gt_of_ne hne with hlt | hgt
    · refine ⟨m * (i / m) + m + u, by omega, by omega, ?_⟩
      rw [show m * (i / m) + m + u = u + m * (i / m + 1) by ring, Nat.add_mul_mod_self_left,
        Nat.mod_eq_of_lt hu]
    · refine ⟨m * (i / m) + u, by omega, by omega, ?_⟩
      rw [Nat.add_comm, Nat.add_mul_mod_self_left, Nat.mod_eq_of_lt hu]
  obtain ⟨k, hik, hki, hk⟩ := hexists
  refine ⟨k, ⟨hik, hki, hk⟩, fun k' ⟨hik', hki', hk'⟩ => ?_⟩
  have hmod : k' ≡ k [MOD m] := hk'.trans hk.symm
  exact Nat.ModEq.eq_of_abs_lt hmod (by rw [abs_lt]; constructor <;> omega)

theorem Rounds.between {l : List ℕ} (hl : Rounds m l) {i j t u : ℕ} (hij : i < j)
    (hi : l[i]? = some t) (hj : l[j]? = some t)
    (hno : ∀ k, i < k → k < j → l[k]? ≠ some t) (hu : u < m) (hne : u ≠ t) :
    ∃! k, i < k ∧ k < j ∧ l[k]? = some u := by
  obtain rfl := hl i t hi
  have hmod := hl j _ hj
  have hlen : j < l.length := by
    by_contra hle
    rw [List.getElem?_eq_none (Nat.not_lt.1 hle)] at hj
    cases hj
  have hget : ∀ k, k < j → l[k]? = some (k % m) := fun k hk => hl.getElem? (hk.trans hlen)
  have hj' : j = i + m := by
    refine eq_add_of_no_between (Nat.zero_lt_of_lt hu) hij hmod fun k hik hkj hk => ?_
    exact hno k hik hkj (by rw [hget k hkj, hk])
  obtain ⟨k, ⟨hik, hki, hk⟩, huniq⟩ := existsUnique_mod hu hne
  rw [← hj'] at hki
  refine ⟨k, ⟨hik, hki, by rw [hget k hki, hk]⟩, fun k' ⟨hik', hki', hk'⟩ => ?_⟩
  refine huniq k' ⟨hik', hj' ▸ hki', ?_⟩
  rw [hget k' hki'] at hk'
  exact Option.some.inj hk'

end GQuuuuuunix.Lib
