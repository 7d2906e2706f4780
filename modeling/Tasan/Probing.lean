import Mathlib

/-!
# Quadratic probing of a table whose size is a power of two

A probe sequence starts at a bucket and moves on by one bucket, then by two, and so on. After `t`
rounds it has moved by the triangular number `t * (t + 1) / 2`. In a table of `2^k` buckets the first
`2^k` probes are distinct, so they visit every bucket: `exists_probe_eq`.
-/

namespace Tasan.Probing

/-- The bucket that is probed after `t` rounds, in a table of `n` buckets. -/
def probe (n h t : ℕ) : ℕ := (h + t * (t + 1) / 2) % n

theorem probe_succ (n h t : ℕ) : probe n h (t + 1) = (probe n h t + (t + 1)) % n := by
  have htri : (t + 1) * (t + 1 + 1) / 2 = t * (t + 1) / 2 + (t + 1) := by
    rw [show (t + 1) * (t + 1 + 1) = t * (t + 1) + (t + 1) * 2 by ring,
      Nat.add_mul_div_right _ _ (by norm_num)]
  unfold probe
  rw [htri, Nat.mod_add_mod, Nat.add_assoc]

theorem two_mul_tri (t : ℕ) : 2 * (t * (t + 1) / 2) = t * (t + 1) :=
  Nat.mul_div_cancel' (Nat.even_mul_succ_self t).two_dvd

/-- A power of two that divides the difference of two triangular numbers is too large for it. -/
theorem tri_inj {k s t : ℕ} (hle : s ≤ t) (ht : t < 2^k)
    (h : t * (t + 1) / 2 ≡ s * (s + 1) / 2 [MOD 2^k]) : s = t := by
  have hdvd : 2^(k + 1) ∣ (t - s) * (t + s + 1) := by
    have htri : s * (s + 1) / 2 ≤ t * (t + 1) / 2 :=
      Nat.div_le_div_right (Nat.mul_le_mul hle (by omega))
    have hsub := (Nat.modEq_iff_dvd' htri).mp h.symm
    have hprod : 2 * (t * (t + 1) / 2 - s * (s + 1) / 2) = (t - s) * (t + s + 1) := by
      rw [Nat.mul_sub, two_mul_tri, two_mul_tri]
      obtain ⟨d, rfl⟩ := Nat.exists_eq_add_of_le hle
      rw [Nat.add_sub_cancel_left, Nat.sub_eq_iff_eq_add (by nlinarith)]
      ring
    rw [← hprod, pow_succ, mul_comm]
    exact Nat.mul_dvd_mul_left 2 hsub
  -- one of the two factors is odd, so the power divides the other one, which is below it
  rcases Nat.even_or_odd (t - s) with heven | hodd
  · have hcop : Nat.Coprime (2^(k + 1)) (t + s + 1) := by
      apply Nat.Coprime.pow_left
      rw [Nat.coprime_two_left]
      have hpar : t + s + 1 = (t - s) + 2 * s + 1 := by omega
      rw [hpar]
      exact (heven.add (even_two_mul s)).add_one
    have hzero := Nat.eq_zero_of_dvd_of_lt (hcop.dvd_of_dvd_mul_right hdvd)
      (by rw [pow_succ]; omega)
    omega
  · have hcop : Nat.Coprime (2^(k + 1)) (t - s) :=
      Nat.Coprime.pow_left _ (Nat.coprime_two_left.mpr hodd)
    have hzero := Nat.eq_zero_of_dvd_of_lt (hcop.dvd_of_dvd_mul_left hdvd)
      (by rw [pow_succ]; omega)
    omega

theorem probe_inj {k h s t : ℕ} (hs : s < 2^k) (ht : t < 2^k)
    (heq : probe (2^k) h s = probe (2^k) h t) : s = t := by
  have hmod : s * (s + 1) / 2 ≡ t * (t + 1) / 2 [MOD 2^k] := Nat.ModEq.add_left_cancel' h heq
  rcases Nat.le_total s t with hle | hle
  · exact tri_inj hle ht hmod.symm
  · exact (tri_inj hle hs hmod).symm

theorem exists_probe_eq {k : ℕ} (h : ℕ) {b : ℕ} (hb : b < 2^k) :
    ∃ t < 2^k, probe (2^k) h t = b := by
  have hpos : 0 < 2^k := by positivity
  let f : Fin (2^k) → Fin (2^k) := fun t => ⟨probe (2^k) h t, Nat.mod_lt _ hpos⟩
  have hinj : Function.Injective f := by
    intro s t heq
    exact Fin.ext (probe_inj s.isLt t.isLt (congrArg Fin.val heq))
  obtain ⟨t, ht⟩ := (Finite.surjective_of_injective hinj) ⟨b, hb⟩
  exact ⟨t, t.isLt, congrArg Fin.val ht⟩

end Tasan.Probing
