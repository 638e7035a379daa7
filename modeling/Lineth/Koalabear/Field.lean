import Mathlib.NumberTheory.LucasPrimality
import Mathlib.Tactic.NormNum.Prime

/-!
# The base field

`2 ^ 31 - 2 ^ 24 + 1`, a prime whose multiplicative group has a subgroup of order `2 ^ 24`. -/

namespace Lineth.Koalabear

open Nat

def modulus : Nat := 2130706433

def bits : Nat := 31

abbrev Element := ZMod modulus

def squareMod (m : Nat) : Nat → Nat → Nat
  | 0, x => x
  | k + 1, x => squareMod m k (x * x % m)

theorem natCast_squareMod (m k x : Nat) : ((squareMod m k x : Nat) : ZMod m) = (x : ZMod m) ^ 2 ^ k := by
  induction k generalizing x with
  | zero => simp [squareMod]
  | succ k ih =>
    rw [squareMod, ih, ZMod.natCast_mod, cast_mul, ← sq, ← pow_mul, ← pow_succ']

theorem pow_two_pow_eq_one_iff (k x : Nat) :
    (x : Element) ^ 2 ^ k = 1 ↔ squareMod modulus k x % modulus = 1 := by
  rw [← natCast_squareMod, ← cast_one, ZMod.natCast_eq_natCast_iff']
  rfl

/-- 3 generates the multiplicative group, of order `127 * 2 ^ 24`. -/
theorem modulus_prime : modulus.Prime := by
  refine lucas_primality modulus 3 ?_ ?_
  · rw [show modulus - 1 = 127 * 2 ^ 24 by decide, pow_mul]
    have h := (pow_two_pow_eq_one_iff 24 (3 ^ 127)).2 (by decide +kernel)
    rwa [cast_pow, cast_ofNat] at h
  · intro q hq hdvd hone
    rw [show modulus - 1 = 127 * 2 ^ 24 by decide] at hdvd hone
    rcases (Nat.Prime.dvd_mul hq).1 hdvd with h | h
    · obtain rfl := (prime_dvd_prime_iff_eq hq (by norm_num)).1 h
      rw [show 127 * 2 ^ 24 / 127 = 2 ^ 24 by decide] at hone
      have h3 := (pow_two_pow_eq_one_iff 24 3).1 (by rw [cast_ofNat, hone])
      revert h3
      decide +kernel
    · obtain rfl := (prime_dvd_prime_iff_eq hq prime_two).1 (hq.dvd_of_dvd_pow h)
      rw [show 127 * 2 ^ 24 / 2 = 127 * 2 ^ 23 by decide, pow_mul] at hone
      have h3 := (pow_two_pow_eq_one_iff 23 (3 ^ 127)).1 (by rw [cast_pow, cast_ofNat, hone])
      revert h3
      decide +kernel

instance : Fact modulus.Prime := ⟨modulus_prime⟩

end Lineth.Koalabear
