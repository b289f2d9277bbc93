import Mathlib.Data.List.Prime
import Mathlib.NumberTheory.LucasPrimality

/-!
# Primality certificates

Lucas's test shows that `p` is prime from a number of order `p - 1` modulo `p` and the prime factors
of `p - 1`. A certificate lists numbers with what the test needs, each after the factors it rests
on; checking one is a computation.

Result: `prime_of_certified`.
-/

namespace Lucas

/-- `a ^ n % m` for an exponent of at most `bits` bits, by squaring. -/
def powMod (m : ℕ) : ℕ → ℕ → ℕ → ℕ
  | 0, _, _ => 1 % m
  | bits + 1, a, n =>
    let square := powMod m bits (a * a % m) (n / 2)
    if n % 2 = 0 then square else a * square % m

theorem powMod_eq (m : ℕ) {bits n : ℕ} (h : n < 2 ^ bits) (a : ℕ) :
    powMod m bits a n = a ^ n % m := by
  induction bits generalizing a n with
  | zero =>
    obtain rfl : n = 0 := by simpa using h
    rw [powMod, pow_zero]
  | succ bits ih =>
    have hhalf : n / 2 < 2 ^ bits := by
      rw [pow_succ] at h
      exact Nat.div_lt_of_lt_mul (by rwa [mul_comm])
    have hsquare : powMod m bits (a * a % m) (n / 2) = a ^ (2 * (n / 2)) % m := by
      rw [ih hhalf, ← Nat.pow_mod, pow_mul, sq]
    rw [powMod, hsquare]
    rcases Nat.mod_two_eq_zero_or_one n with heven | hodd
    · rw [if_pos heven, Nat.mul_div_cancel' (Nat.dvd_of_mod_eq_zero heven)]
    · have hn : n = 2 * (n / 2) + 1 := by
        rw [← hodd, Nat.div_add_mod]
      rw [if_neg (by rw [hodd]; exact one_ne_zero), Nat.mul_mod_mod, ← pow_succ', ← hn]

/-- Lucas's test, over the residues. -/
theorem prime_of_order {p : ℕ} (a : ℕ) (factors : List ℕ) (hp : 1 < p)
    (hprime : ∀ q ∈ factors, q.Prime) (hprod : factors.prod = p - 1)
    (hone : a ^ (p - 1) % p = 1) (hne : ∀ q ∈ factors, a ^ ((p - 1) / q) % p ≠ 1) :
    p.Prime := by
  have hcast : ∀ n : ℕ, (a : ZMod p) ^ n = 1 ↔ a ^ n % p = 1 := by
    intro n
    rw [← Nat.cast_pow, ← Nat.cast_one, ZMod.natCast_eq_natCast_iff', Nat.mod_eq_of_lt hp]
  refine lucas_primality p a ((hcast _).mpr hone) fun q hq hdvd => ?_
  rw [← hprod, Prime.dvd_prod_iff hq.prime] at hdvd
  obtain ⟨r, hr, hqr⟩ := hdvd
  rw [(Nat.prime_dvd_prime_iff_eq hq (hprime r hr)).mp hqr, ne_eq, hcast]
  exact hne r hr

/-- A number, one of order `number - 1` modulo it, and the prime factors of `number - 1`. -/
structure Entry where
  number : ℕ
  generator : ℕ
  factors : List ℕ

/-- Lucas's test of an entry whose factors are among `primes`. -/
def Entry.passes (bits : ℕ) (primes : List ℕ) (e : Entry) : Bool :=
  decide (1 < e.number ∧ e.number ≤ 2 ^ bits ∧ (∀ q ∈ e.factors, q ∈ primes) ∧
    e.factors.prod = e.number - 1 ∧ powMod e.number bits e.generator (e.number - 1) = 1 ∧
    ∀ q ∈ e.factors, powMod e.number bits e.generator ((e.number - 1) / q) ≠ 1)

/-- Every entry passes, with the entries behind it as its primes. -/
def certified (bits : ℕ) : List Entry → Bool
  | [] => true
  | e :: rest => e.passes bits (rest.map Entry.number) && certified bits rest

theorem Entry.prime_of_passes {bits : ℕ} {primes : List ℕ} {e : Entry}
    (hprimes : ∀ q ∈ primes, q.Prime) (h : e.passes bits primes = true) : e.number.Prime := by
  obtain ⟨hlt, hbits, hfactors, hprod, hone, hne⟩ := of_decide_eq_true h
  have hpow : ∀ n ≤ e.number - 1,
      powMod e.number bits e.generator n = e.generator ^ n % e.number := by
    intro n hn
    refine powMod_eq _ (lt_of_lt_of_le ?_ hbits) _
    exact lt_of_le_of_lt hn (Nat.sub_one_lt_of_lt hlt)
  refine prime_of_order e.generator e.factors hlt (fun q hq => hprimes q (hfactors q hq)) hprod ?_ ?_
  · rw [← hpow _ le_rfl]
    exact hone
  · intro q hq
    rw [← hpow _ (Nat.div_le_self _ _)]
    exact hne q hq

theorem prime_of_certified {bits : ℕ} {entries : List Entry} (h : certified bits entries = true) :
    ∀ q ∈ entries.map Entry.number, q.Prime := by
  induction entries with
  | nil => exact List.forall_mem_nil _
  | cons e rest ih =>
    obtain ⟨hpasses, hrest⟩ := Bool.and_eq_true_iff.mp h
    rw [List.map_cons, List.forall_mem_cons]
    exact ⟨Entry.prime_of_passes (ih hrest) hpasses, ih hrest⟩

end Lucas
