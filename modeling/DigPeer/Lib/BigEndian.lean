import Mathlib.Algebra.Group.Nat.Defs

/-!
# BigEndian — fixed-width big-endian numbers over byte lists

`toBe w n` is the `w` bytes of `n`, most significant first, of which only `n % 256 ^ w` survives (`ofBe_toBe`);
`ofBe` reads any list of bytes.  On lists of length `w` the two are inverse, so a fixed-width field is a bijection
with the numbers below `256 ^ w`.
-/
namespace BigEndian

def toBe : Nat → Nat → List UInt8
  | 0, _     => []
  | w + 1, n => UInt8.ofNat (n / 256 ^ w) :: toBe w n

def ofBe (bs : List UInt8) : Nat := bs.foldl (fun acc b => acc * 256 + b.toNat) 0

@[simp] theorem length_toBe : ∀ (w n : Nat), (toBe w n).length = w
  | 0, _     => rfl
  | w + 1, n => by rw [toBe, List.length_cons, length_toBe w n]

theorem foldl_ofBe : ∀ (bs : List UInt8) (acc : Nat),
    bs.foldl (fun acc b => acc * 256 + b.toNat) acc = acc * 256 ^ bs.length + ofBe bs
  | [], acc => by simp [ofBe]
  | b :: bs, acc => by
    rw [ofBe, List.foldl_cons, List.foldl_cons, foldl_ofBe bs, foldl_ofBe bs (0 * 256 + b.toNat), List.length_cons,
      Nat.pow_succ]
    simp only [Nat.zero_mul, Nat.zero_add, Nat.add_mul, Nat.mul_assoc, Nat.add_assoc, Nat.mul_comm 256]

theorem ofBe_cons (b : UInt8) (bs : List UInt8) : ofBe (b :: bs) = b.toNat * 256 ^ bs.length + ofBe bs := by
  rw [ofBe, List.foldl_cons, foldl_ofBe]
  simp

theorem ofBe_lt : ∀ (bs : List UInt8), ofBe bs < 256 ^ bs.length
  | [] => by simp [ofBe]
  | b :: bs => by
    rw [ofBe_cons, List.length_cons, Nat.pow_succ]
    have hb : b.toNat + 1 ≤ 256 := b.toNat_lt
    have hmul : (b.toNat + 1) * 256 ^ bs.length ≤ 256 * 256 ^ bs.length := Nat.mul_le_mul_right _ hb
    have := ofBe_lt bs
    rw [Nat.add_mul, Nat.one_mul] at hmul
    omega

/-- **Reading back a field**: only the value modulo the field's width survives. -/
theorem ofBe_toBe : ∀ (w n : Nat), ofBe (toBe w n) = n % 256 ^ w
  | 0, n => by simp [toBe, ofBe, Nat.mod_one]
  | w + 1, n => by
    rw [toBe, ofBe_cons, ofBe_toBe w n, length_toBe, UInt8.toNat_ofNat']
    show n / 256 ^ w % 256 * 256 ^ w + n % 256 ^ w = n % (256 ^ w * 256)
    rw [Nat.mod_mul, Nat.add_comm, Nat.mul_comm (256 ^ w)]

theorem ofBe_toBe_of_lt {w n : Nat} (h : n < 256 ^ w) : ofBe (toBe w n) = n := by
  rw [ofBe_toBe, Nat.mod_eq_of_lt h]

theorem toBe_add : ∀ (w m n : Nat), toBe w (m * 256 ^ w + n) = toBe w n
  | 0, _, _ => rfl
  | w + 1, m, n => by
    rw [toBe, toBe]
    have hd : (m * 256 ^ (w + 1) + n) / 256 ^ w = m * 256 + n / 256 ^ w := by
      rw [Nat.pow_succ, Nat.mul_comm (256 ^ w), ← Nat.mul_assoc, Nat.add_comm,
        Nat.add_mul_div_right _ _ (Nat.pow_pos (by decide))]
      omega
    have hw : toBe w (m * 256 ^ (w + 1) + n) = toBe w n := by
      rw [Nat.pow_succ, Nat.mul_comm (256 ^ w), ← Nat.mul_assoc]
      exact toBe_add w (m * 256) n
    rw [hd, hw]
    congr 1
    apply UInt8.toNat_inj.1
    simp [UInt8.toNat_ofNat']

/-- **Writing back a field read from its own width gives the same bytes.** -/
theorem toBe_ofBe : ∀ (bs : List UInt8), toBe bs.length (ofBe bs) = bs
  | [] => rfl
  | b :: bs => by
    rw [List.length_cons, toBe, ofBe_cons, toBe_add, toBe_ofBe bs]
    congr 1
    apply UInt8.toNat_inj.1
    have hlt := ofBe_lt bs
    have hdiv : (b.toNat * 256 ^ bs.length + ofBe bs) / 256 ^ bs.length = b.toNat := by
      rw [Nat.add_comm, Nat.add_mul_div_right _ _ (Nat.pow_pos (by decide)), Nat.div_eq_of_lt hlt, Nat.zero_add]
    rw [hdiv]
    simp

end BigEndian
