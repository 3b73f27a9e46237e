import Mathlib.Algebra.Group.Nat.Defs
import SignalPatch.Instruction

/-!
# Programs and their bytes

A program that was written as bytes is read back as it was (`decode_encode`), and only bytes that
were written so are read at all. Bytes that are refused do not make up whole records, or one of
their records starts with a byte that no operation has (`codec_exact`).
-/

namespace SignalPatch

theorem Opcode.ofCode?_code (o : Opcode) : ofCode? o.code = some o := by
  cases o <;> rfl

theorem Opcode.code_of_ofCode? (h : ofCode? byte = some o) : o.code = byte := by
  simpa using List.find?_some h

theorem Opcode.ofCode?_eq_none_iff : ofCode? byte = none ↔ ∀ o : Opcode, o.code ≠ byte := by
  constructor
  · rintro h o rfl
    rw [ofCode?_code] at h
    cases h
  · intro h
    exact List.find?_eq_none.mpr fun o _ => by simpa using h o

namespace Bytecode

/-! ## Words -/

theorem mod_or_byte (w k : Nat) : w % 2 ^ k ||| (w >>> k % 2 ^ 8) <<< k = w % 2 ^ (k + 8) := by
  apply Nat.eq_of_testBit_eq
  intro i
  simp only [Nat.testBit_or, Nat.testBit_mod_two_pow, Nat.testBit_shiftLeft, Nat.testBit_shiftRight]
  by_cases hi : i < k
  · simp [hi, Nat.not_le.mpr hi, Nat.lt_add_right 8 hi]
  · have hk : k ≤ i := Nat.not_lt.mp hi
    have hlt : i - k < 8 ↔ i < k + 8 := by omega
    simp [hi, hk, hlt]

theorem byte_lt (w : Nat) (h : k + 8 ≤ n) : (w >>> k % 2 ^ 8) <<< k < 2 ^ n := by
  rw [Nat.shiftLeft_eq]
  calc w >>> k % 2 ^ 8 * 2 ^ k
      < 2 ^ 8 * 2 ^ k := Nat.mul_lt_mul_of_pos_right (Nat.mod_lt _ (by decide)) (Nat.two_pow_pos k)
    _ = 2 ^ (k + 8) := by rw [← Nat.pow_add, Nat.add_comm]
    _ ≤ 2 ^ n := Nat.pow_le_pow_right (by decide) h

theorem word16_bytes (w : UInt16) : word16 w.toUInt8 (w >>> 8).toUInt8 = w := by
  apply UInt16.toNat_inj.mp
  have hbyte : (w.toNat >>> 8 % 256) <<< 8 % 65536 = (w.toNat >>> 8 % 256) <<< 8 :=
    Nat.mod_eq_of_lt (byte_lt (k := 8) (n := 16) w.toNat (by decide))
  have hor : w.toNat % 256 ||| (w.toNat >>> 8 % 256) <<< 8 = w.toNat % 65536 :=
    mod_or_byte w.toNat 8
  simp only [word16, UInt16.toNat_or, UInt16.toNat_shiftLeft, UInt8.toNat_toUInt16,
    UInt16.toNat_toUInt8, UInt16.toNat_shiftRight, UInt16.reduceToNat, Nat.reduceMod, Nat.reducePow]
  rw [hbyte, hor, Nat.mod_eq_of_lt w.toNat_lt]

theorem word32_bytes (w : UInt32) :
    word32 w.toUInt8 (w >>> 8).toUInt8 (w >>> 16).toUInt8 (w >>> 24).toUInt8 = w := by
  apply UInt32.toNat_inj.mp
  have hbyte (k : Nat) (hk : k + 8 ≤ 32) :
      (w.toNat >>> k % 256) <<< k % 4294967296 = (w.toNat >>> k % 256) <<< k :=
    Nat.mod_eq_of_lt (byte_lt (n := 32) w.toNat hk)
  have h₁ : w.toNat % 256 ||| (w.toNat >>> 8 % 256) <<< 8 = w.toNat % 65536 :=
    mod_or_byte w.toNat 8
  have h₂ : w.toNat % 65536 ||| (w.toNat >>> 16 % 256) <<< 16 = w.toNat % 16777216 :=
    mod_or_byte w.toNat 16
  have h₃ : w.toNat % 16777216 ||| (w.toNat >>> 24 % 256) <<< 24 = w.toNat % 4294967296 :=
    mod_or_byte w.toNat 24
  simp only [word32, UInt32.toNat_or, UInt32.toNat_shiftLeft, UInt8.toNat_toUInt32,
    UInt32.toNat_toUInt8, UInt32.toNat_shiftRight, UInt32.reduceToNat, Nat.reduceMod, Nat.reducePow]
  rw [hbyte 8 (by decide), hbyte 16 (by decide), hbyte 24 (by decide), h₁, h₂, h₃,
    Nat.mod_eq_of_lt w.toNat_lt]

theorem or_shiftLeft_eq_add {a k : Nat} (h : a < 2 ^ k) (b : Nat) :
    a ||| b <<< k = a + 2 ^ k * b := by
  rw [Nat.or_comm, ← Nat.shiftLeft_add_eq_or_of_lt h, Nat.shiftLeft_eq, Nat.add_comm, Nat.mul_comm]

theorem shiftLeft_mod_eq (b : UInt8) (h : k + 8 ≤ n) : b.toNat <<< k % 2 ^ n = b.toNat <<< k := by
  have hbyte := byte_lt (b.toNat <<< k) h
  rw [Nat.shiftLeft_shiftRight, Nat.mod_eq_of_lt b.toNat_lt] at hbyte
  exact Nat.mod_eq_of_lt hbyte

theorem toNat_word16 (a b : UInt8) : (word16 a b).toNat = a.toNat + 256 * b.toNat := by
  have hbyte : b.toNat <<< 8 % 65536 = b.toNat <<< 8 := shiftLeft_mod_eq (n := 16) b (by decide)
  simp only [word16, UInt16.toNat_or, UInt16.toNat_shiftLeft,
    UInt8.toNat_toUInt16, UInt16.reduceToNat, Nat.reduceMod, Nat.reducePow, hbyte]
  exact or_shiftLeft_eq_add (k := 8) a.toNat_lt b.toNat

theorem toNat_word32 (a b c d : UInt8) : (word32 a b c d).toNat =
    a.toNat + 256 * b.toNat + 65536 * c.toNat + 16777216 * d.toNat := by
  have ha := a.toNat_lt
  have hb := b.toNat_lt
  have hc := c.toNat_lt
  have hbyte (x : UInt8) (k : Nat) (hk : k + 8 ≤ 32) : x.toNat <<< k % 4294967296 = x.toNat <<< k :=
    shiftLeft_mod_eq x hk
  simp only [word32, UInt32.toNat_or, UInt32.toNat_shiftLeft,
    UInt8.toNat_toUInt32, UInt32.reduceToNat, Nat.reduceMod, Nat.reducePow]
  rw [hbyte b 8 (by decide), hbyte c 16 (by decide), hbyte d 24 (by decide),
    or_shiftLeft_eq_add (k := 8) (by omega), or_shiftLeft_eq_add (k := 16) (by omega),
    or_shiftLeft_eq_add (k := 24) (by omega)]
  simp only [Nat.reducePow]

theorem bytes16_word16 (a b : UInt8) : bytes16 (word16 a b) = [a, b] := by
  have ha := a.toNat_lt
  have hb := b.toNat_lt
  simp only [bytes16, List.cons.injEq, and_true, ← UInt8.toNat_inj, UInt16.toNat_toUInt8,
    UInt16.toNat_shiftRight, toNat_word16, Nat.shiftRight_eq_div_pow, UInt16.reduceToNat,
    Nat.reduceMod, Nat.reducePow]
  omega

theorem bytes32_word32 (a b c d : UInt8) : bytes32 (word32 a b c d) = [a, b, c, d] := by
  have ha := a.toNat_lt
  have hb := b.toNat_lt
  have hc := c.toNat_lt
  have hd := d.toNat_lt
  simp only [bytes32, List.cons.injEq, and_true, ← UInt8.toNat_inj, UInt32.toNat_toUInt8,
    UInt32.toNat_shiftRight, toNat_word32, Nat.shiftRight_eq_div_pow, UInt32.reduceToNat,
    Nat.reduceMod, Nat.reducePow]
  omega

/-! ## Records -/

theorem length_record (i : Instruction) : (record i).length = Instruction.size := rfl

theorem length_encode (is : List Instruction) :
    (encode is).length = Instruction.size * is.length := by
  induction is with
  | nil => rfl
  | cons i is ih =>
    rw [encode, List.flatMap_cons, List.length_append, length_record, ← encode,
      ih, List.length_cons, Nat.mul_succ, Nat.add_comm]

theorem records_record (i : Instruction) (rest : List UInt8) :
    records (record i ++ rest) = (i :: ·) <$> records rest := by
  simp only [record, bytes16, bytes32, Operands.toList, List.flatMap_cons, List.flatMap_nil,
    List.append_nil, List.cons_append, List.nil_append, records, Opcode.ofCode?_code, word16_bytes,
    word32_bytes]
  rfl

theorem records_encode (is : List Instruction) : records (encode is) = .ok is := by
  induction is with
  | nil => rfl
  | cons i is ih =>
    rw [encode, List.flatMap_cons, records_record, ← encode, ih]
    rfl

theorem decode_encode (is : List Instruction) : decode (encode is) = .ok is := by
  have hlen : (encode is).length % Instruction.size = 0 := by
    rw [length_encode]
    exact Nat.mul_mod_right _ _
  rw [decode, if_neg (by simp [hlen]), records_encode]

/-! ## Bytes that are read -/

/-- The first record with an operation byte that is not in the table starts with `byte`. -/
def FirstUnknown (bytes : List UInt8) (byte : UInt8) : Prop :=
  ∃ k, bytes[16 * k]? = some byte ∧ (∀ o : Opcode, o.code ≠ byte) ∧
    ∀ j < k, ∃ o : Opcode, bytes[16 * j]? = some o.code

theorem not_firstUnknown_nil (byte : UInt8) : ¬ FirstUnknown [] byte := by
  rintro ⟨k, hk, -⟩
  simp at hk

theorem firstUnknown_cons_iff (tail : List UInt8) {rest : List UInt8} (htail : tail.length = 15) :
    FirstUnknown (first :: (tail ++ rest)) byte ↔
      (∀ o : Opcode, o.code ≠ first) ∧ byte = first ∨
        (∃ o : Opcode, o.code = first) ∧ FirstUnknown rest byte := by
  -- The opcodes are every sixteenth byte, so those behind the first are those of the rest.
  have hnext : ∀ k, (first :: (tail ++ rest))[16 * (k + 1)]? = rest[16 * k]? := by
    intro k
    rw [show 16 * (k + 1) = 15 + 16 * k + 1 by omega, List.getElem?_cons_succ,
      List.getElem?_append_right (by omega), htail, Nat.add_sub_cancel_left]
  constructor
  · rintro ⟨k, hk, hunknown, hknown⟩
    cases k with
    | zero =>
      obtain rfl : first = byte := by simpa using hk
      exact .inl ⟨hunknown, rfl⟩
    | succ k =>
      obtain ⟨o, ho⟩ := hknown 0 (Nat.succ_pos k)
      refine .inr ⟨⟨o, by simpa using ho.symm⟩, k, hnext k ▸ hk, hunknown, fun j hj => ?_⟩
      obtain ⟨o, ho⟩ := hknown (j + 1) (Nat.succ_lt_succ hj)
      exact ⟨o, hnext j ▸ ho⟩
  · rintro (⟨hunknown, rfl⟩ | ⟨⟨o, ho⟩, k, hk, hunknown, hknown⟩)
    · exact ⟨0, rfl, hunknown, fun j hj => absurd hj (Nat.not_lt_zero j)⟩
    · refine ⟨k + 1, (hnext k).trans hk, hunknown, fun j hj => ?_⟩
      cases j with
      | zero => exact ⟨o, by simp [ho]⟩
      | succ j =>
        obtain ⟨o, ho⟩ := hknown j (Nat.lt_of_succ_lt_succ hj)
        exact ⟨o, (hnext j).trans ho⟩

theorem eq_nil_of_partial {bytes : List UInt8} (hwhole : bytes.length % 16 = 0)
    (hpartial : ∀ o rate o₀ o₁ a₀ a₁ b₀ b₁ c₀ c₁ d₀ d₁ p₀ p₁ p₂ p₃ rest, bytes = o :: rate :: o₀ ::
      o₁ :: a₀ :: a₁ :: b₀ :: b₁ :: c₀ :: c₁ :: d₀ :: d₁ :: p₀ :: p₁ :: p₂ :: p₃ :: rest → False) :
    bytes = [] := by
  rcases bytes with _ | ⟨_, bytes⟩
  · rfl
  iterate 15
    rcases bytes with _ | ⟨_, bytes⟩
    · simp at hwhole
  exact (hpartial _ _ _ _ _ _ _ _ _ _ _ _ _ _ _ _ _ rfl).elim

/-- What becomes of whole records: they are read, and written again as they were, or the first
one whose operation is not known is reported. -/
theorem records_cases (bytes : List UInt8) (hwhole : bytes.length % 16 = 0) :
    (∃ is, records bytes = .ok is ∧ encode is = bytes ∧ ∀ byte, ¬ FirstUnknown bytes byte) ∨
      ∃ byte, records bytes = .error (.unknownOpcode byte) ∧
        ∀ byte', FirstUnknown bytes byte' ↔ byte' = byte := by
  induction bytes using records.induct with
  | case1 o rate o₀ o₁ a₀ a₁ b₀ b₁ c₀ c₁ d₀ d₁ p₀ p₁ p₂ p₃ rest hnone =>
    have hunknown := Opcode.ofCode?_eq_none_iff.mp hnone
    refine .inr ⟨o, by rw [records, hnone]; rfl, fun byte => ?_⟩
    refine (firstUnknown_cons_iff [rate, o₀, o₁, a₀, a₁, b₀, b₁, c₀, c₁, d₀, d₁, p₀, p₁, p₂, p₃]
      rfl).trans ⟨?_, fun h => .inl ⟨hunknown, h⟩⟩
    rintro (⟨-, h⟩ | ⟨⟨opcode, hcode⟩, -⟩)
    · exact h
    · exact absurd hcode (hunknown opcode)
  | case2 o rate o₀ o₁ a₀ a₁ b₀ b₁ c₀ c₁ d₀ d₁ p₀ p₁ p₂ p₃ rest opcode hsome ih =>
    have hcode := Opcode.code_of_ofCode? hsome
    -- the operation is known, so the first unknown one is behind this record
    have hlater :
      ∀ byte, FirstUnknown (o :: rate :: o₀ :: o₁ :: a₀ :: a₁ :: b₀ :: b₁ :: c₀ :: c₁ :: d₀ :: d₁ ::
        p₀ :: p₁ :: p₂ :: p₃ :: rest) byte ↔ FirstUnknown rest byte := by
      intro byte
      refine (firstUnknown_cons_iff [rate, o₀, o₁, a₀, a₁, b₀, b₁, c₀, c₁, d₀, d₁, p₀, p₁, p₂, p₃]
        rfl).trans ⟨?_, fun h => .inr ⟨⟨opcode, hcode⟩, h⟩⟩
      rintro (⟨hunknown, -⟩ | ⟨-, h⟩)
      · exact absurd hcode (hunknown opcode)
      · exact h
    have hrest : rest.length % 16 = 0 := by
      simp only [List.length_cons] at hwhole
      omega
    simp only [hlater, records, hsome]
    rcases ih hrest with ⟨is, hread, hwritten, hnone⟩ | ⟨byte, hread, hunknown⟩
    · refine .inl ⟨_, by rw [hread]; rfl, ?_, hnone⟩
      rw [encode, List.flatMap_cons, ← encode, hwritten]
      simp [record, Operands.toList, bytes16_word16, bytes32_word32, hcode]
    · exact .inr ⟨byte, by rw [hread]; rfl, hunknown⟩
  | case3 t hpartial =>
    obtain rfl := eq_nil_of_partial hwhole hpartial
    exact .inl ⟨[], rfl, rfl, not_firstUnknown_nil⟩

/-- Reading and writing are inverse to each other on the bytes that can be read. The others
are no whole records, or start one with a byte that no operation has. -/
theorem codec_exact (is : List Instruction) (bytes : List UInt8) :
    (encode is).length = 16 * is.length ∧ decode (encode is) = .ok is ∧
    (decode bytes = .ok is ↔ encode is = bytes) ∧
    (∀ n, decode bytes = .error (.truncated n) ↔ ¬ 16 ∣ bytes.length ∧ n = bytes.length) ∧
    (∀ byte, decode bytes = .error (.unknownOpcode byte) ↔
      16 ∣ bytes.length ∧ FirstUnknown bytes byte) := by
  have hwrite : encode is = bytes → decode bytes = .ok is := fun h => h ▸ decode_encode is
  refine ⟨length_encode is, decode_encode is, ?_⟩
  rw [Nat.dvd_iff_mod_eq_zero]
  by_cases hwhole : bytes.length % 16 = 0
  · have hdecode : decode bytes = records bytes := if_neg fun h => h hwhole
    rw [hdecode] at hwrite ⊢
    rcases records_cases bytes hwhole with ⟨is', hread, hwritten, hnone⟩ | ⟨byte, hread, hunknown⟩
    · rw [hread] at hwrite ⊢
      refine ⟨⟨?_, hwrite⟩, by simp [hwhole], by simp [hnone]⟩
      rintro ⟨⟩
      exact hwritten
    · rw [hread] at hwrite ⊢
      refine ⟨⟨by simp, hwrite⟩, by simp [hwhole], fun byte' => ?_⟩
      rw [hunknown]
      simp [hwhole, eq_comm]
  · have hdecode : decode bytes = .error (.truncated bytes.length) := if_pos hwhole
    rw [hdecode] at hwrite ⊢
    exact ⟨⟨by simp, hwrite⟩, by simp [hwhole, eq_comm], by simp [hwhole]⟩

end Bytecode

end SignalPatch
