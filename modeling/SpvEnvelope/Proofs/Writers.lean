import SpvEnvelope.Proofs.Shortest
import SpvEnvelope.Proofs.Writing

/-!
# Writers of one form

A variable-length integer is written in three ways, and each chooses the form by limits of its own,
as `VarInt.length` does. All come to `VarInt.encode`. Over a buffer this takes as many bytes as
`VarInt.length` says, and the others stay (`VarInt.put_eq_ok`); a buffer of that length has no others,
and one of nine bytes is long enough for every form. So what is known of the written form holds of all
three (`VarInt.shortest_form_unique`).
-/

namespace SpvEnvelope

namespace BufferWriter

variable {buffer after : List UInt8}

/-! ## Writes that fit -/

@[simp] theorem store_eq_ok {index : Nat} {byte : UInt8} {done : Unit} :
    (store index byte).run buffer = .ok done after ↔
      index < buffer.length ∧ after = buffer.set index byte := by
  unfold store EStateM.run
  by_cases h : index < buffer.length
  · simp [h, eq_comm]
  · simp [h]

/-- A byte that is stored at the front takes the place of the first one. -/
theorem store_zero_eq_ok {byte : UInt8} {done : Unit} :
    (store 0 byte).run buffer = .ok done after ↔
      1 ≤ buffer.length ∧ after = byte :: buffer.drop 1 := by
  rw [store_eq_ok]
  cases buffer <;> simp

@[simp] theorem copy_eq_ok {start stop : Nat} {bytes : List UInt8} {done : Unit} :
    (copy start stop bytes).run buffer = .ok done after ↔
      (start ≤ stop ∧ stop ≤ buffer.length) ∧ bytes.length = stop - start ∧
        after = buffer.take start ++ bytes ++ buffer.drop stop := by
  unfold copy EStateM.run
  by_cases hplace : start ≤ stop ∧ stop ≤ buffer.length
  · by_cases hlength : bytes.length = stop - start
    · simp [hplace, hlength, eq_comm]
    · simp [hplace, hlength]
  · simp [hplace]

@[simp] theorem runOver_eq_ok {α : Type} {writer : BufferWriter α} {a : α} :
    writer.runOver buffer = .ok (a, after) ↔ writer.run buffer = .ok a after := by
  unfold runOver
  cases writer.run buffer <;> simp

end BufferWriter

namespace VarInt

variable {value : UInt64} {buffer after : List UInt8} {count : Nat}

/-! ## Over a buffer -/

/-- A marker and the bytes that belong behind it replace as many bytes. -/
theorem putMarked_eq_ok {marker : UInt8} {bytes : List UInt8} {stop : Nat}
    (hstop : stop = (marker :: bytes).length) :
    (putMarked marker stop bytes).run buffer = .ok count after ↔
      stop ≤ buffer.length ∧ count = stop ∧ after = marker :: bytes ++ buffer.drop stop := by
  rw [List.length_cons] at hstop
  have hdrop : (marker :: buffer.drop 1).drop stop = buffer.drop stop := by
    rw [hstop, List.drop_succ_cons, List.drop_drop, Nat.add_comm]
  have hlength : 1 ≤ buffer.length → (marker :: buffer.drop 1).length = buffer.length := by
    rw [List.length_cons, List.length_drop]
    exact Nat.sub_add_cancel
  simp only [putMarked, Reader.run_bind_eq_ok, Reader.run_pure_eq_ok,
    BufferWriter.store_zero_eq_ok, BufferWriter.copy_eq_ok]
  constructor
  · rintro ⟨_, _, ⟨hpos, rfl⟩, _, _, ⟨⟨-, hle⟩, -, rfl⟩, rfl, rfl⟩
    rw [hlength hpos] at hle
    exact ⟨hle, rfl, by rw [hdrop]; rfl⟩
  · rintro ⟨hle, rfl, rfl⟩
    have hpos : 1 ≤ buffer.length := by omega
    refine ⟨(), _, ⟨hpos, rfl⟩, (), _, ⟨⟨by omega, ?_⟩, by omega, rfl⟩, rfl, by rw [hdrop]; rfl⟩
    rw [hlength hpos]
    exact hle

/-- The first bytes of a buffer are replaced by the written form, if it has as many. -/
@[simp] theorem put_eq_ok : (put value).run buffer = .ok count after ↔
    length value ≤ buffer.length ∧ count = length value ∧
      after = encode value ++ buffer.drop (length value) := by
  -- by the limits of `put`: each has to be one of `length` and of `encode` as well
  unfold put length encode
  by_cases h1 : value < 0xfd
  · simp only [if_pos h1, Reader.run_bind_eq_ok, Reader.run_pure_eq_ok,
      BufferWriter.store_zero_eq_ok]
    constructor
    · rintro ⟨_, _, ⟨hpos, rfl⟩, rfl, rfl⟩
      exact ⟨hpos, rfl, rfl⟩
    · rintro ⟨hpos, rfl, rfl⟩
      exact ⟨(), _, ⟨hpos, rfl⟩, rfl, rfl⟩
  by_cases h3 : value < 0x10000
  · have hnarrow : value.toUInt16.toNat = value.toNat := Nat.mod_eq_of_lt h3
    simp only [if_neg h1, if_pos h3, hnarrow]
    exact putMarked_eq_ok (by simp)
  by_cases h5 : value < 0x100000000
  · have hnarrow : value.toUInt32.toNat = value.toNat := Nat.mod_eq_of_lt h5
    simp only [if_neg h1, if_neg h3, if_pos h5, hnarrow]
    exact putMarked_eq_ok (by simp)
  · simp only [if_neg h1, if_neg h3, if_neg h5]
    exact putMarked_eq_ok (by simp)

/-- The buffer as a whole is overwritten where writing over it succeeds. -/
theorem overwrite?_eq_some_iff : overwrite? value buffer = some after ↔
    (put value).run buffer = .ok (length value) after := by
  rw [put_eq_ok, overwrite?]
  by_cases h : length value ≤ buffer.length
  · simp [h, eq_comm]
  · simp [h]

/-! ## Through a buffer -/

theorem runOver_put (h : length value ≤ buffer.length) : (put value).runOver buffer =
    .ok (length value, encode value ++ buffer.drop (length value)) :=
  BufferWriter.runOver_eq_ok.mpr (put_eq_ok.mpr ⟨h, rfl, rfl⟩)

theorem length_le_nine (value : UInt64) : length value ≤ 9 := by
  unfold length
  split
  · decide
  · split
    · decide
    · split <;> decide

/-- Of a buffer of the right length nothing is left. -/
@[simp] theorem toBytes_eq (value : UInt64) : toBytes value = .ok (encode value) := by
  have hlength : (List.replicate (length value) (0 : UInt8)).length = length value :=
    List.length_replicate
  have hdrop : (List.replicate (length value) (0 : UInt8)).drop (length value) = [] :=
    List.drop_of_length_le (Nat.le_of_eq hlength)
  rw [toBytes, runOver_put (Nat.le_of_eq hlength.symm), hdrop, List.append_nil]
  rfl

/-- What is left of the nine bytes is not written. -/
@[simp] theorem write_eq (value : UInt64) (written : List UInt8) :
    write value written = .ok (written ++ encode value) := by
  have hput : (put value).runOver (List.replicate 9 0) =
      .ok (length value, encode value ++ (List.replicate 9 0).drop (length value)) :=
    runOver_put (length_le_nine value)
  generalize (List.replicate 9 (0 : UInt8)).drop (length value) = rest at hput
  have hle : length value ≤ (encode value ++ rest).length := by
    rw [List.length_append, length_encode]
    exact Nat.le_add_right _ _
  have htake : (encode value ++ rest).take (length value) = encode value := by
    rw [← length_encode, List.take_left]
  rw [write, hput, Except.bind_eq_ok_iff]
  refine ⟨_, rfl, ?_⟩
  dsimp only
  rw [if_pos hle, htake]
  rfl

/-! ## One form -/

@[simp] theorem run_read_encode (value : UInt64) (rest : List UInt8) :
    VarInt.read.run (encode value ++ rest) = .ok value rest :=
  read_eq_ok.mpr ⟨_, spelling_encode value, rfl⟩

theorem undercuts_of_read {bytes : List UInt8} (h : VarInt.read.run bytes = .ok value []) :
    Undercuts (encode value) bytes := by
  obtain ⟨form, hs, hbytes⟩ := read_eq_ok.mp h
  rw [List.append_nil] at hbytes
  exact hbytes ▸ hs.undercuts

/-- **An integer has one shortest form, and all writers write it.** As a byte string, behind what is
written so far and over the first bytes of a buffer stand the same bytes, as many as `length` says; of
the buffer nothing else changes. They are read back in front of any bytes, which are left. Other bytes
that are read as the integer are more. -/
theorem shortest_form_unique (value : UInt64) :
    toBytes value = .ok (encode value) ∧
    (∀ written, write value written = .ok (written ++ encode value)) ∧
    (∀ buffer count after, (put value).run buffer = .ok count after ↔
      length value ≤ buffer.length ∧ count = length value ∧
        after = encode value ++ buffer.drop (length value)) ∧
    (∀ buffer after, overwrite? value buffer = some after ↔
      (put value).run buffer = .ok (length value) after) ∧
    (encode value).length = length value ∧
    (∀ rest, VarInt.read.run (encode value ++ rest) = .ok value rest) ∧
    ∀ bytes, VarInt.read.run bytes = .ok value [] →
      length value ≤ bytes.length ∧ (bytes.length = length value → bytes = encode value) := by
  refine ⟨toBytes_eq value, write_eq value, fun _ _ _ => put_eq_ok,
    fun _ _ => overwrite?_eq_some_iff, length_encode value, run_read_encode value, ?_⟩
  intro bytes h
  have hu := undercuts_of_read h
  rw [← length_encode]
  exact ⟨hu.length_le, fun hlength => (hu.eq_of_length_eq hlength.symm).symm⟩

/-- The first number of three bytes: put in front of a byte that stays, and read from five bytes and
from three. -/
theorem shortest_form_unique_253 :
    (put 0xfd).run [1, 2, 3, 4] = .ok 3 [0xfd, 0xfd, 0, 4] ∧
    (VarInt.read.run [0xfe, 0xfd, 0, 0, 0] = .ok 0xfd [] ∧ length 0xfd ≤ 5) ∧
    VarInt.read.run [0xfd, 0xfd, 0] = .ok 0xfd [] ∧ 3 = length 0xfd ∧
      [0xfd, 0xfd, 0] = encode 0xfd := by
  obtain ⟨-, -, hput, -, -, -, hread⟩ := shortest_form_unique 0xfd
  have hfive : VarInt.read.run [0xfe, 0xfd, 0, 0, 0] = .ok 0xfd [] := rfl
  have hthree : VarInt.read.run [0xfd, 0xfd, 0] = .ok 0xfd [] := rfl
  have hlength : 3 = length 0xfd := rfl
  exact ⟨(hput _ _ _).mpr ⟨by decide, rfl, rfl⟩, ⟨hfive, (hread _ hfive).1⟩, hthree, hlength,
    (hread _ hthree).2 hlength⟩

end VarInt

end SpvEnvelope
