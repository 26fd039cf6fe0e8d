import SpvEnvelope.Proofs.Flaws
import SpvEnvelope.Proofs.Reading

/-!
# Where readers fail

What `SpvEnvelope.Proofs.Reading` says of readers that succeed is said here of readers that fail. A
run fails exactly where one of its parts does, after all parts before it have succeeded
(`Reader.fails_bind_iff`). Reading items fails exactly at the first item that fails
(`Reader.items_fails_iff`). For the readers of bytes and integers the inputs at which they fail are
those that are too short. Most parts of the format begin with a byte or a variable-length integer, and
for these the composition is spelled out once (`Reader.fails_u8_bind_iff`,
`VarInt.fails_read_bind_iff`).
-/

namespace SpvEnvelope

namespace Reader

variable {ε ε' α β : Type} {reader : Reader ε α} {input middle rest : List UInt8} {a : α} {e : ε}

/-- The reader fails on this input with this error. -/
def Fails (reader : Reader ε α) (input : List UInt8) (e : ε) : Prop :=
  ∃ rest, reader.run input = .error e rest

/-- The reader fails on exactly the flawed inputs, and with the fault that is the matter there. -/
def FailsBy (reader : Reader ε α) (flaw : ε → List UInt8 → Prop) : Prop :=
  ∀ input e, reader.Fails input e ↔ flaw e input

/-! ## Composition -/

@[simp] theorem fails_throw_iff {e' : ε} : (throw e' : Reader ε α).Fails input e ↔ e' = e := by
  constructor
  · rintro ⟨rest, h⟩
    cases h
    rfl
  · rintro rfl
    exact ⟨input, rfl⟩

@[simp] theorem not_fails_pure : ¬(pure a : Reader ε α).Fails input e := by
  rintro ⟨rest, h⟩
  cases h

/-- A run of two parts fails with the first, or with the second on what the first has left. -/
@[simp] theorem fails_bind_iff {next : α → Reader ε β} : (reader >>= next).Fails input e ↔
    reader.Fails input e ∨
      ∃ a middle, reader.run input = .ok a middle ∧ (next a).Fails middle e := by
  unfold Fails
  rw [EStateM.run_bind]
  cases reader.run input with
  | ok a middle =>
    constructor
    · intro h
      exact .inr ⟨a, middle, rfl, h⟩
    · rintro (⟨rest, h⟩ | ⟨_, _, hr, h⟩)
      · cases h
      · cases hr
        exact h
  | error e' rest => simp

/-- A run whose result is only used fails as the run itself does. -/
theorem fails_bind_pure_iff {f : α → β} :
    (reader >>= fun a => pure (f a)).Fails input e ↔ reader.Fails input e := by
  rw [fails_bind_iff]
  simp

@[simp]
theorem fails_map_iff {f : α → β} : (f <$> reader).Fails input e ↔ reader.Fails input e := by
  rw [map_eq_pure_bind, fails_bind_pure_iff]

@[simp] theorem fails_mapError_iff {f : ε → ε'} {e' : ε'} :
    (reader.mapError f).Fails input e' ↔ ∃ e, reader.Fails input e ∧ f e = e' := by
  unfold Fails
  rw [mapError, EStateM.run_adaptExcept]
  cases reader.run input with
  | ok a rest => simp
  | error e rest => simp

theorem fails_get_bind_iff {next : List UInt8 → Reader ε α} :
    (get >>= next).Fails input e ↔ (next input).Fails input e := Iff.rfl

/-! ## Bytes and integers -/

variable {cause : ReadError}

@[simp] theorem bytes_fails_iff {n : Nat} : (bytes n).Fails input cause ↔
    input.length < n ∧ cause = .unexpectedEnd n input.length := by
  unfold Fails bytes EStateM.run
  dsimp only
  split
  · rename_i h
    rw [List.length_take] at h
    simp only [reduceCtorEq, exists_false, false_iff, not_and]
    omega
  · rename_i h
    rw [List.length_take] at h
    simp only [EStateM.Result.error.injEq, exists_and_left, exists_eq', and_true]
    constructor
    · rintro rfl
      exact ⟨by omega, rfl⟩
    · rintro ⟨-, rfl⟩
      rfl

@[simp] theorem uint_fails_iff {width : Nat} : (uint width).Fails input cause ↔
    input.length < width ∧ cause = .unexpectedEnd width input.length := by
  rw [uint, fails_bind_pure_iff, bytes_fails_iff]

@[simp] theorem u8_fails_iff : u8.Fails input cause ↔ input = [] ∧ cause = .unexpectedEnd 1 0 := by
  rw [u8, fails_map_iff, uint_fails_iff]
  constructor
  · rintro ⟨h, rfl⟩
    obtain rfl := List.length_eq_zero_iff.mp (Nat.lt_one_iff.mp h)
    exact ⟨rfl, rfl⟩
  · rintro ⟨rfl, rfl⟩
    exact ⟨Nat.zero_lt_one, rfl⟩

/-- A run that begins with a byte fails for the lack of it, or with what comes after it. -/
theorem fails_u8_bind_iff {f : ReadError → ε} {next : UInt8 → Reader ε α} :
    (u8.mapError f >>= next).Fails input e ↔
      (input = [] ∧ e = f (.unexpectedEnd 1 0)) ∨
        ∃ value rest, (next value).Fails rest e ∧ input = value :: rest := by
  rw [fails_bind_iff]
  simp only [fails_mapError_iff, run_mapError_eq_ok, u8_fails_iff, u8_eq_ok]
  constructor
  · rintro (⟨_, ⟨rfl, rfl⟩, rfl⟩ | ⟨value, rest, rfl, h⟩)
    · exact .inl ⟨rfl, rfl⟩
    · exact .inr ⟨value, rest, h, rfl⟩
  · rintro (⟨rfl, rfl⟩ | ⟨value, rest, h, rfl⟩)
    · exact .inl ⟨_, ⟨rfl, rfl⟩, rfl⟩
    · exact .inr ⟨value, rest, rfl, h⟩

@[simp] theorem u16_fails_iff : u16.Fails input cause ↔
    input.length < 2 ∧ cause = .unexpectedEnd 2 input.length := by
  simp [u16]

@[simp] theorem u32_fails_iff : u32.Fails input cause ↔
    input.length < 4 ∧ cause = .unexpectedEnd 4 input.length := by
  simp [u32]

@[simp] theorem u64_fails_iff : u64.Fails input cause ↔
    input.length < 8 ∧ cause = .unexpectedEnd 8 input.length := by
  simp [u64]

end Reader

@[simp] theorem Digest.read_fails_iff {input : List UInt8} {cause : ReadError} :
    Digest.read.Fails input cause ↔
      input.length < 32 ∧ cause = .unexpectedEnd 32 input.length := by
  rw [Digest.read, Reader.fails_bind_pure_iff, Reader.bytes_fails_iff]

/-! ## Variable-length integers -/

namespace VarInt

theorem read_failsBy : VarInt.read.FailsBy VarInt.Flaw := by
  intro input cause
  simp only [VarInt.read, Reader.fails_bind_iff, Reader.u8_fails_iff, Reader.u8_eq_ok]
  constructor
  · rintro (⟨rfl, rfl⟩ | ⟨lead, rest, rfl, h⟩)
    · exact .lead
    by_cases h9 : lead = 0xff
    · rw [if_pos h9, Reader.u64_fails_iff] at h
      obtain ⟨hlt, rfl⟩ := h
      rw [h9]
      exact .nine hlt
    by_cases h5 : lead = 0xfe
    · rw [if_neg h9, if_pos h5, Reader.fails_map_iff, Reader.u32_fails_iff] at h
      obtain ⟨hlt, rfl⟩ := h
      rw [h5]
      exact .five hlt
    by_cases h3 : lead = 0xfd
    · rw [if_neg h9, if_neg h5, if_pos h3, Reader.fails_map_iff, Reader.u16_fails_iff] at h
      obtain ⟨hlt, rfl⟩ := h
      rw [h3]
      exact .three hlt
    · simp [h9, h5, h3] at h
  · rintro (_ | h | h | h)
    · exact .inl ⟨rfl, rfl⟩
    · exact .inr ⟨0xfd, _, rfl, Reader.fails_map_iff.mpr (Reader.u16_fails_iff.mpr ⟨h, rfl⟩)⟩
    · exact .inr ⟨0xfe, _, rfl, Reader.fails_map_iff.mpr (Reader.u32_fails_iff.mpr ⟨h, rfl⟩)⟩
    · exact .inr ⟨0xff, _, rfl, Reader.u64_fails_iff.mpr ⟨h, rfl⟩⟩

/-- A run that begins with a variable-length integer fails by a flaw of it, or with what comes after
it. -/
theorem fails_read_bind_iff {ε α : Type} {f : ReadError → ε} {next : UInt64 → Reader ε α}
    {input : List UInt8} {e : ε} : (VarInt.read.mapError f >>= next).Fails input e ↔
      (∃ cause, VarInt.Flaw cause input ∧ e = f cause) ∨
        ∃ value front rest, VarInt.Spelling value front ∧ (next value).Fails rest e ∧
          input = front ++ rest := by
  rw [Reader.fails_bind_iff]
  simp only [Reader.fails_mapError_iff, Reader.run_mapError_eq_ok, read_failsBy _ _, read_eq_ok]
  constructor
  · rintro (⟨cause, h, rfl⟩ | ⟨value, rest, ⟨front, hs, rfl⟩, h⟩)
    · exact .inl ⟨cause, h, rfl⟩
    · exact .inr ⟨value, front, rest, hs, h, rfl⟩
  · rintro (⟨cause, h, rfl⟩ | ⟨value, front, rest, hs, h, rfl⟩)
    · exact .inl ⟨cause, h, rfl⟩
    · exact .inr ⟨value, rest, ⟨front, hs, rfl⟩, h⟩

@[simp] theorem readSize_fails_iff {input : List UInt8} {cause : ReadError} :
    readSize.Fails input cause ↔
      VarInt.Flaw cause input ∨
        ∃ size front rest, VarInt.Spelling size front ∧ sizeLimit ≤ size.toNat ∧
          cause = .sizeTooLarge size ∧ input = front ++ rest := by
  unfold readSize toSize
  rw [Reader.fails_bind_iff, read_failsBy input cause]
  refine or_congr_right ?_
  constructor
  · rintro ⟨size, rest, hr, h⟩
    obtain ⟨front, hs, rfl⟩ := read_eq_ok.mp hr
    by_cases hlt : size.toNat < sizeLimit
    · simp [hlt] at h
    · rw [if_neg hlt] at h
      exact ⟨size, front, rest, hs, Nat.le_of_not_lt hlt, (Reader.fails_throw_iff.mp h).symm, rfl⟩
  · rintro ⟨size, front, rest, hs, hle, rfl, rfl⟩
    refine ⟨size, rest, read_eq_ok.mpr ⟨front, hs, rfl⟩, ?_⟩
    rw [if_neg (Nat.not_lt.mpr hle)]
    simp

end VarInt

/-! ## Items -/

namespace Reader

variable {ε α : Type} {item : Nat → Reader ε α} {valid : α → Prop} {form : α → List UInt8 → Prop}
  {input : List UInt8} {e : ε}

theorem itemsOnto_fails_iff (h : ∀ index, (item index).Reads valid form) {index count : Nat}
    {done : List α} : (itemsOnto item index count done).Fails input e ↔
      ∃ before front rest, before.length < count ∧ (∀ a ∈ before, valid a) ∧
        Sequence form before front ∧ (item (index + before.length)).Fails rest e ∧
        input = front ++ rest := by
  -- on the number of items: each that is read moves on to the next index
  induction count generalizing index done input with
  | zero =>
    unfold itemsOnto
    simp only [not_fails_pure, Nat.not_lt_zero, false_and, exists_false]
  | succ count ih =>
    unfold itemsOnto
    rw [fails_bind_iff]
    simp only [fails_bind_pure_iff, h index _ _ _, ih]
    constructor
    · rintro (hf | ⟨next, _, ⟨hv, front, hfront, rfl⟩, before, front', rest, hlt, hvs, hs, hf, rfl⟩)
      · exact ⟨[], [], input, Nat.zero_lt_succ count, by simp, .nil, hf, rfl⟩
      · refine ⟨next :: before, front ++ front', rest, Nat.succ_lt_succ hlt,
          List.forall_mem_cons.mpr ⟨hv, hvs⟩, .cons hfront hs, ?_, by rw [List.append_assoc]⟩
        rwa [List.length_cons, Nat.add_comm before.length, ← Nat.add_assoc]
    · rintro ⟨before, front, rest, hlt, hvs, hs, hf, rfl⟩
      cases hs with
      | nil => exact .inl hf
      | @cons next before front front' hfront hs =>
        obtain ⟨hv, hvs⟩ := List.forall_mem_cons.mp hvs
        rw [List.length_cons, Nat.add_comm before.length, ← Nat.add_assoc] at hf
        exact .inr ⟨next, front' ++ rest, ⟨hv, front, hfront, by rw [List.append_assoc]⟩, before,
          front', rest, Nat.lt_of_succ_lt_succ hlt, hvs, hs, hf, rfl⟩

/-- Reading items fails at the first item that fails, which those before it are not. -/
theorem items_fails_iff (h : ∀ index, (item index).Reads valid form) {count : Nat} :
    (items count item).Fails input e ↔
      ∃ before front rest, before.length < count ∧ (∀ a ∈ before, valid a) ∧
        Sequence form before front ∧ (item before.length).Fails rest e ∧ input = front ++ rest := by
  rw [items, fails_bind_pure_iff, itemsOnto_fails_iff h]
  simp

end Reader

end SpvEnvelope
