import SpvEnvelope.Proofs.Failing

/-!
# Reading at a position

A reader's state is what is left of its input. Here the input is kept whole, with a 64-bit position in
it, and the sizes that a read adds and subtracts must stay in the range of 64 bits: a sum or a
difference that does not stops the read with `Stop.overflow`. Each reader of bytes and integers has
its counterpart, which follows it from any position within an input whose length is a size
(`CursorReader.Follows`): it gives the same answer, moves to where what the reader has left begins,
and never overflows.

Where a reader fails, and with what, is said in `SpvEnvelope.Proofs.Failing`. What is left of the
input then matters only to one that reads on. A read of bytes, or of an integer of a fixed width,
leaves the input as it was (`Reader.Wants`). A variable-length integer that is cut off leaves it
without the lead byte, and one that is too large for a count leaves what follows it.
-/

namespace SpvEnvelope

/-! ## What a failed read leaves -/

namespace Reader

variable {α β : Type}

/-! ## Composition -/

section

variable {ε : Type} {reader : Reader ε α} {input rest : List UInt8} {e : ε}

theorem run_bind_eq_error {next : α → Reader ε β} : (reader >>= next).run input = .error e rest ↔
    reader.run input = .error e rest ∨
      ∃ a middle, reader.run input = .ok a middle ∧ (next a).run middle = .error e rest := by
  rw [EStateM.run_bind]
  cases reader.run input with
  | ok a middle =>
    constructor
    · intro h
      exact .inr ⟨a, middle, rfl, h⟩
    · rintro (h | ⟨_, _, hr, h⟩)
      · cases h
      · cases hr
        exact h
  | error e' rest' => simp

theorem run_map_eq_error {f : α → β} :
    (f <$> reader).run input = .error e rest ↔ reader.run input = .error e rest := by
  rw [map_eq_pure_bind, run_bind_eq_error, or_iff_left]
  rintro ⟨a, middle, -, h⟩
  cases h

end

/-! ## Reads of a fixed size -/

variable {n : Nat} {reader : Reader ReadError α}

/-- A run that fails lacks bytes of the `n` that it needs, and leaves the input as it was. -/
def Wants (n : Nat) (reader : Reader ReadError α) : Prop :=
  ∀ input cause rest, reader.run input = .error cause rest →
    input.length < n ∧ cause = .unexpectedEnd n input.length ∧ rest = input

theorem Wants.map (h : reader.Wants n) (f : α → β) : (f <$> reader).Wants n :=
  fun input cause rest hr => h input cause rest (run_map_eq_error.mp hr)

theorem bytes_wants (n : Nat) : (bytes n).Wants n := by
  intro input cause rest h
  obtain ⟨hlt, hcause⟩ := bytes_fails_iff.mp ⟨rest, h⟩
  refine ⟨hlt, hcause, ?_⟩
  unfold bytes EStateM.run at h
  dsimp only at h
  split at h
  · cases h
  · cases h
    rfl

theorem uint_eq_map (width : Nat) :
    uint width = LittleEndian.decode <$> Subtype.val <$> bytes width := by
  rw [Functor.map_map, map_eq_pure_bind]
  rfl

theorem uint_wants (width : Nat) : (uint width).Wants width := by
  rw [uint_eq_map]
  exact ((bytes_wants width).map _).map _

theorem u8_wants : u8.Wants 1 := (uint_wants 1).map _

theorem u16_wants : u16.Wants 2 := (uint_wants 2).map _

theorem u32_wants : u32.Wants 4 := (uint_wants 4).map _

theorem u64_wants : u64.Wants 8 := (uint_wants 8).map _

end Reader

/-! ## Variable-length integers -/

namespace VarInt

variable {input rest : List UInt8} {cause : ReadError}

/-- Only the lead byte of an integer that is cut off is taken. -/
theorem rest_of_read_eq_error (h : VarInt.read.run input = .error cause rest) :
    rest = input.tail := by
  rw [VarInt.read, Reader.run_bind_eq_error] at h
  obtain h | ⟨lead, middle, hlead, h⟩ := h
  · obtain ⟨hlt, -, rfl⟩ := Reader.u8_wants _ _ _ h
    rw [List.length_eq_zero_iff.mp (Nat.lt_one_iff.mp hlt), List.tail_nil]
  · rw [Reader.u8_eq_ok] at hlead
    rw [hlead, List.tail_cons]
    by_cases h9 : lead = 0xff
    · rw [if_pos h9] at h
      exact (Reader.u64_wants _ _ _ h).2.2
    by_cases h5 : lead = 0xfe
    · rw [if_neg h9, if_pos h5] at h
      exact (Reader.u32_wants.map _ _ _ _ h).2.2
    by_cases h3 : lead = 0xfd
    · rw [if_neg h9, if_neg h5, if_pos h3] at h
      exact (Reader.u16_wants.map _ _ _ _ h).2.2
    · rw [if_neg h9, if_neg h5, if_neg h3] at h
      cases h

/-- A count is cut off as the integer is, or all of the integer is taken and is too large. -/
theorem cases_of_readSize_eq_error (h : readSize.run input = .error cause rest) :
    read.run input = .error cause rest ∨
      ∃ value, read.run input = .ok value rest ∧ sizeLimit ≤ value.toNat ∧
        cause = .sizeTooLarge value := by
  rw [readSize, Reader.run_bind_eq_error] at h
  refine h.imp_right ?_
  rintro ⟨value, middle, hread, h⟩
  unfold toSize at h
  by_cases hlt : value.toNat < sizeLimit
  · rw [if_pos hlt] at h
    cases h
  · rw [if_neg hlt] at h
    cases h
    exact ⟨value, hread, Nat.le_of_not_lt hlt, rfl⟩

end VarInt

/-! ## Cursors -/

/-- A byte string and a position in it. -/
structure Cursor where
  data : List UInt8
  position : UInt64

/-- Why a read at a position stops. -/
inductive Stop where
  /-- A sum or a difference of sizes is out of range. -/
  | overflow
  /-- The reader fails. -/
  | read (cause : ReadError)

/-- A computation that moves a cursor. -/
abbrev CursorReader (α : Type) := EStateM Stop Cursor α

namespace CursorReader

/-! ## Reads -/

/-- The sum of two sizes. -/
def add (a b : UInt64) : CursorReader UInt64 :=
  if a.toNat + b.toNat < 2 ^ 64 then return a + b else throw .overflow

/-- The difference of two sizes. -/
def sub (a b : UInt64) : CursorReader UInt64 :=
  if b ≤ a then return a - b else throw .overflow

/-- The number of bytes from the position on. -/
def remaining : CursorReader UInt64 := do
  let cursor ← get
  sub (UInt64.ofNat cursor.data.length) cursor.position

/-- Takes exactly `n` bytes, or none if fewer remain. -/
def bytes (n : UInt64) : CursorReader (List UInt8) := do
  let remaining ← remaining
  if remaining < n then throw (.read (.unexpectedEnd n.toNat remaining.toNat))
  else do
    let cursor ← get
    let stop ← add cursor.position n
    set { cursor with position := stop }
    return cursor.data.extract cursor.position.toNat stop.toNat

/-- An unsigned integer of `width` bytes. -/
def uint (width : UInt64) : CursorReader Nat := do
  let taken ← bytes width
  return LittleEndian.decode taken

@[inherit_doc Reader.u8]
def u8 : CursorReader UInt8 := UInt8.ofNat <$> uint 1

@[inherit_doc Reader.u16]
def u16 : CursorReader UInt16 := UInt16.ofNat <$> uint 2

@[inherit_doc Reader.u32]
def u32 : CursorReader UInt32 := UInt32.ofNat <$> uint 4

@[inherit_doc Reader.u64]
def u64 : CursorReader UInt64 := UInt64.ofNat <$> uint 8

@[inherit_doc VarInt.read]
def varint : CursorReader UInt64 := do
  let lead ← u8
  if lead = 0xff then u64
  else if lead = 0xfe then UInt32.toUInt64 <$> u32
  else if lead = 0xfd then UInt16.toUInt64 <$> u16
  else return lead.toUInt64

@[inherit_doc VarInt.readSize]
def size : CursorReader Nat := do
  let value ← varint
  match VarInt.toSize value with
  | .ok size => return size
  | .error e => throw (.read e)

/-! ## Sizes in range -/

/-- Within the input, the number of bytes that remain is a difference in range. -/
theorem run_remaining {data : List UInt8} {start : UInt64} (hlt : data.length < 2 ^ 64)
    (hstart : start.toNat ≤ data.length) : ∃ left : UInt64,
      left.toNat = data.length - start.toNat ∧ remaining.run ⟨data, start⟩ = .ok left ⟨data, start⟩ := by
  have hlength : (UInt64.ofNat data.length).toNat = data.length := UInt64.toNat_ofNat_of_lt' hlt
  have hle : start ≤ UInt64.ofNat data.length := by
    rw [UInt64.le_iff_toNat_le, hlength]
    exact hstart
  refine ⟨UInt64.ofNat data.length - start, ?_, ?_⟩
  · rw [UInt64.toNat_sub_of_le _ _ hle, hlength]
  · rw [remaining, EStateM.run_bind, EStateM.run_get]
    simp only [sub, if_pos hle]
    rfl

/-- If enough bytes remain, their end is a sum in range. -/
theorem run_add (cursor : Cursor) {a b : UInt64} (h : a.toNat + b.toNat < 2 ^ 64) :
    (a + b).toNat = a.toNat + b.toNat ∧ (add a b).run cursor = .ok (a + b) cursor := by
  refine ⟨?_, ?_⟩
  · rw [UInt64.toNat_add, Nat.mod_eq_of_lt h]
  · rw [add, if_pos h]
    rfl

/-! ## Places in the input -/

/-- What comes after one position is what lies before another, and what comes after that. -/
theorem drop_eq_extract_append {start stop : Nat} (h : start ≤ stop) (data : List UInt8) :
    data.drop start = data.extract start stop ++ data.drop stop := by
  have hdrop : data.drop stop = (data.drop start).drop (stop - start) := by
    rw [List.drop_drop, Nat.add_sub_cancel' h]
  rw [List.extract_eq_take_drop, hdrop, List.take_append_drop]

theorem length_extract {data : List UInt8} {start stop : Nat} (h : stop ≤ data.length) :
    (data.extract start stop).length = stop - start := by
  rw [List.extract_eq_take_drop, List.length_take, List.length_drop]
  omega

/-! ## Following a reader -/

/-- From `start`, a read at a position comes to what a reader comes to, and to where the bytes begin
that the reader leaves. -/
inductive Moves {α : Type} (data : List UInt8) (start : UInt64) :
    EStateM.Result ReadError (List UInt8) α → EStateM.Result Stop Cursor α → Prop
  | ok {a : α} {stop : UInt64} (forward : start ≤ stop) (within : stop.toNat ≤ data.length) :
      Moves data start (.ok a (data.drop stop.toNat)) (.ok a ⟨data, stop⟩)
  | error {cause : ReadError} {stop : UInt64} (forward : start ≤ stop)
      (within : stop.toNat ≤ data.length) :
      Moves data start (.error cause (data.drop stop.toNat)) (.error (.read cause) ⟨data, stop⟩)

/-- From every position within an input whose length is a size, the read comes to what the reader
comes to. -/
def Follows {α : Type} (read : CursorReader α) (reader : Reader ReadError α) : Prop :=
  ∀ data start, data.length < 2 ^ 64 → start.toNat ≤ data.length →
    Moves data start (reader.run (data.drop start.toNat)) (read.run ⟨data, start⟩)

namespace Follows

variable {α β : Type} {read : CursorReader α} {reader : Reader ReadError α}

protected theorem pure (a : α) : Follows (pure a) (pure a) :=
  fun _ _ _ hstart => .ok (UInt64.le_refl _) hstart

protected theorem throw (cause : ReadError) :
    Follows (throw (.read cause) : CursorReader α) (throw cause) :=
  fun _ _ _ hstart => .error (UInt64.le_refl _) hstart

protected theorem bind {next : α → CursorReader β} {next' : α → Reader ReadError β}
    (h : Follows read reader) (hn : ∀ a, Follows (next a) (next' a)) :
    Follows (read >>= next) (reader >>= next') := by
  intro data start hlt hstart
  have hmoves := h data start hlt hstart
  rw [EStateM.run_bind, EStateM.run_bind]
  generalize reader.run (data.drop start.toNat) = result at hmoves
  generalize read.run ⟨data, start⟩ = result' at hmoves
  cases hmoves with
  | @ok a middle forward within =>
    have hrest := hn a data middle hlt within
    dsimp only
    generalize (next' a).run (data.drop middle.toNat) = result at hrest
    generalize (next a).run ⟨data, middle⟩ = result' at hrest
    cases hrest with
    | ok forward' within' => exact .ok (UInt64.le_trans forward forward') within'
    | error forward' within' => exact .error (UInt64.le_trans forward forward') within'
  | error forward within => exact .error forward within

protected theorem map (h : Follows read reader) (f : α → β) : Follows (f <$> read) (f <$> reader) := by
  rw [map_eq_pure_bind, map_eq_pure_bind]
  exact h.bind fun a => .pure (f a)

/-! ## Bytes -/

/-- Bytes are taken from the position on, and there are as many after it as the reader has left. -/
protected theorem bytes (n : UInt64) :
    Follows (CursorReader.bytes n) (Subtype.val <$> Reader.bytes n.toNat) := by
  intro data start hlt hstart
  obtain ⟨left, hleft, hremaining⟩ := run_remaining hlt hstart
  have hlength : (data.drop start.toNat).length = left.toNat := by rw [List.length_drop, hleft]
  rw [CursorReader.bytes, EStateM.run_bind, hremaining]
  dsimp only
  by_cases hshort : left < n
  · rw [if_pos hshort]
    have hrun : (Subtype.val <$> Reader.bytes n.toNat).run (data.drop start.toNat) =
        .error (.unexpectedEnd n.toNat left.toNat) (data.drop start.toNat) := by
      have hlack : (data.drop start.toNat).length < n.toNat := by
        rw [hlength]
        exact UInt64.lt_iff_toNat_lt.mp hshort
      obtain ⟨rest, h⟩ := Reader.fails_map_iff.mpr (Reader.bytes_fails_iff.mpr ⟨hlack, rfl⟩)
      rw [h, ((Reader.bytes_wants _).map _ _ _ _ h).2.2, hlength]
    rw [hrun]
    exact .error (UInt64.le_refl _) hstart
  · -- the end of what is taken lies within the input, so it is a sum in range
    rw [if_neg hshort]
    have henough : n.toNat ≤ left.toNat := UInt64.le_iff_toNat_le.mp (UInt64.not_lt.mp hshort)
    have hwithin : start.toNat + n.toNat ≤ data.length := by omega
    obtain ⟨hstop, hadd⟩ := run_add ⟨data, start⟩ (Nat.lt_of_le_of_lt hwithin hlt)
    have hrun : (Subtype.val <$> Reader.bytes n.toNat).run (data.drop start.toNat) =
        .ok (data.extract start.toNat (start + n).toNat) (data.drop (start + n).toNat) := by
      have htaken : (data.extract start.toNat (start + n).toNat).length = n.toNat := by
        rw [length_extract (by omega), hstop, Nat.add_sub_cancel_left]
      exact Reader.run_map_eq_ok.mpr
        ⟨⟨_, htaken⟩, Reader.bytes_eq_ok.mpr (drop_eq_extract_append (by omega) data), rfl⟩
    rw [hrun, EStateM.run_bind, EStateM.run_get]
    dsimp only
    rw [EStateM.run_bind, hadd]
    exact .ok (UInt64.le_iff_toNat_le.mpr (by omega)) (by omega)

/-! ## Integers -/

protected theorem uint (width : UInt64) :
    Follows (CursorReader.uint width) (Reader.uint width.toNat) := by
  rw [Reader.uint_eq_map, CursorReader.uint, ← map_eq_pure_bind]
  exact (Follows.bytes width).map _

protected theorem u8 : Follows CursorReader.u8 Reader.u8 := (Follows.uint 1).map _

protected theorem u16 : Follows CursorReader.u16 Reader.u16 := (Follows.uint 2).map _

protected theorem u32 : Follows CursorReader.u32 Reader.u32 := (Follows.uint 4).map _

protected theorem u64 : Follows CursorReader.u64 Reader.u64 := (Follows.uint 8).map _

protected theorem varint : Follows CursorReader.varint VarInt.read := by
  refine Follows.u8.bind fun lead => ?_
  by_cases h9 : lead = 0xff
  · rw [if_pos h9, if_pos h9]
    exact Follows.u64
  by_cases h5 : lead = 0xfe
  · rw [if_neg h9, if_neg h9, if_pos h5, if_pos h5]
    exact Follows.u32.map _
  by_cases h3 : lead = 0xfd
  · rw [if_neg h9, if_neg h9, if_neg h5, if_neg h5, if_pos h3, if_pos h3]
    exact Follows.u16.map _
  · rw [if_neg h9, if_neg h9, if_neg h5, if_neg h5, if_neg h3, if_neg h3]
    exact .pure _

protected theorem size : Follows CursorReader.size VarInt.readSize := by
  refine Follows.varint.bind fun value => ?_
  cases VarInt.toSize value with
  | ok size => exact .pure size
  | error cause => exact .throw cause

end Follows

end CursorReader

end SpvEnvelope
