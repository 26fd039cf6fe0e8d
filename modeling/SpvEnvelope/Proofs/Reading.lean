import SpvEnvelope.Proofs.Grammar

/-!
# What readers read

A reader that succeeds has taken a front of its input and left the rest. For each reader of the
library one lemma says which fronts these are (`…_eq_ok`, `Reader.Reads`), as an equivalence, so that
it serves both to take a run apart and to build one. Composed readers are rewritten with the laws of
`bind`, `pure` and `mapError` first.
-/

namespace SpvEnvelope

/-! ## Little-endian numbers -/

namespace LittleEndian

theorem decode_lt (bytes : List UInt8) : decode bytes < 256 ^ bytes.length := by
  induction bytes with
  | nil => simp [decode]
  | cons byte rest ih =>
    have hb := byte.toNat_lt
    simp only [decode, List.length_cons, Nat.pow_succ]
    omega

@[simp] theorem decode_encode (width n : Nat) : decode (encode width n) = n % 256 ^ width := by
  induction width generalizing n with
  | zero => simp [encode, decode, Nat.mod_one]
  | succ width ih =>
    have hb : (UInt8.ofNat n).toNat = n % 256 := by simp
    rw [encode, decode, ih, hb, Nat.pow_succ, Nat.mul_comm (256 ^ width) 256, Nat.mod_mul]

end LittleEndian

namespace Reader

variable {ε ε' α β : Type} {input rest : List UInt8}

/-! ## Composition -/

theorem run_bind_eq_ok {reader : Reader ε α} {next : α → Reader ε β} {b : β} :
    (reader >>= next).run input = .ok b rest ↔
      ∃ a middle, reader.run input = .ok a middle ∧ (next a).run middle = .ok b rest := by
  rw [EStateM.run_bind]
  cases reader.run input with
  | ok a middle =>
    constructor
    · intro h
      exact ⟨a, middle, rfl, h⟩
    · rintro ⟨_, _, hr, h⟩
      cases hr
      exact h
  | error e rest' => simp

theorem run_pure_eq_ok {a b : α} :
    (pure a : Reader ε α).run input = .ok b rest ↔ a = b ∧ input = rest := by
  rw [EStateM.run_pure]
  simp

theorem run_throw_ne_ok {e : ε} {a : α} : (throw e : Reader ε α).run input ≠ .ok a rest := by
  intro h
  cases h

theorem run_map_eq_ok {f : α → β} {reader : Reader ε α} {b : β} :
    (f <$> reader).run input = .ok b rest ↔ ∃ a, reader.run input = .ok a rest ∧ f a = b := by
  rw [map_eq_pure_bind, run_bind_eq_ok]
  constructor
  · rintro ⟨a, _, h, hb⟩
    obtain ⟨rfl, rfl⟩ := run_pure_eq_ok.mp hb
    exact ⟨a, h, rfl⟩
  · rintro ⟨a, h, rfl⟩
    exact ⟨a, rest, h, rfl⟩

@[simp] theorem run_mapError_eq_ok {f : ε → ε'} {reader : Reader ε α} {a : α} :
    (reader.mapError f).run input = .ok a rest ↔ reader.run input = .ok a rest := by
  rw [mapError, EStateM.run_adaptExcept]
  cases reader.run input <;> simp

theorem run_get_bind {next : List UInt8 → Reader ε α} :
    (get >>= next).run input = (next input).run input := rfl

/-! ## Bytes and integers -/

@[simp] theorem bytes_eq_ok {n : Nat} {taken : { taken : List UInt8 // taken.length = n }} :
    (bytes n).run input = .ok taken rest ↔ input = taken.val ++ rest := by
  obtain ⟨taken, h⟩ := taken
  unfold bytes EStateM.run
  constructor
  · intro hr
    dsimp only at hr
    split at hr
    · cases hr
      exact (List.take_append_drop n input).symm
    · cases hr
  · rintro rfl
    have ht : (taken ++ rest).take n = taken := by rw [← h, List.take_left]
    have hd : (taken ++ rest).drop n = rest := by rw [← h, List.drop_left]
    simp [ht, hd, h]

@[simp] theorem uint_eq_ok {width n : Nat} : (uint width).run input = .ok n rest ↔
    n < 256 ^ width ∧ input = LittleEndian.encode width n ++ rest := by
  unfold uint
  simp only [run_bind_eq_ok, run_pure_eq_ok, bytes_eq_ok]
  constructor
  · rintro ⟨⟨taken, rfl⟩, _, rfl, rfl, rfl⟩
    exact ⟨LittleEndian.decode_lt taken, by simp⟩
  · rintro ⟨hlt, rfl⟩
    refine ⟨⟨_, LittleEndian.length_encode width n⟩, rest, rfl, ?_, rfl⟩
    simp [Nat.mod_eq_of_lt hlt]

/-- An integer type whose values are the numbers of `width` bytes is read as these bytes. -/
theorem map_uint_eq_ok {width : Nat} {ofNat : Nat → β} {toNat : β → Nat}
    (toNat_lt : ∀ b, toNat b < 256 ^ width) (ofNat_toNat : ∀ b, ofNat (toNat b) = b)
    (toNat_ofNat : ∀ n, n < 256 ^ width → toNat (ofNat n) = n) {b : β} :
    (ofNat <$> uint width).run input = .ok b rest ↔
      input = LittleEndian.encode width (toNat b) ++ rest := by
  rw [run_map_eq_ok]
  constructor
  · rintro ⟨n, h, rfl⟩
    obtain ⟨hlt, rfl⟩ := uint_eq_ok.mp h
    rw [toNat_ofNat n hlt]
  · rintro rfl
    exact ⟨toNat b, uint_eq_ok.mpr ⟨toNat_lt b, rfl⟩, ofNat_toNat b⟩

@[simp]
theorem u8_eq_ok {value : UInt8} : u8.run input = .ok value rest ↔ input = value :: rest := by
  have h : (UInt8.ofNat <$> uint 1).run input = .ok value rest ↔
      input = LittleEndian.encode 1 value.toNat ++ rest :=
    map_uint_eq_ok UInt8.toNat_lt (fun _ => UInt8.ofNat_toNat) fun _ h => UInt8.toNat_ofNat_of_lt' h
  rw [u8, h]
  simp [LittleEndian.encode]

@[simp] theorem u16_eq_ok {value : UInt16} :
    u16.run input = .ok value rest ↔ input = LittleEndian.encode 2 value.toNat ++ rest :=
  map_uint_eq_ok UInt16.toNat_lt (fun _ => UInt16.ofNat_toNat) fun _ h => UInt16.toNat_ofNat_of_lt' h

@[simp] theorem u32_eq_ok {value : UInt32} :
    u32.run input = .ok value rest ↔ input = LittleEndian.encode 4 value.toNat ++ rest :=
  map_uint_eq_ok UInt32.toNat_lt (fun _ => UInt32.ofNat_toNat) fun _ h => UInt32.toNat_ofNat_of_lt' h

@[simp] theorem u64_eq_ok {value : UInt64} :
    u64.run input = .ok value rest ↔ input = LittleEndian.encode 8 value.toNat ++ rest :=
  map_uint_eq_ok UInt64.toNat_lt (fun _ => UInt64.ofNat_toNat) fun _ h => UInt64.toNat_ofNat_of_lt' h

end Reader

@[simp] theorem Digest.read_eq_ok {digest : Digest} {input rest : List UInt8} :
    Digest.read.run input = .ok digest rest ↔ input = digest.bytes ++ rest := by
  unfold Digest.read
  simp only [Reader.run_bind_eq_ok, Reader.run_pure_eq_ok, Reader.bytes_eq_ok]
  constructor
  · rintro ⟨⟨bytes, h⟩, _, rfl, rfl, rfl⟩
    rfl
  · rintro rfl
    exact ⟨⟨digest.bytes, digest.length_bytes⟩, rest, rfl, rfl, rfl⟩

namespace VarInt

variable {input rest : List UInt8}

/-! ## Variable-length integers -/

/-- A narrow integer that is widened is read as the values below its limit. -/
theorem map_widen_eq_ok {β : Type} {reader : Reader ReadError β} {width : Nat}
    {toNat : β → Nat} {widen : β → UInt64} (limit : UInt64) (narrow : UInt64 → β)
    (reader_eq_ok : ∀ input b rest, reader.run input = .ok b rest ↔
      input = LittleEndian.encode width (toNat b) ++ rest)
    (toNat_widen : ∀ b, (widen b).toNat = toNat b) (toNat_lt : ∀ b, toNat b < limit.toNat)
    (toNat_narrow : ∀ value : UInt64, value.toNat < limit.toNat → toNat (narrow value) = value.toNat)
    {value : UInt64} :
    (widen <$> reader).run input = .ok value rest ↔
      value < limit ∧ input = LittleEndian.encode width value.toNat ++ rest := by
  rw [Reader.run_map_eq_ok, UInt64.lt_iff_toNat_lt]
  constructor
  · rintro ⟨b, hb, rfl⟩
    rw [toNat_widen]
    exact ⟨toNat_lt b, (reader_eq_ok _ _ _).mp hb⟩
  · rintro ⟨hlt, rfl⟩
    refine ⟨narrow value, (reader_eq_ok _ _ _).mpr (by rw [toNat_narrow value hlt]), ?_⟩
    rw [← UInt64.toNat_inj, toNat_widen, toNat_narrow value hlt]

theorem u16_toUInt64_eq_ok {value : UInt64} :
    (UInt16.toUInt64 <$> Reader.u16).run input = .ok value rest ↔
      value < 0x10000 ∧ input = LittleEndian.encode 2 value.toNat ++ rest :=
  map_widen_eq_ok 0x10000 UInt64.toUInt16 (fun _ _ _ => Reader.u16_eq_ok) UInt16.toNat_toUInt64
    UInt16.toNat_lt fun _ h => Nat.mod_eq_of_lt h

theorem u32_toUInt64_eq_ok {value : UInt64} :
    (UInt32.toUInt64 <$> Reader.u32).run input = .ok value rest ↔
      value < 0x100000000 ∧ input = LittleEndian.encode 4 value.toNat ++ rest :=
  map_widen_eq_ok 0x100000000 UInt64.toUInt32 (fun _ _ _ => Reader.u32_eq_ok)
    UInt32.toNat_toUInt64 UInt32.toNat_lt fun _ h => Nat.mod_eq_of_lt h

/-- A lead byte below the markers is the value. -/
theorem toUInt8_of_lt {value : UInt64} (h : value < 0xfd) :
    value.toUInt8.toUInt64 = value ∧ value.toUInt8.toNat < 0xfd := by
  have hlt : value.toNat < 0xfd := UInt64.lt_iff_toNat_lt.mp h
  have hmod : value.toUInt8.toNat = value.toNat := Nat.mod_eq_of_lt (by omega)
  constructor
  · rw [← UInt64.toNat_inj, UInt8.toNat_toUInt64, hmod]
  · rw [hmod]
    exact hlt

/-- The lead byte tells the form, and each form is read as the value that it holds. -/
@[simp] theorem read_eq_ok {value : UInt64} :
    VarInt.read.run input = .ok value rest ↔
      ∃ front, VarInt.Spelling value front ∧ input = front ++ rest := by
  simp only [VarInt.read, Reader.run_bind_eq_ok, Reader.u8_eq_ok]
  constructor
  · rintro ⟨lead, middle, rfl, h⟩
    by_cases h9 : lead = 0xff
    · rw [if_pos h9, Reader.u64_eq_ok] at h
      exact ⟨_, .nine, by simp [h9, h]⟩
    by_cases h5 : lead = 0xfe
    · rw [if_neg h9, if_pos h5, u32_toUInt64_eq_ok] at h
      exact ⟨_, .five h.1, by simp [h5, h.2]⟩
    by_cases h3 : lead = 0xfd
    · rw [if_neg h9, if_neg h5, if_pos h3, u16_toUInt64_eq_ok] at h
      exact ⟨_, .three h.1, by simp [h3, h.2]⟩
    rw [if_neg h9, if_neg h5, if_neg h3, Reader.run_pure_eq_ok] at h
    obtain ⟨rfl, rfl⟩ := h
    have hlt : lead.toUInt64 < 0xfd := by
      have hlead := lead.toNat_lt
      simp only [← UInt8.toNat_inj, UInt8.reduceToNat] at h9 h5 h3
      simp only [UInt64.lt_iff_toNat_lt, UInt8.toNat_toUInt64, UInt64.reduceToNat]
      omega
    exact ⟨_, .one hlt, by simp⟩
  · rintro ⟨front, hs, rfl⟩
    cases hs with
    | one h =>
      obtain ⟨hv, hlt⟩ := toUInt8_of_lt h
      have hne (lead : UInt8) (hlead : 0xfd ≤ lead.toNat) : value.toUInt8 ≠ lead := by
        rintro rfl
        omega
      refine ⟨value.toUInt8, rest, rfl, ?_⟩
      rw [if_neg (hne _ (by decide)), if_neg (hne _ (by decide)), if_neg (hne _ (by decide)), hv]
      rfl
    | three h => exact ⟨0xfd, _, rfl, u16_toUInt64_eq_ok.mpr ⟨h, rfl⟩⟩
    | five h => exact ⟨0xfe, _, rfl, u32_toUInt64_eq_ok.mpr ⟨h, rfl⟩⟩
    | nine => exact ⟨0xff, _, rfl, Reader.u64_eq_ok.mpr rfl⟩

@[simp] theorem readSize_eq_ok {size : Nat} : VarInt.readSize.run input = .ok size rest ↔
    size < sizeLimit ∧
      ∃ value front, value.toNat = size ∧ VarInt.Spelling value front ∧ input = front ++ rest := by
  unfold readSize toSize
  rw [Reader.run_bind_eq_ok]
  constructor
  · rintro ⟨value, middle, hv, h⟩
    obtain ⟨front, hs, rfl⟩ := read_eq_ok.mp hv
    by_cases hlt : value.toNat < sizeLimit
    · rw [if_pos hlt] at h
      obtain ⟨rfl, rfl⟩ := Reader.run_pure_eq_ok.mp h
      exact ⟨hlt, value, front, rfl, hs, rfl⟩
    · rw [if_neg hlt] at h
      exact absurd h Reader.run_throw_ne_ok
  · rintro ⟨hlt, value, front, rfl, hs, rfl⟩
    refine ⟨value, rest, read_eq_ok.mpr ⟨front, hs, rfl⟩, ?_⟩
    rw [if_pos hlt]
    rfl

end VarInt

/-! ## Items -/

namespace Reader

variable {ε α : Type} {item : Nat → Reader ε α} {valid : α → Prop} {form : α → List UInt8 → Prop}

/-- The reader succeeds on the forms of valid values, whatever follows them, and on nothing else. -/
def Reads (reader : Reader ε α) (valid : α → Prop) (form : α → List UInt8 → Prop) : Prop :=
  ∀ input a rest, reader.run input = .ok a rest ↔
    valid a ∧ ∃ front, form a front ∧ input = front ++ rest

theorem Reads.mapError {ε' : Type} {reader : Reader ε α} (h : reader.Reads valid form)
    (f : ε → ε') : (reader.mapError f).Reads valid form := by
  intro input a rest
  simpa using h input a rest

/-- What is read to its end is a form. -/
theorem Reads.run_eq_ok_nil {reader : Reader ε α} (h : reader.Reads valid form) {a : α}
    {bytes : List UInt8} : reader.run bytes = .ok a [] ↔ valid a ∧ form a bytes := by
  rw [h bytes a []]
  constructor
  · rintro ⟨hv, front, hf, rfl⟩
    rw [List.append_nil]
    exact ⟨hv, hf⟩
  · rintro ⟨hv, hf⟩
    exact ⟨hv, bytes, hf, (List.append_nil bytes).symm⟩

theorem itemsOnto_eq_ok (h : ∀ index, (item index).Reads valid form) {index count : Nat}
    {done : List α} {result : { items : List α // items.length = done.length + count }}
    {input rest : List UInt8} :
    (itemsOnto item index count done).run input = .ok result rest ↔
      ∃ items front, result.val = done.reverse ++ items ∧ (∀ a ∈ items, valid a) ∧
        Sequence form items front ∧ input = front ++ rest := by
  induction count generalizing index done input rest with
  | zero =>
    unfold itemsOnto
    rw [run_pure_eq_ok]
    constructor
    · rintro ⟨rfl, rfl⟩
      exact ⟨[], [], by simp, by simp, .nil, rfl⟩
    · rintro ⟨items, front, hr, -, hs, rfl⟩
      have hlen := result.property
      rw [hr, List.length_append, List.length_reverse] at hlen
      obtain rfl := List.eq_nil_of_length_eq_zero (show items.length = 0 by omega)
      cases hs
      exact ⟨Subtype.ext (by rw [hr, List.append_nil]), rfl⟩
  | succ count ih =>
    unfold itemsOnto
    simp only [run_bind_eq_ok, run_pure_eq_ok, ih, h index _ _ _]
    constructor
    · rintro ⟨next, _, ⟨hv, front, hf, rfl⟩, all, _, ⟨items, front', hall, hvs, hs, rfl⟩, rfl, rfl⟩
      refine ⟨next :: items, front ++ front', ?_, ?_, .cons hf hs, by rw [List.append_assoc]⟩
      · rw [hall, List.reverse_cons, List.append_assoc, List.singleton_append]
      · exact List.forall_mem_cons.mpr ⟨hv, hvs⟩
    · rintro ⟨items, front, hr, hvs, hs, rfl⟩
      cases hs with
      | nil =>
        have hlen := result.property
        rw [hr, List.length_append, List.length_reverse, List.length_nil] at hlen
        omega
      | @cons next items front front' hf hs =>
        obtain ⟨hv, hvs⟩ := List.forall_mem_cons.mp hvs
        have hlen : result.val.length = (next :: done).length + count := by
          rw [result.property, List.length_cons]
          omega
        refine ⟨next, front' ++ rest, ⟨hv, front, hf, by rw [List.append_assoc]⟩,
          ⟨result.val, hlen⟩, rest, ⟨items, front', ?_, hvs, hs, rfl⟩, rfl, rfl⟩
        rw [hr, List.reverse_cons, List.append_assoc, List.singleton_append]

/-- Items are read as the sequence of their forms. -/
theorem items_eq_ok (h : ∀ index, (item index).Reads valid form) {count : Nat}
    {result : { items : List α // items.length = count }} {input rest : List UInt8} :
    (items count item).run input = .ok result rest ↔
      (∀ a ∈ result.val, valid a) ∧
        ∃ front, Sequence form result.val front ∧ input = front ++ rest := by
  unfold items
  simp only [run_bind_eq_ok, run_pure_eq_ok, itemsOnto_eq_ok h]
  constructor
  · rintro ⟨all, _, ⟨items, front, hall, hv, hs, rfl⟩, rfl, rfl⟩
    rw [List.reverse_nil, List.nil_append] at hall
    exact ⟨hall ▸ hv, front, hall ▸ hs, rfl⟩
  · rintro ⟨hv, front, hs, rfl⟩
    refine ⟨⟨result.val, by rw [result.property, List.length_nil, Nat.zero_add]⟩, rest,
      ⟨result.val, front, rfl, hv, hs, rfl⟩, rfl, rfl⟩

end Reader

namespace Counted

variable {ε α : Type} {item : Nat → Reader ε α} {valid : α → Prop}
  {form : α → List UInt8 → Prop} {input rest : List UInt8}

/-- A count and the items that are read after it are a counted form. -/
theorem of_items (h : ∀ index, (item index).Reads valid form) {count : UInt64}
    {middle : List UInt8} {result : { items : List α // items.length = count.toNat }}
    (hc : VarInt.read.run input = .ok count middle)
    (hi : (Reader.items count.toNat item).run middle = .ok result rest) :
    (∀ a ∈ result.val, valid a) ∧ ∃ front, Counted form result.val front ∧ input = front ++ rest := by
  obtain ⟨front, hs, rfl⟩ := VarInt.read_eq_ok.mp hc
  obtain ⟨hv, body, hb, rfl⟩ := (Reader.items_eq_ok h).mp hi
  refine ⟨hv, front ++ body, .intro result.property.symm hs hb, ?_⟩
  rw [List.append_assoc]

/-- A counted form is read as the count and the items, and what follows the count is long enough for
that many of the smallest items. -/
protected theorem items (h : ∀ index, (item index).Reads valid form) {items : List α}
    {front : List UInt8} (hc : Counted form items front) (hv : ∀ a ∈ items, valid a)
    (rest : List UInt8) {minLength : Nat}
    (hmin : ∀ item front, form item front → minLength ≤ front.length) :
    ∃ count middle, ∃ hl : items.length = count.toNat,
      VarInt.read.run (front ++ rest) = .ok count middle ∧
      count.toNat * minLength ≤ middle.length ∧
      (Reader.items count.toNat item).run middle = .ok ⟨items, hl⟩ rest := by
  obtain @⟨count, head, body, hcount, hs, hb⟩ := hc
  refine ⟨count, body ++ rest, hcount.symm, ?_, ?_, ?_⟩
  · exact VarInt.read_eq_ok.mpr ⟨head, hs, by rw [List.append_assoc]⟩
  · have := hb.mul_le_length hmin
    rw [hcount, List.length_append]
    omega
  · exact (Reader.items_eq_ok h).mpr ⟨hv, body, hb, rfl⟩

end Counted

end SpvEnvelope
