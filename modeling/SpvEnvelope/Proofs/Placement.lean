import SpvEnvelope.Proofs.Cursor

/-!
# Where reads stand

Any reads may follow each other on one input, also after some of them have failed. `Request.Goes`
says of a read what its answer is and where it stops, by the bytes that stand at the place where it
starts. `Cursor.keeps_place` says that this holds of every read after any others, made at a position
or on what is left, and that positions move forward only and stay within the input.
-/

namespace SpvEnvelope

/-! ## Requests -/

/-- A read that is asked for. -/
inductive Request where
  /-- So many bytes. -/
  | bytes (count : UInt64)
  /-- An 8-bit integer. -/
  | u8
  /-- A 16-bit integer. -/
  | u16
  /-- A 32-bit integer. -/
  | u32
  /-- A 64-bit integer. -/
  | u64
  /-- A variable-length integer. -/
  | varint
  /-- A count of bytes or items. -/
  | size

/-- The value that is read. -/
inductive Value where
  | bytes (taken : List UInt8)
  | number (n : Nat)

namespace Request

/-- The read on what is left of the input. -/
def reader : Request → Reader ReadError Value
  | bytes count => Value.bytes <$> Subtype.val <$> Reader.bytes count.toNat
  | u8 => (fun value => .number value.toNat) <$> Reader.u8
  | u16 => (fun value => .number value.toNat) <$> Reader.u16
  | u32 => (fun value => .number value.toNat) <$> Reader.u32
  | u64 => (fun value => .number value.toNat) <$> Reader.u64
  | varint => (fun value => .number value.toNat) <$> VarInt.read
  | size => Value.number <$> VarInt.readSize

/-- The read at a position. -/
def onCursor : Request → CursorReader Value
  | bytes count => Value.bytes <$> CursorReader.bytes count
  | u8 => (fun value => .number value.toNat) <$> CursorReader.u8
  | u16 => (fun value => .number value.toNat) <$> CursorReader.u16
  | u32 => (fun value => .number value.toNat) <$> CursorReader.u32
  | u64 => (fun value => .number value.toNat) <$> CursorReader.u64
  | varint => (fun value => .number value.toNat) <$> CursorReader.varint
  | size => Value.number <$> CursorReader.size

theorem onCursor_follows (request : Request) : CursorReader.Follows request.onCursor request.reader :=
  match request with
  | bytes count => (CursorReader.Follows.bytes count).map _
  | u8 => CursorReader.Follows.u8.map _
  | u16 => CursorReader.Follows.u16.map _
  | u32 => CursorReader.Follows.u32.map _
  | u64 => CursorReader.Follows.u64.map _
  | varint => CursorReader.Follows.varint.map _
  | size => CursorReader.Follows.size.map _

/-- The number of bytes that the read takes, if it is fixed. -/
def count? : Request → Option Nat
  | bytes count => some count.toNat
  | u8 => some 1
  | u16 => some 2
  | u32 => some 4
  | u64 => some 8
  | varint | size => none

/-- The bytes that the read takes to come to a value. -/
inductive Form : Request → Value → List UInt8 → Prop
  | bytes {count : UInt64} {taken : List UInt8} (h : taken.length = count.toNat) :
      Form (.bytes count) (.bytes taken) taken
  | u8 (value : UInt8) : Form .u8 (.number value.toNat) (LittleEndian.encode 1 value.toNat)
  | u16 (value : UInt16) : Form .u16 (.number value.toNat) (LittleEndian.encode 2 value.toNat)
  | u32 (value : UInt32) : Form .u32 (.number value.toNat) (LittleEndian.encode 4 value.toNat)
  | u64 (value : UInt64) : Form .u64 (.number value.toNat) (LittleEndian.encode 8 value.toNat)
  | varint {value : UInt64} {taken : List UInt8} (h : VarInt.Spelling value taken) :
      Form .varint (.number value.toNat) taken
  | size {value : UInt64} {taken : List UInt8} (h : VarInt.Spelling value taken)
      (hlt : value.toNat < VarInt.sizeLimit) : Form .size (.number value.toNat) taken

/-- From `start`, the read comes to an answer and stops. -/
inductive Goes (data : List UInt8) (start : Nat) :
    Request → Except ReadError Value → (stop : Nat) → Prop
  /-- It takes the bytes between the two places. -/
  | reads {request : Request} {value : Value} {stop : Nat}
      (h : request.Form value (data.extract start stop)) : Goes data start request (.ok value) stop
  /-- It has a fixed size, and fewer bytes remain. -/
  | short {request : Request} {count : Nat} (hcount : request.count? = some count)
      (h : data.length - start < count) :
      Goes data start request (.error (.unexpectedEnd count (data.length - start))) start
  /-- It needs a lead byte, and no byte remains. -/
  | noLead {request : Request} (hcount : request.count? = none) (h : start = data.length) :
      Goes data start request (.error (.unexpectedEnd 1 0)) start
  /-- The bytes that the lead byte announces are cut off. -/
  | cut {request : Request} {cause : ReadError} (hcount : request.count? = none)
      (h : start < data.length) (hcut : VarInt.Flaw cause (data.drop start)) :
      Goes data start request (.error cause) (start + 1)
  /-- The integer is complete, and no count of bytes or items. -/
  | tooLarge {value : UInt64} {stop : Nat} (h : VarInt.Spelling value (data.extract start stop))
      (hle : VarInt.sizeLimit ≤ value.toNat) :
      Goes data start .size (.error (.sizeTooLarge value)) stop

/-! ## One read -/

section

variable {request : Request} {value : Value} {cause : ReadError} {input rest : List UInt8}

/-- A read of a fixed size fails only for the lack of bytes. -/
theorem reader_wants {count : Nat} (h : request.count? = some count) :
    request.reader.Wants count := by
  cases request with
  | bytes count => cases h; exact ((Reader.bytes_wants _).map _).map _
  | u8 => cases h; exact Reader.u8_wants.map _
  | u16 => cases h; exact Reader.u16_wants.map _
  | u32 => cases h; exact Reader.u32_wants.map _
  | u64 => cases h; exact Reader.u64_wants.map _
  | varint => cases h
  | size => cases h

theorem form_of_reader_eq_ok (h : request.reader.run input = .ok value rest) :
    ∃ taken, request.Form value taken ∧ input = taken ++ rest := by
  cases request with
  | bytes count =>
    obtain ⟨_, hvalue, rfl⟩ := Reader.run_map_eq_ok.mp h
    obtain ⟨taken, htaken, rfl⟩ := Reader.run_map_eq_ok.mp hvalue
    exact ⟨_, .bytes taken.property, Reader.bytes_eq_ok.mp htaken⟩
  | u8 =>
    obtain ⟨n, hn, rfl⟩ := Reader.run_map_eq_ok.mp h
    refine ⟨_, .u8 n, ?_⟩
    simp [LittleEndian.encode, Reader.u8_eq_ok.mp hn]
  | u16 =>
    obtain ⟨n, hn, rfl⟩ := Reader.run_map_eq_ok.mp h
    exact ⟨_, .u16 n, Reader.u16_eq_ok.mp hn⟩
  | u32 =>
    obtain ⟨n, hn, rfl⟩ := Reader.run_map_eq_ok.mp h
    exact ⟨_, .u32 n, Reader.u32_eq_ok.mp hn⟩
  | u64 =>
    obtain ⟨n, hn, rfl⟩ := Reader.run_map_eq_ok.mp h
    exact ⟨_, .u64 n, Reader.u64_eq_ok.mp hn⟩
  | varint =>
    obtain ⟨n, hn, rfl⟩ := Reader.run_map_eq_ok.mp h
    obtain ⟨taken, hs, rfl⟩ := VarInt.read_eq_ok.mp hn
    exact ⟨taken, .varint hs, rfl⟩
  | size =>
    obtain ⟨_, hn, rfl⟩ := Reader.run_map_eq_ok.mp h
    obtain ⟨hlt, n, taken, rfl, hs, rfl⟩ := VarInt.readSize_eq_ok.mp hn
    exact ⟨taken, .size hs hlt, rfl⟩

variable {data : List UInt8} {start stop : Nat}

/-- Within an input, what is left of it tells the position. -/
theorem eq_of_drop_eq (hstart : start ≤ data.length) (hstop : stop ≤ data.length)
    (h : data.drop stop = data.drop start) : stop = start := by
  have hlength := congrArg List.length h
  rw [List.length_drop, List.length_drop] at hlength
  omega

theorem extract_eq_of_drop_eq (hle : start ≤ stop) {taken : List UInt8}
    (h : data.drop start = taken ++ data.drop stop) : data.extract start stop = taken := by
  rw [CursorReader.drop_eq_extract_append hle] at h
  exact List.append_cancel_right h

theorem goes_of_read_eq_error (hcount : request.count? = none) (hle : start ≤ stop)
    (hstop : stop ≤ data.length)
    (h : VarInt.read.run (data.drop start) = .error cause (data.drop stop)) :
    request.Goes data start (.error cause) stop := by
  have hflaw := (VarInt.read_failsBy _ _).mp ⟨_, h⟩
  have hrest := VarInt.rest_of_read_eq_error h
  rw [List.tail_drop] at hrest
  by_cases hend : start = data.length
  · obtain rfl : stop = start := by omega
    rw [hend, List.drop_length] at hflaw
    cases hflaw
    exact .noLead hcount hend
  · obtain rfl : stop = start + 1 := eq_of_drop_eq (by omega) hstop hrest
    exact .cut hcount (by omega) hflaw

/-- A read that goes from one position to another goes as the bytes there say. -/
theorem goes_of_reader_eq_ok (hle : start ≤ stop)
    (h : request.reader.run (data.drop start) = .ok value (data.drop stop)) :
    request.Goes data start (.ok value) stop := by
  obtain ⟨taken, hform, htaken⟩ := form_of_reader_eq_ok h
  rw [← extract_eq_of_drop_eq hle htaken] at hform
  exact .reads hform

theorem goes_of_reader_eq_error (hle : start ≤ stop) (hstop : stop ≤ data.length)
    (h : request.reader.run (data.drop start) = .error cause (data.drop stop)) :
    request.Goes data start (.error cause) stop := by
  cases hcount : request.count? with
  | some count =>
    obtain ⟨hlt, rfl, hrest⟩ := reader_wants hcount _ _ _ h
    obtain rfl := eq_of_drop_eq (Nat.le_trans hle hstop) hstop hrest
    rw [List.length_drop] at hlt ⊢
    exact .short hcount hlt
  | none =>
    cases request with
    | varint => exact goes_of_read_eq_error rfl hle hstop (Reader.run_map_eq_error.mp h)
    | size =>
      obtain hcut | ⟨value, hn, htoo, rfl⟩ :=
        VarInt.cases_of_readSize_eq_error (Reader.run_map_eq_error.mp h)
      · exact goes_of_read_eq_error rfl hle hstop hcut
      · obtain ⟨taken, hs, htaken⟩ := VarInt.read_eq_ok.mp hn
        rw [← extract_eq_of_drop_eq hle htaken] at hs
        exact .tooLarge hs htoo
    | bytes | u8 | u16 | u32 | u64 => cases hcount

end

end Request

/-! ## Reads one after the other -/

section

variable {ε σ α : Type}

/-- How a run ends: with a value or an error, and in a state. -/
def ended : EStateM.Result ε σ α → Except ε α × σ
  | .ok a state => (.ok a, state)
  | .error e state => (.error e, state)

/-- The state after the requests, whether they succeed or fail. -/
def stateAfter (run : Request → EStateM ε σ α) (state : σ) (requests : List Request) : σ :=
  requests.foldl (fun state request => (ended ((run request).run state)).2) state

end

namespace Cursor

variable {data : List UInt8} {start : UInt64}

/-- A read at a position moves forward within the input, ends as the read on what is left there,
and goes as the bytes there say. -/
theorem step (hlt : data.length < 2 ^ 64) (hstart : start.toNat ≤ data.length) (request : Request) :
    ∃ (stop : UInt64) (answer : Except ReadError Value), start ≤ stop ∧ stop.toNat ≤ data.length ∧
      ended (request.onCursor.run ⟨data, start⟩) = (answer.mapError .read, ⟨data, stop⟩) ∧
      ended (request.reader.run (data.drop start.toNat)) = (answer, data.drop stop.toNat) ∧
      request.Goes data start.toNat answer stop.toNat := by
  have hmoves := request.onCursor_follows data start hlt hstart
  generalize hreader : request.reader.run (data.drop start.toNat) = result at hmoves
  generalize request.onCursor.run ⟨data, start⟩ = result' at hmoves
  cases hmoves with
  | ok forward within =>
    exact ⟨_, .ok _, forward, within, rfl, rfl,
      Request.goes_of_reader_eq_ok (UInt64.le_iff_toNat_le.mp forward) hreader⟩
  | error forward within =>
    exact ⟨_, .error _, forward, within, rfl, rfl,
      Request.goes_of_reader_eq_error (UInt64.le_iff_toNat_le.mp forward) within hreader⟩

/-- Reads one after the other, from a position on. -/
theorem steps (hlt : data.length < 2 ^ 64) (hstart : start.toNat ≤ data.length)
    (requests : List Request) :
    ∃ stop : UInt64, start ≤ stop ∧ stop.toNat ≤ data.length ∧
      stateAfter Request.onCursor ⟨data, start⟩ requests = ⟨data, stop⟩ ∧
      stateAfter Request.reader (data.drop start.toNat) requests = data.drop stop.toNat := by
  -- on the requests: each starts where the one before it has stopped, also if that failed
  induction requests generalizing start with
  | nil => exact ⟨start, UInt64.le_refl _, hstart, rfl, rfl⟩
  | cons request requests ih =>
    obtain ⟨middle, answer, hforward, hmiddle, hcursor, hreader, -⟩ := step hlt hstart request
    obtain ⟨stop, hforward', hstop, hcursors, hreaders⟩ := ih hmiddle
    refine ⟨stop, UInt64.le_trans hforward hforward', hstop, ?_, ?_⟩
    · rw [stateAfter, List.foldl_cons, hcursor]
      exact hcursors
    · rw [stateAfter, List.foldl_cons, hreader]
      exact hreaders

/-- **A reader keeps its place.** Whatever was read before, with success or without, a read at a
position of an input whose length is a size moves forward within the input, as the bytes there say.
No sum and no difference of sizes is out of range, here or in counting what remains. The read on what
is left of the input gives the same answer and leaves what comes after the new position. -/
theorem keeps_place (data : List UInt8) (hlt : data.length < 2 ^ 64) (before : List Request)
    (request : Request) :
    ∃ (start stop left : UInt64) (answer : Except ReadError Value),
      start ≤ stop ∧ stop.toNat ≤ data.length ∧ left.toNat = data.length - stop.toNat ∧
      stateAfter Request.onCursor ⟨data, 0⟩ before = ⟨data, start⟩ ∧
      ended (request.onCursor.run ⟨data, start⟩) = (answer.mapError .read, ⟨data, stop⟩) ∧
      ended (CursorReader.remaining.run ⟨data, stop⟩) = (.ok left, ⟨data, stop⟩) ∧
      stateAfter Request.reader data before = data.drop start.toNat ∧
      ended (request.reader.run (data.drop start.toNat)) = (answer, data.drop stop.toNat) ∧
      request.Goes data start.toNat answer stop.toNat := by
  have hzero : (0 : UInt64).toNat ≤ data.length := Nat.zero_le _
  obtain ⟨start, -, hstart, hcursors, hreaders⟩ := steps hlt hzero before
  obtain ⟨stop, answer, hforward, hstop, hcursor, hreader, hgoes⟩ := step hlt hstart request
  obtain ⟨left, hleft, hremaining⟩ := CursorReader.run_remaining hlt hstop
  exact ⟨start, stop, left, answer, hforward, hstop, hleft, hcursors, hcursor,
    congrArg ended hremaining, hreaders, hreader, hgoes⟩

/-- After a request for more bytes than there are and a variable-length integer that is cut off, the
byte behind its lead byte is read. -/
theorem keeps_place_after_cut :
    ([0xfd, 0x01] : List UInt8).length < 2 ^ 64 ∧
      Request.u8.Goes [0xfd, 0x01] 1 (.ok (.number 1)) 2 := by
  have hlt : ([0xfd, 0x01] : List UInt8).length < 2 ^ 64 := by decide
  obtain ⟨start, stop, _, answer, -, -, -, hstart, hends, -, -, -, hgoes⟩ :=
    keeps_place [0xfd, 0x01] hlt [.bytes 0xffffffffffffffff, .varint] .u8
  have hone : stateAfter Request.onCursor ⟨[0xfd, 0x01], 0⟩ [.bytes 0xffffffffffffffff, .varint] =
      ⟨[0xfd, 0x01], 1⟩ := rfl
  have hread : ended (Request.u8.onCursor.run ⟨[0xfd, 0x01], 1⟩) =
      (.ok (.number 1), ⟨[0xfd, 0x01], 2⟩) := rfl
  obtain rfl : 1 = start := congrArg Cursor.position (hone.symm.trans hstart)
  rw [hread] at hends
  obtain rfl : 2 = stop := congrArg (fun outcome => outcome.2.position) hends
  cases answer with
  | ok value =>
    cases hends
    exact ⟨hlt, hgoes⟩
  | error cause => cases hends

end Cursor

end SpvEnvelope
