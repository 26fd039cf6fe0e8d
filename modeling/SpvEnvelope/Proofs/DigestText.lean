import SpvEnvelope.Merkle.Leaf
import SpvEnvelope.Proofs.HexReading

/-!
# Which texts show a digest

A digest is named by bytes in shown order or by the hex text of these. There are 32 bytes or none, and
none stands for the digest of zeros. A text shows a digest exactly if it is read as bytes that do
(`Digest.ofText_eq_ok_iff`): that lengths are checked in two places makes no difference. Said without
a reader, such a text is empty or has 64 digits of either case, and any other text is refused for its
bytes if they are not hex and for its length if they are (`Digest.ofText_forms`).

A parent is computed from two digests, from bytes in shown order or from texts. The three agree
(`Merkle.parents_agree`): texts have a parent exactly if the bytes that they are read as have one, and
it is then the text of these bytes' parent and of the digests' parent. Shown order means that each
side is reversed before it is hashed, and the parent after it. An absent side counts as zeros in all
forms.
-/

namespace SpvEnvelope

namespace Digest

variable {text : String} {bytes : List UInt8} {digest : Digest} {cause : Hex.Error}

/-! ## Bytes in shown order -/

/-- The bytes that denote a digest are those it is shown by, and none for the digest of zeros. -/
theorem ofShownBytes_eq_ok_iff : ofShownBytes bytes = .ok digest ↔
    bytes = [] ∧ digest = .zero ∨ bytes = digest.shownBytes := by
  constructor
  · intro h
    unfold ofShownBytes at h
    split at h
    · rename_i hempty
      cases h
      exact .inl ⟨List.isEmpty_iff.mp hempty, rfl⟩
    · unfold ofBytes at h
      split at h
      · cases h
        exact .inr (List.reverse_reverse bytes).symm
      · cases h
  · rintro (⟨rfl, rfl⟩ | rfl)
    · rfl
    · exact digest.ofShownBytes_shownBytes

/-- Bytes denote a digest if there are 32 of them, or none. -/
theorem ofShownBytes_isOk_iff : (∃ digest, ofShownBytes bytes = .ok digest) ↔
    bytes.length = 0 ∨ bytes.length = 32 := by
  simp only [ofShownBytes_eq_ok_iff]
  constructor
  · rintro ⟨digest, ⟨rfl, -⟩ | rfl⟩
    · exact .inl rfl
    · exact .inr digest.length_shownBytes
  · rintro (h | h)
    · exact ⟨.zero, .inl ⟨List.length_eq_zero_iff.mp h, rfl⟩⟩
    · refine ⟨⟨bytes.reverse, by rw [List.length_reverse, h]⟩, .inr ?_⟩
      rw [shownBytes, List.reverse_reverse]

/-! ## Texts -/

theorem ofText_of_decode_error (h : Hex.decode text = .error cause) :
    ofText text = .error (.hex cause) := by
  have hne : ¬text.isEmpty = true := by
    rw [String.isEmpty_iff]
    rintro rfl
    cases h
  rw [ofText, if_neg hne, h]

theorem ofText_of_decode (h : Hex.decode text = .ok bytes) : ofText text =
    if bytes.length = 0 ∨ bytes.length = 32 then ofShownBytes bytes
    else .error (.digitCount (textBytes text).length) := by
  by_cases hempty : text = ""
  · subst hempty
    cases h
    rfl
  · have hlength : bytes.length ≠ 0 := by
      have := (Hex.length_of_decode h).1
      have := mt String.length_eq_zero_iff.mp hempty
      omega
    rw [ofText, if_neg (mt String.isEmpty_iff.mp hempty), h]
    simp [hlength]

/-- A text is no hex, or it is the hex form of bytes. These denote a digest, which is then shown by
the text, or there are too few or too many of them. -/
theorem ofText_cases (text : String) :
    (∃ cause, Hex.decode text = .error cause ∧ ofText text = .error (.hex cause)) ∨
    ∃ bytes, Hex.decode text = .ok bytes ∧
      ((∃ digest, ofShownBytes bytes = .ok digest ∧ ofText text = .ok digest) ∨
        (¬(bytes.length = 0 ∨ bytes.length = 32) ∧
          ofText text = .error (.digitCount (textBytes text).length))) := by
  cases h : Hex.decode text with
  | error cause => exact .inl ⟨cause, rfl, ofText_of_decode_error h⟩
  | ok bytes =>
    refine .inr ⟨bytes, rfl, ?_⟩
    rw [ofText_of_decode h]
    by_cases hlength : bytes.length = 0 ∨ bytes.length = 32
    · obtain ⟨digest, hd⟩ := ofShownBytes_isOk_iff.mpr hlength
      exact .inl ⟨digest, hd, by rw [if_pos hlength, hd]⟩
    · exact .inr ⟨hlength, if_neg hlength⟩

/-- A text shows a digest exactly if it is read as bytes that denote it. -/
theorem ofText_eq_ok_iff : ofText text = .ok digest ↔
    ∃ bytes, Hex.decode text = .ok bytes ∧ ofShownBytes bytes = .ok digest := by
  rcases ofText_cases text with ⟨cause, hdecode, h⟩ | ⟨bytes, hdecode, ⟨shown, hs, h⟩ | ⟨hlength, h⟩⟩
  · simp [h, hdecode]
  · simp [h, hdecode, hs]
  · have hnone := mt ofShownBytes_isOk_iff.mp hlength
    rw [not_exists] at hnone
    simp [h, hdecode, hnone]

/-- The texts that show digests are the empty one and those of 64 digits. -/
theorem ofText_isOk_iff : (∃ digest, ofText text = .ok digest) ↔
    text = "" ∨ text.length = 64 ∧ ∀ c ∈ text.toList, Hex.IsDigit c := by
  constructor
  · rintro ⟨digest, h⟩
    obtain ⟨bytes, hdecode, hshown⟩ := ofText_eq_ok_iff.mp h
    have hlength := (Hex.length_of_decode hdecode).1
    rcases ofShownBytes_isOk_iff.mp ⟨digest, hshown⟩ with h0 | h32
    · exact .inl (String.length_eq_zero_iff.mp (by omega))
    · exact .inr ⟨by omega, (Hex.decode_eq_ok_iff.mp hdecode).1⟩
  · rintro (rfl | ⟨hlength, hdigits⟩)
    · exact ⟨.zero, rfl⟩
    · have heven : (textBytes text).length % 2 = 0 := by
        rw [Hex.length_textBytes hdigits, hlength]
      obtain ⟨bytes, hdecode⟩ :=
        Hex.decode_isOk_iff.mpr ⟨heven, Hex.forall_isDigitByte_iff.mpr hdigits⟩
      have h32 : bytes.length = 32 := by
        have := (Hex.length_of_decode hdecode).1
        omega
      obtain ⟨digest, hshown⟩ := ofShownBytes_isOk_iff.mpr (.inr h32)
      exact ⟨digest, ofText_eq_ok_iff.mpr ⟨bytes, hdecode, hshown⟩⟩

/-- What a digest is shown by is, in lowercase, the text that was read, if there was one. -/
theorem text_of_ofText (h : ofText text = .ok digest) : digest.text =
    if text = "" then String.ofList (List.replicate 64 '0') else text.toLower := by
  obtain ⟨bytes, hdecode, hshown⟩ := ofText_eq_ok_iff.mp h
  rcases ofShownBytes_eq_ok_iff.mp hshown with ⟨rfl, rfl⟩ | rfl
  · have hlength := (Hex.length_of_decode hdecode).1
    rw [if_pos (String.length_eq_zero_iff.mp hlength)]
    rfl
  · have hne : text ≠ "" := by
      rintro rfl
      have hlength := (Hex.length_of_decode hdecode).1
      rw [digest.length_shownBytes] at hlength
      cases hlength
    rw [if_neg hne, (Hex.decode_eq_ok_iff.mp hdecode).2, Digest.text]

/-- Texts that are not hex are refused for what is wrong with them. -/
theorem ofText_eq_hex_error_iff : ofText text = .error (.hex cause) ↔ Hex.Flaw text cause := by
  rw [← Hex.decode_eq_error_iff]
  rcases ofText_cases text with ⟨cause, hdecode, h⟩ | ⟨bytes, hdecode, ⟨shown, -, h⟩ | ⟨-, h⟩⟩ <;>
    simp [h, hdecode]

/-- Texts of another length are refused for it if they are hex. -/
theorem ofText_eq_length_error_iff :
    (∃ count, ofText text = .error (.byteCount count) ∨ ofText text = .error (.digitCount count)) ↔
      (textBytes text).length % 2 = 0 ∧ (∀ byte ∈ textBytes text, Hex.IsDigitByte byte) ∧
        (textBytes text).length ≠ 0 ∧ (textBytes text).length ≠ 64 := by
  rw [← and_assoc, ← Hex.decode_isOk_iff]
  rcases ofText_cases text with
    ⟨cause, hdecode, h⟩ | ⟨bytes, hdecode, ⟨shown, hshown, h⟩ | ⟨hlength, h⟩⟩
  · constructor
    · rintro ⟨_, he | he⟩ <;> cases h.symm.trans he
    · rintro ⟨⟨_, hok⟩, -⟩
      cases hdecode.symm.trans hok
  · have hlength := ofShownBytes_isOk_iff.mp ⟨shown, hshown⟩
    have hdigits := (Hex.length_of_decode hdecode).2
    constructor
    · rintro ⟨_, he | he⟩ <;> cases h.symm.trans he
    · rintro ⟨-, h0, h64⟩
      omega
  · have hdigits := (Hex.length_of_decode hdecode).2
    constructor
    · intro _
      refine ⟨⟨bytes, hdecode⟩, ?_, ?_⟩ <;> omega
    · intro _
      exact ⟨_, .inr h⟩

/-- **A digest is shown by its 64 hex digits, in lowercase.** Read are those in either case, and the
empty text as well, which stands for zeros. Any other text is refused, as no hex exactly if its
number of bytes is odd or one of them is no digit, and for its length exactly if it is hex. -/
theorem ofText_forms :
    (∀ text, (∃ digest, ofText text = .ok digest) ↔
      text = "" ∨ text.length = 64 ∧ ∀ c ∈ text.toList, Hex.IsDigit c) ∧
    (∀ text digest, ofText text = .ok digest → digest.text =
      if text = "" then String.ofList (List.replicate 64 '0') else text.toLower) ∧
    (∀ digest : Digest, ofText digest.text = .ok digest ∧
      ofShownBytes digest.shownBytes = .ok digest) ∧
    (∀ text, (∃ cause, ofText text = .error (.hex cause)) ↔
      (textBytes text).length % 2 = 1 ∨ ∃ byte ∈ textBytes text, ¬Hex.IsDigitByte byte) ∧
    (∀ text, (∃ count, ofText text = .error (.byteCount count) ∨
        ofText text = .error (.digitCount count)) ↔
      (textBytes text).length % 2 = 0 ∧ (∀ byte ∈ textBytes text, Hex.IsDigitByte byte) ∧
        (textBytes text).length ≠ 0 ∧ (textBytes text).length ≠ 64) := by
  refine ⟨fun _ => ofText_isOk_iff, fun _ _ => text_of_ofText, ?_, ?_, ?_⟩
  · intro digest
    exact ⟨digest.ofText_text, digest.ofShownBytes_shownBytes⟩
  · intro text
    simp [ofText_eq_hex_error_iff, Hex.exists_flaw_iff]
  · intro text
    exact ofText_eq_length_error_iff

/-- A text of 64 digits, all of them the same letter. -/
def capitals : String := String.ofList (List.replicate 64 'C')

theorem length_capitals : capitals.length = 64 := by
  unfold capitals
  rw [String.length_ofList, List.length_replicate]

theorem isDigit_capitals : ∀ c ∈ capitals.toList, Hex.IsDigit c := by
  intro c hc
  unfold capitals at hc
  rw [String.toList_ofList] at hc
  obtain rfl := List.eq_of_mem_replicate hc
  decide

theorem toLower_capitals : capitals.toLower = String.ofList (List.replicate 64 'c') := by
  unfold capitals
  apply String.toList_inj.mp
  rw [Hex.toList_toLower, String.toList_ofList, String.toList_ofList, List.map_replicate]
  rfl

/-- Capital letters are read, and shown as small ones. -/
theorem ofText_forms_capitals : ∃ digest, ofText capitals = .ok digest ∧
    digest.text = String.ofList (List.replicate 64 'c') := by
  obtain ⟨hok, htext, -⟩ := ofText_forms
  obtain ⟨digest, h⟩ := (hok capitals).mpr (.inr ⟨length_capitals, isDigit_capitals⟩)
  refine ⟨digest, h, ?_⟩
  rw [htext _ _ h, if_neg (mt String.length_eq_zero_iff.mpr (length_capitals ▸ by decide)),
    toLower_capitals]

end Digest

/-! ## Parents -/

namespace Digest

variable {side : List UInt8} {digest : Digest}

/-- A side in shown order, or zeros if there is none. -/
def orZeros (side : List UInt8) : List UInt8 :=
  if side = [] then List.replicate 32 0 else side

theorem ofShownBytes_orZeros (side : List UInt8) :
    ofShownBytes (orZeros side) = ofShownBytes side := by
  unfold orZeros
  split
  · rename_i h
    rw [h]
    rfl
  · rfl

/-- What a side denotes has its bytes in reverse. -/
theorem bytes_of_ofShownBytes (h : ofShownBytes side = .ok digest) :
    digest.bytes = (orZeros side).reverse := by
  unfold orZeros
  rcases ofShownBytes_eq_ok_iff.mp h with ⟨rfl, rfl⟩ | rfl
  · rfl
  · split
    · rename_i hnil
      have hlength := digest.length_shownBytes
      rw [hnil] at hlength
      cases hlength
    · rw [shownBytes, List.reverse_reverse]

end Digest

namespace Merkle

section Shown

variable {left right q : List UInt8}

/-! ## Bytes in shown order -/

theorem parentOfShown_eq_ok_iff : parentOfShown left right = .ok q ↔
    ∃ l r, Digest.ofShownBytes left = .ok l ∧ Digest.ofShownBytes right = .ok r ∧
      (parent l r).shownBytes = q := by
  rw [parentOfShown]
  simp

/-- The sides in reverse are hashed twice, and the hash is reversed. -/
theorem parentOfShown_eq_ok_iff_hash : parentOfShown left right = .ok q ↔
    (left.length = 0 ∨ left.length = 32) ∧ (right.length = 0 ∨ right.length = 32) ∧
      q = (sha256 (sha256 ((Digest.orZeros left).reverse ++
        (Digest.orZeros right).reverse))).reverse := by
  rw [parentOfShown_eq_ok_iff]
  constructor
  · rintro ⟨l, r, hl, hr, rfl⟩
    refine ⟨Digest.ofShownBytes_isOk_iff.mp ⟨l, hl⟩, Digest.ofShownBytes_isOk_iff.mp ⟨r, hr⟩, ?_⟩
    rw [← Digest.bytes_of_ofShownBytes hl, ← Digest.bytes_of_ofShownBytes hr]
    rfl
  · rintro ⟨hleft, hright, rfl⟩
    obtain ⟨l, hl⟩ := Digest.ofShownBytes_isOk_iff.mpr hleft
    obtain ⟨r, hr⟩ := Digest.ofShownBytes_isOk_iff.mpr hright
    refine ⟨l, r, hl, hr, ?_⟩
    rw [← Digest.bytes_of_ofShownBytes hl, ← Digest.bytes_of_ofShownBytes hr]
    rfl

theorem parentOfShown_orZeros (left right : List UInt8) :
    parentOfShown (Digest.orZeros left) (Digest.orZeros right) = parentOfShown left right := by
  rw [parentOfShown, Digest.ofShownBytes_orZeros, Digest.ofShownBytes_orZeros]
  rfl

end Shown

section Texts

variable {left right p : String} {e : Digest.Error}

/-! ## Texts -/

theorem parentOfTexts_eq_ok_iff : parentOfTexts left right = .ok p ↔
    ∃ l r, Digest.ofText left = .ok l ∧ Digest.ofText right = .ok r ∧ (parent l r).text = p := by
  rw [parentOfTexts]
  simp

/-- The left text is read first. -/
theorem parentOfTexts_eq_error_iff : parentOfTexts left right = .error e ↔
    Digest.ofText left = .error e ∨
      (∃ l, Digest.ofText left = .ok l) ∧ Digest.ofText right = .error e := by
  rw [parentOfTexts]
  simp

/-- Texts have a parent exactly if their bytes do, and it is written from the bytes' parent. -/
theorem parentOfTexts_eq_ok_iff_shown : parentOfTexts left right = .ok p ↔
    ∃ l r q, Hex.decode left = .ok l ∧ Hex.decode right = .ok r ∧ parentOfShown l r = .ok q ∧
      Hex.encode q = p := by
  simp only [parentOfTexts_eq_ok_iff, Digest.ofText_eq_ok_iff, parentOfShown_eq_ok_iff]
  constructor
  · rintro ⟨l, r, ⟨lbytes, hl, hls⟩, ⟨rbytes, hr, hrs⟩, rfl⟩
    exact ⟨lbytes, rbytes, _, hl, hr, ⟨l, r, hls, hrs, rfl⟩, rfl⟩
  · rintro ⟨lbytes, rbytes, _, hl, hr, ⟨l, r, hls, hrs, rfl⟩, rfl⟩
    exact ⟨l, r, ⟨lbytes, hl, hls⟩, ⟨rbytes, hr, hrs⟩, rfl⟩

end Texts

/-- **The three ways to compute a parent agree.** Texts have one exactly if the bytes that they are
read as do, and it is the text of the bytes' and of the digests' parent; if they have none, the first
text that shows no digest says why. Bytes have one exactly if each side is absent or a digest, and it
is hashed twice from the sides in reverse, with zeros for an absent one. -/
theorem parents_agree :
    (∀ left right p, parentOfTexts left right = .ok p ↔ ∃ l r q, Hex.decode left = .ok l ∧
      Hex.decode right = .ok r ∧ parentOfShown l r = .ok q ∧ Hex.encode q = p) ∧
    (∀ left right p, parentOfTexts left right = .ok p ↔ ∃ l r, Digest.ofText left = .ok l ∧
      Digest.ofText right = .ok r ∧ (parent l r).text = p) ∧
    (∀ left right e, parentOfTexts left right = .error e ↔ Digest.ofText left = .error e ∨
      (∃ l, Digest.ofText left = .ok l) ∧ Digest.ofText right = .error e) ∧
    (∀ left right q, parentOfShown left right = .ok q ↔
      (left.length = 0 ∨ left.length = 32) ∧ (right.length = 0 ∨ right.length = 32) ∧
        q = (sha256 (sha256 ((Digest.orZeros left).reverse ++
          (Digest.orZeros right).reverse))).reverse) ∧
    (∀ left right, parentOfShown (Digest.orZeros left) (Digest.orZeros right) =
      parentOfShown left right) := by
  refine ⟨fun _ _ _ => parentOfTexts_eq_ok_iff_shown, fun _ _ _ => parentOfTexts_eq_ok_iff,
    fun _ _ _ => parentOfTexts_eq_error_iff, fun _ _ _ => parentOfShown_eq_ok_iff_hash, ?_⟩
  intro left right
  exact parentOfShown_orZeros left right

end Merkle

end SpvEnvelope
