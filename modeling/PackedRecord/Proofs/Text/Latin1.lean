import PackedRecord.Proofs.Text.Encoding

/-!
Latin-1 texts.

A byte is written as the character of its number, so what is written is the
UTF-8 of characters below 256, and each of them is read back as its byte. Other
characters are read as the low byte of their number: another character is
written for it, and the text is not the one that was read.
-/

namespace PackedRecord.Encoding

/-- The bytes of some characters, the low byte of each number. -/
def lowBytes (cs : List Char) : Bytes :=
  cs.map fun c => UInt8.ofNat c.toNat

theorem decode_latin1 (cs : List Char) : latin1.decode (Utf8.encode cs) = .ok (lowBytes cs) :=
  ofCharacters_encode cs _

theorem toNat_ofUInt8 (b : UInt8) : (Char.ofUInt8 b).toNat = b.toNat := rfl

theorem encode_latin1 (bs : Bytes) : latin1.encode bs = Utf8.encode (bs.map Char.ofUInt8) := by
  rw [← Utf8.write_eq, Utf8.write, List.flatMap_map]
  rfl

theorem lowBytes_characters (bs : Bytes) : lowBytes (bs.map Char.ofUInt8) = bs := by
  have hbyte (b : UInt8) : UInt8.ofNat (Char.ofUInt8 b).toNat = b := by
    rw [toNat_ofUInt8, UInt8.ofNat_toNat]
  simp only [lowBytes, List.map_map, Function.comp_def, hbyte, List.map_id']

/-- Characters with numbers of one byte are those of their bytes. -/
theorem characters_lowBytes {cs : List Char} (h : ∀ c ∈ cs, c.toNat ≤ 0xFF) :
    (lowBytes cs).map Char.ofUInt8 = cs := by
  rw [lowBytes, List.map_map]
  refine (List.map_congr_left fun c hc => ?_).trans (List.map_id cs)
  have hlow := h c hc
  apply Char.toNat_inj.mp
  rw [Function.comp_apply, toNat_ofUInt8, UInt8.toNat_ofNat_of_lt' (by rw [UInt8.size]; omega)]
  rfl

/-- Bytes are written as well-formed UTF-8, each as the character of its number, and read back. A
text is written again for what was read from it exactly when it is the UTF-8 of characters
up to U+00FF. -/
theorem latin1_inverse :
    (∀ bs, (∃ cs, Utf8.encode cs = latin1.encode bs ∧ cs.map Char.toNat = bs.map UInt8.toNat) ∧
      latin1.decode (latin1.encode bs) = .ok bs) ∧
    ∀ text, (∃ bs, latin1.decode text = .ok bs ∧ latin1.encode bs = text) ↔
      ∃ cs, Utf8.encode cs = text ∧ ∀ c ∈ cs, c.toNat ≤ 0xFF := by
  refine ⟨fun bs => ⟨⟨bs.map Char.ofUInt8, (encode_latin1 bs).symm, ?_⟩, ?_⟩, fun text => ⟨?_, ?_⟩⟩
  · rw [List.map_map]
    rfl
  · rw [encode_latin1, decode_latin1, lowBytes_characters]
  · rintro ⟨bs, -, rfl⟩
    refine ⟨bs.map Char.ofUInt8, (encode_latin1 bs).symm, ?_⟩
    intro c hc
    obtain ⟨b, -, rfl⟩ := List.mem_map.mp hc
    exact Nat.le_of_lt_succ b.toNat_lt
  · rintro ⟨cs, rfl, hlow⟩
    refine ⟨lowBytes cs, decode_latin1 cs, ?_⟩
    rw [encode_latin1, characters_lowBytes hlow]

end PackedRecord.Encoding
