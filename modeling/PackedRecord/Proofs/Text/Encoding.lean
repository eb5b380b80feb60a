import PackedRecord.Proofs.Text.Utf16

/-!
Encodings of characters.

A text is read as Latin-1 or as UTF-16 exactly when it is the UTF-8 of some
characters, and these decide the bytes. Bytes written as UTF-16 text and read
back are the same units again, each surrogate without a partner replaced.
-/

namespace PackedRecord.Encoding

theorem ofCharacters_encode (cs : List Char) (bytesOf : List Char → Bytes) :
    ofCharacters (Utf8.encode cs) bytesOf = .ok (bytesOf cs) := by
  rw [ofCharacters, Utf8.decode?, (Utf8.read_eq_ok_iff _ cs).mpr rfl]
  rfl

theorem ofCharacters_of_broken {cs : List Char} {rest : Bytes} (h : Utf8.Broken rest)
    (bytesOf : List Char → Bytes) :
    ofCharacters (Utf8.encode cs ++ rest) bytesOf = .error .invalidArgument := by
  rw [ofCharacters, Utf8.decode?, Utf8.read_of_broken h]
  rfl

/-- What is made from the characters of a text is made exactly when there are such. -/
theorem exists_ofCharacters_iff (text : Bytes) (bytesOf : List Char → Bytes) :
    (∃ bs, ofCharacters text bytesOf = .ok bs) ↔ ∃ cs, Utf8.encode cs = text := by
  constructor
  · rintro ⟨bs, h⟩
    obtain ⟨cs, -, htext⟩ | ⟨-, cs, rest, rfl, hbroken⟩ := Utf8.read_cases text
    · exact ⟨cs, htext⟩
    · rw [ofCharacters_of_broken hbroken] at h
      contradiction
  · rintro ⟨cs, rfl⟩
    exact ⟨bytesOf cs, ofCharacters_encode cs bytesOf⟩

theorem encode_utf16le (bs : Bytes) :
    utf16le.encode bs = Utf8.encode (Utf16.toChars (Utf16.unitsOfBytes bs)) :=
  Utf8.write_eq _

/-- A text is read under both encodings exactly when it is the UTF-8 of a list of characters. The
list is then the only one, Latin-1 has the low byte of each of its numbers, and UTF-16 the units
that spell it. Any other text breaks off behind some whole characters and is refused. No byte
is looked at that the text does not have. -/
theorem decode_characters (text : Bytes) :
    ((∃ bs, latin1.decode text = .ok bs) ↔ ∃ cs, Utf8.encode cs = text) ∧
    ((∃ bs, utf16le.decode text = .ok bs) ↔ ∃ cs, Utf8.encode cs = text) ∧
    (∀ cs, Utf8.encode cs = text →
      (∀ ds, Utf8.encode ds = text → ds = cs) ∧
      latin1.decode text = .ok (cs.map fun c => UInt8.ofNat (c.toNat % 256)) ∧
      ∃ units, Utf16.Spells units cs ∧
        utf16le.decode text =
          .ok (units.flatMap fun unit => [UInt8.ofNat (unit % 256), UInt8.ofNat (unit / 256)])) ∧
    ((¬∃ cs, Utf8.encode cs = text) ↔
      ∃ cs rest, text = Utf8.encode cs ++ rest ∧ Utf8.Broken rest) ∧
    ((∃ cs rest, text = Utf8.encode cs ++ rest ∧ Utf8.Broken rest) →
      latin1.decode text = .error .invalidArgument ∧
        utf16le.decode text = .error .invalidArgument) ∧
    Utf8.read text ≠ .error .pastEnd := by
  refine ⟨exists_ofCharacters_iff text _, exists_ofCharacters_iff text _, ?_, ?_, ?_, ?_⟩
  · rintro cs rfl
    have hlatin : (fun c : Char => UInt8.ofNat (c.toNat % 256)) = fun c => UInt8.ofNat c.toNat :=
      funext fun c => UInt8.ofNat_mod_size
    refine ⟨fun ds h => Utf8.encode_injective h, ?_, Utf16.ofChars cs, Utf16.spells_ofChars cs, ?_⟩
    · rw [hlatin]
      exact ofCharacters_encode cs _
    · rw [decode, ofCharacters_encode, Utf16.littleEndian, funext Utf16.encode_unit]
  · constructor
    · intro h
      obtain ⟨cs, -, htext⟩ | ⟨-, hbroken⟩ := Utf8.read_cases text
      · exact absurd ⟨cs, htext⟩ h
      · exact hbroken
    · rintro ⟨cs, rest, rfl, hbroken⟩ ⟨ds, hds⟩
      have hread := (Utf8.read_eq_ok_iff _ ds).mpr hds
      rw [Utf8.read_of_broken hbroken] at hread
      contradiction
  · rintro ⟨cs, rest, rfl, hbroken⟩
    exact ⟨ofCharacters_of_broken hbroken _, ofCharacters_of_broken hbroken _⟩
  · obtain ⟨cs, hread, -⟩ | ⟨hstop, -⟩ := Utf8.read_cases text
    · rw [hread]
      exact fun h => by contradiction
    · rw [hstop]
      exact fun h => by contradiction

/-- Text of UTF-16 is read back as it was; bytes written as such a text and read back keep every
unit in its place but for surrogates in no pair, and lose a last odd byte. -/
theorem utf16_inverse :
    (∀ cs, ∃ bs, utf16le.decode (Utf8.encode cs) = .ok bs ∧
      utf16le.encode bs = Utf8.encode cs) ∧
    ∀ bs : Bytes,
      let units := Utf16.unitsOfBytes bs
      (∀ i : Nat, units[i]? = (bs[2 * i]?).bind fun low =>
        (bs[2 * i + 1]?).map fun high => low.toNat + 256 * high.toNat) ∧
      Utf16.littleEndian units = bs.take (2 * (bs.length / 2)) ∧
      (∃ cs, Utf8.encode cs = utf16le.encode bs) ∧
      utf16le.decode (utf16le.encode bs) = .ok (Utf16.littleEndian (Utf16.mended units)) ∧
      (utf16le.decode (utf16le.encode bs) = .ok bs ↔
        bs.length % 2 = 0 ∧ ∀ i, Utf16.unpaired units i = false) := by
  refine ⟨?_, ?_⟩
  · intro cs
    refine ⟨_, ofCharacters_encode cs _, ?_⟩
    rw [encode_utf16le, Utf16.unitsOfBytes_littleEndian fun unit h => Utf16.lt_of_mem_ofChars h,
      Utf16.toChars_of_spells (Utf16.spells_ofChars cs)]
  · intro bs units
    have hunits : ∀ unit ∈ units, unit < 0x10000 := fun unit h => Utf16.lt_of_mem_unitsOfBytes h
    have hback : utf16le.decode (utf16le.encode bs) =
        .ok (Utf16.littleEndian (Utf16.mended units)) := by
      rw [encode_utf16le, ← Utf16.ofChars_toChars hunits]
      exact ofCharacters_encode (Utf16.toChars units) _
    have hwhole := Utf16.littleEndian_unitsOfBytes bs
    refine ⟨Utf16.getElem?_unitsOfBytes bs, hwhole,
      ⟨Utf16.toChars units, (encode_utf16le bs).symm⟩, hback, ?_⟩
    rw [hback, Except.ok.injEq, ← Utf16.mended_eq_self_iff]
    constructor
    · intro h
      have hlength := congrArg List.length h
      rw [Utf16.length_littleEndian] at hlength
      have hmended := Utf16.unitsOfBytes_littleEndian fun unit h => Utf16.lt_of_mem_mended hunits h
      rw [h] at hmended
      exact ⟨by omega, hmended.symm⟩
    · rintro ⟨heven, hmended⟩
      rw [hmended, hwhole, List.take_of_length_le (by omega)]

end PackedRecord.Encoding
