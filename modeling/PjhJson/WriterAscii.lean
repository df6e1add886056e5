import PjhJson.Json5Trivia
import PjhJson.StringScalar
import PjhJson.Utf8Gate
import PjhJson.WriterString

/-! Three readings of UTF-8 in one library: the gate of `detail/utf8.hpp`, the decoder of
`unicode.hpp` and the one in `write_escaped_ascii`. Each takes the texts that are encodings of
characters, and what the last one writes is read back as the same text. -/

namespace PjhJson

open Grammar Utf8

/-! ### Texts as encoded characters -/

/-- A row of the table is the encoding of a character. -/
theorem sequence_char {text : Bytes} (h : Sequence text) :
    ∃ c : Char, String.utf8EncodeChar c = text := by
  obtain ⟨row, lead, conts, hrow, hlead, hconts⟩ := h
  have hbounds : ∀ {b lo hi : UInt8}, InRange b (lo, hi) → lo.toNat ≤ b.toNat ∧ b.toNat ≤ hi.toNat :=
    fun h => Unicode.within h
  simp only [table, List.mem_cons, List.not_mem_nil, or_false] at hrow
  have htwo : ∀ {r1 : UInt8 × UInt8}, List.Forall₂ InRange conts [r1] →
      ∃ b1, conts = [b1] ∧ InRange b1 r1 := by
    intro r1 h
    obtain ⟨b1, rest, h1, hrest, rfl⟩ := List.forall₂_cons_right_iff.mp h
    rw [List.forall₂_nil_right_iff] at hrest
    exact ⟨b1, by rw [hrest], h1⟩
  have hthree : ∀ {r1 r2 : UInt8 × UInt8}, List.Forall₂ InRange conts [r1, r2] →
      ∃ b1 b2, conts = [b1, b2] ∧ InRange b1 r1 ∧ InRange b2 r2 := by
    intro r1 r2 h
    obtain ⟨b1, rest, h1, hrest, rfl⟩ := List.forall₂_cons_right_iff.mp h
    obtain ⟨b2, rest', h2, hrest', rfl⟩ := List.forall₂_cons_right_iff.mp hrest
    rw [List.forall₂_nil_right_iff] at hrest'
    exact ⟨b1, b2, by rw [hrest'], h1, h2⟩
  have hfour : ∀ {r1 r2 r3 : UInt8 × UInt8}, List.Forall₂ InRange conts [r1, r2, r3] →
      ∃ b1 b2 b3, conts = [b1, b2, b3] ∧ InRange b1 r1 ∧ InRange b2 r2 ∧ InRange b3 r3 := by
    intro r1 r2 r3 h
    obtain ⟨b1, rest, h1, hrest, rfl⟩ := List.forall₂_cons_right_iff.mp h
    obtain ⟨b2, rest', h2, hrest', rfl⟩ := List.forall₂_cons_right_iff.mp hrest
    obtain ⟨b3, rest'', h3, hrest'', rfl⟩ := List.forall₂_cons_right_iff.mp hrest'
    rw [List.forall₂_nil_right_iff] at hrest''
    exact ⟨b1, b2, b3, by rw [hrest''], h1, h2, h3⟩
  have hthreeChar : ∀ {b1 b2 : UInt8}, conts = [b1, b2] →
      224 ≤ lead.toNat ∧ lead.toNat ≤ 239 → 128 ≤ b1.toNat ∧ b1.toNat ≤ 191 →
      128 ≤ b2.toNat ∧ b2.toNat ≤ 191 → (lead.toNat = 224 → 160 ≤ b1.toNat) →
      (lead.toNat = 237 → b1.toNat ≤ 159) → ∃ c : Char, String.utf8EncodeChar c = lead :: conts := by
    intro b1 b2 hconts' h0 h1 h2 hlong hsurrogate
    obtain ⟨c, -, hc⟩ := Unicode.encoding_three h0 h1 h2 hlong hsurrogate
    exact ⟨c, by rw [hc, hconts']⟩
  have hfourChar : ∀ {b1 b2 b3 : UInt8}, conts = [b1, b2, b3] →
      240 ≤ lead.toNat ∧ lead.toNat ≤ 244 → 128 ≤ b1.toNat ∧ b1.toNat ≤ 191 →
      128 ≤ b2.toNat ∧ b2.toNat ≤ 191 → 128 ≤ b3.toNat ∧ b3.toNat ≤ 191 →
      (lead.toNat = 240 → 144 ≤ b1.toNat) → (lead.toNat = 244 → b1.toNat ≤ 143) →
      ∃ c : Char, String.utf8EncodeChar c = lead :: conts := by
    intro b1 b2 b3 hconts' h0 h1 h2 h3 hlong hmax
    obtain ⟨c, -, hc⟩ := Unicode.encoding_four h0 h1 h2 h3 hlong hmax
    exact ⟨c, by rw [hc, hconts']⟩
  rcases hrow with rfl | rfl | rfl | rfl | rfl | rfl | rfl | rfl | rfl
  · have h0 := hbounds hlead
    rw [List.forall₂_nil_right_iff.mp hconts]
    simp only [UInt8.reduceToNat] at h0
    obtain ⟨c, -, hc⟩ := Unicode.encoding_one h0.2
    exact ⟨c, hc⟩
  · obtain ⟨b1, rfl, h1⟩ := htwo hconts
    have h0 := hbounds hlead
    have h1 := hbounds h1
    simp only [UInt8.reduceToNat] at h0 h1
    obtain ⟨c, -, hc⟩ := Unicode.encoding_two h0 h1
    exact ⟨c, hc⟩
  all_goals have h0 := hbounds hlead
  all_goals first
    | obtain ⟨b1, b2, hlist, h1, h2⟩ := hthree hconts
      have h1 := hbounds h1
      have h2 := hbounds h2
      simp only [UInt8.reduceToNat] at h0 h1 h2
      exact hthreeChar hlist (by omega) (by omega) (by omega) (by omega) (by omega)
    | obtain ⟨b1, b2, b3, hlist, h1, h2, h3⟩ := hfour hconts
      have h1 := hbounds h1
      have h2 := hbounds h2
      have h3 := hbounds h3
      simp only [UInt8.reduceToNat] at h0 h1 h2 h3
      exact hfourChar hlist (by omega) (by omega) (by omega) (by omega) (by omega) (by omega)

/-- Well-formed texts are the encodings of lists of characters. -/
theorem wellFormed_iff_chars {text : Bytes} :
    WellFormed text ↔ ∃ chars : List Char, text = chars.flatMap String.utf8EncodeChar := by
  constructor
  · intro h
    induction h with
    | nil => exact ⟨[], rfl⟩
    | cons first rest hfirst _ ih =>
        obtain ⟨c, rfl⟩ := sequence_char hfirst
        obtain ⟨chars, rfl⟩ := ih
        exact ⟨c :: chars, rfl⟩
  · rintro ⟨chars, rfl⟩
    induction chars with
    | nil => exact .nil
    | cons c chars ih => exact .cons _ _ (sequence_encode c) ih

theorem encode_ne_nil (c : Char) : String.utf8EncodeChar c ≠ [] := by
  rw [Unicode.utf8EncodeChar_cases]
  split_ifs <;> simp

namespace Unicode

/-- `decode_utf8`, over and over, consumes the whole text. -/
def decodesAll : Nat → Bytes → Bool
  | 0, _ => false
  | fuel + 1, p =>
    if p = [] then true
    else
      match decodeUtf8 p with
      | some (_, length) => decodesAll fuel (p.drop length)
      | none => false

theorem decodesAll_iff {fuel : Nat} {text : Bytes} (hfuel : text.length < fuel) :
    decodesAll fuel text = true ↔ WellFormed text := by
  rw [wellFormed_iff_chars]
  constructor
  · intro h
    clear hfuel
    induction fuel generalizing text with
    | zero => cases h
    | succ fuel ih =>
        rw [decodesAll] at h
        split at h
        · rename_i hnil
          exact ⟨[], hnil⟩
        · cases hdecode : decodeUtf8 text with
          | none => rw [hdecode] at h; cases h
          | some found =>
              obtain ⟨cp, length⟩ := found
              rw [hdecode] at h
              obtain ⟨c, -, rfl, rest, rfl⟩ := decodeUtf8_sound hdecode
              dsimp only at h
              rw [List.drop_left] at h
              obtain ⟨chars, rfl⟩ := ih h
              exact ⟨c :: chars, rfl⟩
  · rintro ⟨chars, rfl⟩
    induction chars generalizing fuel with
    | nil =>
        obtain ⟨fuel, rfl⟩ : ∃ f, fuel = f + 1 := ⟨fuel - 1, by omega⟩
        rfl
    | cons c chars ih =>
        obtain ⟨fuel, rfl⟩ : ∃ f, fuel = f + 1 := ⟨fuel - 1, by omega⟩
        have hpos := List.length_pos_iff.mpr (encode_ne_nil c)
        rw [List.flatMap_cons, List.length_append] at hfuel
        rw [List.flatMap_cons, decodesAll, if_neg (by simp), decodeUtf8_encode]
        dsimp only
        rw [List.drop_left]
        exact ih (by omega)

end Unicode

/-! ### The decoder of the writer -/

namespace Writer

/-- What the masks of the decoder say about a byte. -/
theorem masks (b : UInt8) :
    leadBits b = (if 192 ≤ b.toNat ∧ b.toNat ≤ 223 then some (2, b.toNat % 32)
      else if 224 ≤ b.toNat ∧ b.toNat ≤ 239 then some (3, b.toNat % 16)
      else if 240 ≤ b.toNat ∧ b.toNat ≤ 247 then some (4, b.toNat % 8) else none) ∧
    (b &&& 0xC0 = 0x80 ↔ 128 ≤ b.toNat ∧ b.toNat ≤ 191) ∧ (b &&& 0x3F).toNat = b.toNat % 64 := by
  have hall : ∀ n < 256, leadBits n.toUInt8 =
        (if 192 ≤ n ∧ n ≤ 223 then some (2, n % 32)
          else if 224 ≤ n ∧ n ≤ 239 then some (3, n % 16)
          else if 240 ≤ n ∧ n ≤ 247 then some (4, n % 8) else none) ∧
      (n.toUInt8 &&& 0xC0 = 0x80 ↔ 128 ≤ n ∧ n ≤ 191) ∧ (n.toUInt8 &&& 0x3F).toNat = n % 64 := by
    decide +kernel
  have hb := hall b.toNat b.toNat_lt
  rwa [show b.toNat.toUInt8 = b from UInt8.ofNat_toNat] at hb

variable {lead b1 b2 b3 : UInt8} {p : Bytes} {cp len : Nat}

/-- The bits of a continuation byte go behind those of the bytes before it. -/
theorem joinContinuations_cons (n : Nat) : joinContinuations (n + 1) cp (b1 :: p) =
    if 128 ≤ b1.toNat ∧ b1.toNat ≤ 191 then joinContinuations n (cp * 64 + b1.toNat % 64) p
    else .error .utf8InvalidContinuation := by
  obtain ⟨-, hcont, hbits⟩ := masks b1
  have hjoin : (cp <<< 6) ||| (b1.toNat % 64) = cp * 2 ^ 6 + b1.toNat % 64 :=
    Unicode.join cp (Nat.mod_lt _ (by decide))
  rw [joinContinuations, hbits, hjoin, show (2 : Nat) ^ 6 = 64 from rfl]
  by_cases hb : 128 ≤ b1.toNat ∧ b1.toNat ≤ 191
  · rw [if_pos hb, if_neg (not_not.mpr (hcont.mpr hb))]
  · rw [if_neg hb, if_pos (fun heq => hb (hcont.mp heq))]

theorem checkCodePoint_ok (h : checkCodePoint len cp = .ok ()) :
    (len = 2 → 0x80 ≤ cp) ∧ (len = 3 → 0x800 ≤ cp) ∧ (len = 4 → 0x10000 ≤ cp) ∧
      cp ≤ 0x10FFFF ∧ ¬(0xD800 ≤ cp ∧ cp ≤ 0xDFFF) := by
  rw [checkCodePoint] at h
  split_ifs at h with h2 h3 h4 hmax hsurrogate
  exact ⟨by omega, by omega, by omega, by omega, hsurrogate⟩

theorem joinContinuations_ok {n result : Nat} (h : joinContinuations n cp p = .ok result) :
    ∃ conts rest, p = conts ++ rest ∧ conts.length = n ∧
      (∀ b ∈ conts, 128 ≤ b.toNat ∧ b.toNat ≤ 191) ∧
      result = conts.foldl (fun v b => v * 64 + b.toNat % 64) cp := by
  induction n generalizing cp p with
  | zero =>
      cases h
      exact ⟨[], p, rfl, rfl, by simp, rfl⟩
  | succ n ih =>
      cases p with
      | nil => cases h
      | cons b p =>
          rw [joinContinuations_cons] at h
          split at h
          · rename_i hb
            obtain ⟨conts, rest, rfl, rfl, hconts, rfl⟩ := ih h
            exact ⟨b :: conts, rest, rfl, rfl, List.forall_mem_cons.mpr ⟨hb, hconts⟩, rfl⟩
          · cases h

theorem decodeSequence_ok (h : decodeSequence lead p = .ok (cp, len)) :
    ∃ bits conts rest, leadBits lead = some (len, bits) ∧ p = conts ++ rest ∧
      conts.length = len - 1 ∧ (∀ b ∈ conts, 128 ≤ b.toNat ∧ b.toNat ≤ 191) ∧
      cp = conts.foldl (fun v b => v * 64 + b.toNat % 64) bits ∧ checkCodePoint len cp = .ok () := by
  rw [decodeSequence] at h
  split at h
  · cases h
  · rename_i len' bits hlead
    split at h
    · cases h
    · obtain ⟨cp', hjoin, h⟩ := Res.bind_eq_ok.mp h
      obtain ⟨⟨⟩, hcheck, h⟩ := Res.bind_eq_ok.mp h
      cases h
      obtain ⟨conts, rest, rfl, hlength, hconts, rfl⟩ := joinContinuations_ok hjoin
      exact ⟨bits, conts, rest, hlead, rfl, hlength, hconts, rfl, hcheck⟩

/-- What the writer decodes is a character beyond ASCII that the text starts with. -/
theorem decodeSequence_sound (h : decodeSequence lead p = .ok (cp, len)) :
    ∃ c : Char, cp = c.toNat ∧ len = (String.utf8EncodeChar c).length ∧ 0x7F < c.toNat ∧
      ∃ rest, lead :: p = String.utf8EncodeChar c ++ rest := by
  obtain ⟨bits, conts, rest, hlead, rfl, hlength, hconts, rfl, hcheck⟩ := decodeSequence_ok h
  obtain ⟨hleadBits, -, -⟩ := masks lead
  obtain ⟨h2, h3, h4, hmax, hsurrogate⟩ := checkCodePoint_ok hcheck
  have hfound : ∀ c : Char, conts.foldl (fun v b => v * 64 + b.toNat % 64) bits = c.toNat →
      String.utf8EncodeChar c = lead :: conts → len = conts.length + 1 → 0x7F < c.toNat →
      ∃ c : Char, conts.foldl (fun v b => v * 64 + b.toNat % 64) bits = c.toNat ∧
        len = (String.utf8EncodeChar c).length ∧ 0x7F < c.toNat ∧
        ∃ more, lead :: (conts ++ rest) = String.utf8EncodeChar c ++ more := by
    intro c hc hencode hlen hbig
    exact ⟨c, hc, by rw [hencode, hlen, List.length_cons], hbig, rest, by rw [hencode]; rfl⟩
  rw [hleadBits] at hlead
  split_ifs at hlead with htwo hthree hfour
  · cases hlead
    obtain ⟨b1, rfl⟩ := List.length_eq_one_iff.mp hlength
    have h1 := hconts b1 (by simp)
    have hlong := h2 rfl
    simp only [List.foldl_cons, List.foldl_nil] at hlong hfound ⊢
    obtain ⟨c, hc, hencode⟩ := @Unicode.encoding_two lead b1 (by omega) h1
    exact hfound c hc hencode rfl (by omega)
  · cases hlead
    obtain ⟨b1, b2, rfl⟩ := List.length_eq_two.mp hlength
    have h1 := hconts b1 (by simp)
    have h2' := hconts b2 (by simp)
    have hlong := h3 rfl
    simp only [List.foldl_cons, List.foldl_nil] at hlong hsurrogate hfound ⊢
    obtain ⟨c, hc, hencode⟩ := @Unicode.encoding_three lead b1 b2 hthree h1 h2'
      (by omega) (by omega)
    exact hfound c (by omega) hencode rfl (by omega)
  · cases hlead
    obtain ⟨b1, b2, b3, rfl⟩ := List.length_eq_three.mp hlength
    have h1 := hconts b1 (by simp)
    have h2' := hconts b2 (by simp)
    have h3' := hconts b3 (by simp)
    have hlong := h4 rfl
    simp only [List.foldl_cons, List.foldl_nil] at hlong hmax hfound ⊢
    obtain ⟨c, hc, hencode⟩ := @Unicode.encoding_four lead b1 b2 b3
      (by omega) h1 h2' h3' (by omega) (by omega)
    exact hfound c (by omega) hencode rfl (by omega)

theorem joinContinuations_append {conts : Bytes}
    (hconts : ∀ b ∈ conts, 128 ≤ b.toNat ∧ b.toNat ≤ 191) (cp : Nat) (rest : Bytes) :
    joinContinuations conts.length cp (conts ++ rest) =
      .ok (conts.foldl (fun v b => v * 64 + b.toNat % 64) cp) := by
  induction conts generalizing cp with
  | nil => rfl
  | cons b conts ih =>
      rw [List.forall_mem_cons] at hconts
      rw [List.length_cons, List.cons_append, joinContinuations_cons, if_pos hconts.1, ih hconts.2,
        List.foldl_cons]

theorem decodeSequence_append {bits : Nat} {conts : Bytes}
    (hlead : leadBits lead = some (conts.length + 1, bits))
    (hconts : ∀ b ∈ conts, 128 ≤ b.toNat ∧ b.toNat ≤ 191)
    (hcp : conts.foldl (fun v b => v * 64 + b.toNat % 64) bits = cp)
    (hcheck : checkCodePoint (conts.length + 1) cp = .ok ()) (rest : Bytes) :
    decodeSequence lead (conts ++ rest) = .ok (cp, conts.length + 1) := by
  rw [decodeSequence, hlead]
  dsimp only
  rw [if_neg (by rw [List.length_append]; omega), Nat.add_sub_cancel, joinContinuations_append hconts,
    hcp, Res.ok_bind, hcheck, Res.ok_bind]

/-- The encoding of a character beyond ASCII is decoded, whatever follows it. -/
theorem decodeSequence_encode {c : Char} (h : 0x7F < c.toNat) :
    ∃ lead conts, String.utf8EncodeChar c = lead :: conts ∧ 0x80 ≤ lead ∧
      ∀ rest, decodeSequence lead (conts ++ rest) = .ok (c.toNat, conts.length + 1) := by
  have hvalid : c.toNat < 0xD800 ∨ (0xDFFF < c.toNat ∧ c.toNat < 0x110000) := by
    have hvalid : c.toNat.isValidChar := c.valid
    rwa [Nat.isValidChar] at hvalid
  have hcont : ∀ n, 128 ≤ (n % 64 + 0x80).toUInt8.toNat ∧ (n % 64 + 0x80).toUInt8.toNat ≤ 191 ∧
      (n % 64 + 0x80).toUInt8.toNat % 64 = n % 64 := by
    intro n
    rw [Unicode.toNat_toUInt8 (by omega)]
    omega
  have hlead : ∀ n, 0x80 ≤ n → n < 256 → (0x80 : UInt8) ≤ n.toUInt8 := by
    intro n hn hlt
    rw [UInt8.le_iff_toNat_le, Unicode.toNat_toUInt8 hlt]
    exact hn
  have hcheck : ∀ len, (len = 2 → 0x80 ≤ c.toNat) → (len = 3 → 0x800 ≤ c.toNat) →
      (len = 4 → 0x10000 ≤ c.toNat) → checkCodePoint len c.toNat = .ok () := by
    intro len h2 h3 h4
    rw [checkCodePoint, if_neg (by omega), if_neg (by omega), if_neg (by omega), if_neg (by omega),
      if_neg (by omega)]
  rw [Unicode.utf8EncodeChar_cases, if_neg (by omega)]
  by_cases h2 : c.toNat ≤ 0x7FF
  · rw [if_pos h2]
    have hb0 := @Unicode.toNat_toUInt8 (c.toNat / 64 % 32 + 0xC0) (by omega)
    obtain ⟨hbits, -, -⟩ := masks (c.toNat / 64 % 32 + 0xC0).toUInt8
    rw [hb0, if_pos (by omega)] at hbits
    obtain ⟨hlo, hhi, hmod⟩ := hcont c.toNat
    refine ⟨_, _, rfl, hlead _ (by omega) (by omega), decodeSequence_append hbits ?_ ?_ ?_⟩
    · exact fun b hb => List.mem_singleton.mp hb ▸ ⟨hlo, hhi⟩
    · simp only [List.foldl_cons, List.foldl_nil]
      omega
    · exact hcheck _ (by omega) (by simp) (by simp)
  rw [if_neg h2]
  by_cases h3 : c.toNat ≤ 0xFFFF
  · rw [if_pos h3]
    have hb0 := @Unicode.toNat_toUInt8 (c.toNat / 4096 % 16 + 0xE0) (by omega)
    obtain ⟨hbits, -, -⟩ := masks (c.toNat / 4096 % 16 + 0xE0).toUInt8
    rw [hb0, if_neg (by omega), if_pos (by omega)] at hbits
    obtain ⟨hlo, hhi, hmod⟩ := hcont c.toNat
    obtain ⟨hlo', hhi', hmod'⟩ := hcont (c.toNat / 64)
    refine ⟨_, _, rfl, hlead _ (by omega) (by omega), decodeSequence_append hbits ?_ ?_ ?_⟩
    · exact Json5.forall_mem_pair.mpr ⟨⟨hlo', hhi'⟩, ⟨hlo, hhi⟩⟩
    · simp only [List.foldl_cons, List.foldl_nil]
      omega
    · exact hcheck _ (by simp) (by omega) (by simp)
  · rw [if_neg h3]
    have hb0 := @Unicode.toNat_toUInt8 (c.toNat / 262144 % 8 + 0xF0) (by omega)
    obtain ⟨hbits, -, -⟩ := masks (c.toNat / 262144 % 8 + 0xF0).toUInt8
    rw [hb0, if_neg (by omega), if_neg (by omega), if_pos (by omega)] at hbits
    obtain ⟨hlo, hhi, hmod⟩ := hcont c.toNat
    obtain ⟨hlo', hhi', hmod'⟩ := hcont (c.toNat / 64)
    obtain ⟨hlo'', hhi'', hmod''⟩ := hcont (c.toNat / 4096)
    refine ⟨_, _, rfl, hlead _ (by omega) (by omega), decodeSequence_append hbits ?_ ?_ ?_⟩
    · exact List.forall_mem_cons.mpr ⟨⟨hlo'', hhi''⟩,
        Json5.forall_mem_pair.mpr ⟨⟨hlo', hhi'⟩, ⟨hlo, hhi⟩⟩⟩
    · simp only [List.foldl_cons, List.foldl_nil]
      omega
    · exact hcheck _ (by simp) (by simp) (by omega)

theorem decodeSequence_ne_stuck (lead : UInt8) (p : Bytes) : decodeSequence lead p ≠ .stuck := by
  have hjoin : ∀ (n cp : Nat) (p : Bytes), n ≤ p.length → joinContinuations n cp p ≠ .stuck := by
    intro n
    induction n with
    | zero => simp [joinContinuations]
    | succ n ih =>
        intro cp p hle
        cases p with
        | nil => simp at hle
        | cons b p =>
            rw [joinContinuations_cons]
            split
            · exact ih _ _ (Nat.le_of_succ_le_succ hle)
            · simp
  rw [decodeSequence]
  split
  · simp
  · rename_i len bits hlead
    split
    · simp
    · rw [Ne, Res.bind_eq_stuck, not_or]
      refine ⟨hjoin _ _ _ (by omega), ?_⟩
      rintro ⟨cp, -, h⟩
      rcases Res.bind_eq_stuck.mp h with h | ⟨_, -, h⟩
      · rw [checkCodePoint] at h
        split_ifs at h
      · cases h

/-! ### What is written -/

/-- The text of a code point beyond ASCII. -/
def codePointText (cp : Nat) : Bytes :=
  if cp ≤ 0xFFFF then u4Text cp
  else u4Text (0xD800 + ((cp - 0x10000) >>> 10)) ++ u4Text (0xDC00 + ((cp - 0x10000) &&& 0x3FF))

/-- The ASCII form of a character. -/
def asciiForm (c : Char) : Bytes :=
  if c.toNat ≤ 0x7F then esc c.toNat.toUInt8 else codePointText c.toNat

theorem appendCodePoint_eq (cp : Nat) (w : Writer) :
    appendCodePoint cp w = .ok ((), { w with sink := w.sink ++ codePointText cp }) := by
  unfold appendCodePoint codePointText
  split
  · rfl
  · rw [← List.append_assoc]
    rfl

theorem encode_toUInt8 {c : Char} (h : c.toNat ≤ 0x7F) :
    String.utf8EncodeChar c = [c.toNat.toUInt8] ∧ c.toNat.toUInt8 < 0x80 := by
  refine ⟨Json5.encode_ascii h, ?_⟩
  rw [UInt8.lt_iff_toNat_lt, Unicode.toNat_toUInt8 (by omega)]
  exact Nat.lt_succ_of_le h

theorem append_bind (text : Bytes) (next : Unit → Prog Writer Unit) (w : Writer) :
    (append text >>= next) w = next () { w with sink := w.sink ++ text } := rfl

/-- One character is written, and the loop goes on behind it. -/
theorem writeEscapedAscii_char (c : Char) (fuel : Nat) (rest : Bytes) (w : Writer) :
    writeEscapedAscii (fuel + 1) (String.utf8EncodeChar c ++ rest) w =
      writeEscapedAscii fuel rest { w with sink := w.sink ++ asciiForm c } := by
  by_cases hascii : c.toNat ≤ 0x7F
  · obtain ⟨hencode, hlt⟩ := encode_toUInt8 hascii
    rw [hencode, asciiForm, if_pos hascii, List.singleton_append, writeEscapedAscii]
    by_cases hneeds : needsEscape c.toNat.toUInt8 = true
    · rw [if_pos hneeds, appendEscape, append_bind, escapeText_eq hneeds]
    · rw [if_neg hneeds, if_pos hlt, append_bind, esc_plain (by simpa using hneeds)]
  · obtain ⟨lead, conts, hencode, hlead, hdecode⟩ := decodeSequence_encode (c := c) (by omega)
    have hplain : needsEscape lead = false := by
      have hne : ∀ b : UInt8, b < 0x80 → lead ≠ b := fun b hb heq =>
        UInt8.not_lt.mpr hlead (heq ▸ hb)
      have hcontrol : ¬lead < 0x20 := fun hlt =>
        UInt8.not_lt.mpr hlead (UInt8.lt_trans hlt (by decide))
      simp [needsEscape, hcontrol, hne (ascii '"') (by decide), hne (ascii '\\') (by decide)]
    rw [hencode, asciiForm, if_neg hascii, List.cons_append, writeEscapedAscii,
      if_neg (by rw [hplain]; decide), if_neg (UInt8.not_lt.mpr hlead), hdecode]
    dsimp only
    rw [Prog.bind_of_ok (appendCodePoint_eq _ _), List.drop_succ_cons, List.drop_left]

theorem writeEscapedAscii_chars (chars : List Char) {fuel : Nat}
    (hfuel : (chars.flatMap String.utf8EncodeChar).length < fuel) (w : Writer) :
    writeEscapedAscii fuel (chars.flatMap String.utf8EncodeChar) w =
      .ok ((), { w with sink := w.sink ++ chars.flatMap asciiForm }) := by
  induction chars generalizing fuel w with
  | nil =>
      obtain ⟨fuel, rfl⟩ : ∃ f, fuel = f + 1 := ⟨fuel - 1, by omega⟩
      rw [List.flatMap_nil, List.flatMap_nil, List.append_nil]
      rfl
  | cons c chars ih =>
      obtain ⟨fuel, rfl⟩ : ∃ f, fuel = f + 1 := ⟨fuel - 1, by omega⟩
      have hpos := List.length_pos_iff.mpr (encode_ne_nil c)
      rw [List.flatMap_cons, List.length_append] at hfuel
      rw [List.flatMap_cons, writeEscapedAscii_char, ih (by omega), List.flatMap_cons,
        List.append_assoc]

/-- A text that is written to its end is the encoding of characters. -/
theorem chars_of_writeEscapedAscii {fuel : Nat} {text : Bytes} {w w' : Writer}
    (h : writeEscapedAscii fuel text w = .ok ((), w')) :
    ∃ chars : List Char, text = chars.flatMap String.utf8EncodeChar := by
  induction fuel generalizing text w with
  | zero => cases h
  | succ fuel ih =>
      cases text with
      | nil => exact ⟨[], rfl⟩
      | cons b text =>
          have hone : ∀ w, writeEscapedAscii fuel text w = .ok ((), w') → b < 0x80 →
              ∃ chars : List Char, b :: text = chars.flatMap String.utf8EncodeChar := by
            intro w hrest hb
            obtain ⟨chars, rfl⟩ := ih hrest
            have hle : b.toNat ≤ 127 := Nat.le_of_lt_succ (UInt8.lt_iff_toNat_lt.mp hb)
            obtain ⟨c, -, hc⟩ := Unicode.encoding_one hle
            exact ⟨c :: chars, by rw [List.flatMap_cons, hc]; rfl⟩
          rw [writeEscapedAscii] at h
          split_ifs at h with hneeds hascii
          · refine hone _ h ?_
            rcases Bool.or_eq_true_iff.mp hneeds with hneeds | hbackslash
            · rcases Bool.or_eq_true_iff.mp hneeds with hcontrol | hquote
              · exact UInt8.lt_trans (of_decide_eq_true hcontrol) (by decide)
              · rw [beq_iff_eq.mp hquote]
                decide
            · rw [beq_iff_eq.mp hbackslash]
              decide
          · exact hone _ h hascii
          · cases hdecode : decodeSequence b text with
            | stuck => exact absurd hdecode (decodeSequence_ne_stuck _ _)
            | error code => rw [hdecode] at h; cases h
            | ok found =>
                obtain ⟨cp, len⟩ := found
                rw [hdecode] at h
                dsimp only at h
                rw [Prog.bind_of_ok (appendCodePoint_eq _ _)] at h
                obtain ⟨c, -, rfl, -, rest, hsplit⟩ := decodeSequence_sound hdecode
                rw [hsplit, List.drop_left] at h
                obtain ⟨chars, rfl⟩ := ih h
                exact ⟨c :: chars, hsplit⟩

theorem writeEscapedAscii_iff {text : Bytes} (w : Writer) :
    (∃ w', writeEscapedAscii (text.length + 1) text w = .ok ((), w')) ↔ WellFormed text := by
  rw [wellFormed_iff_chars]
  constructor
  · exact fun ⟨_, h⟩ => chars_of_writeEscapedAscii h
  · rintro ⟨chars, rfl⟩
    exact ⟨_, writeEscapedAscii_chars chars (Nat.lt_succ_self _) w⟩

/-! ### Reading it back -/

theorem hexDigit_hexDigit {n : Nat} (h : n < 16) : Rfc.HexDigit (hexDigit n) n := by
  have hall : ∀ n < 16, hexValue (hexDigit n) = some n := by decide
  exact hexValue_iff.mp (hall n h)

theorem hexDigit_ascii {n : Nat} (h : n < 16) : hexDigit n < 0x80 := by
  have hall : ∀ n < 16, hexDigit n < 0x80 := by decide
  exact hall n h

/-- `append_u4` writes an escape of four hex digits. -/
theorem u4Text_codeUnit {v : Nat} (h : v < 2 ^ 16) : ∃ digits,
    u4Text v = ascii '\\' :: ascii 'u' :: digits ∧ Rfc.CodeUnit digits v ∧ ∀ c ∈ digits, c < 0x80 := by
  have hnibble : ∀ k, (v >>> k) &&& 0xF = v / 2 ^ k % 16 := by
    intro k
    rw [Nat.shiftRight_eq_div_pow]
    exact Nat.and_two_pow_sub_one_eq_mod _ 4
  have hlow : v &&& 0xF = v % 16 := Nat.and_two_pow_sub_one_eq_mod v 4
  have hmod : ∀ n, n % 16 < 16 := fun n => Nat.mod_lt n (by decide)
  refine ⟨[hexDigit (v / 2 ^ 12 % 16), hexDigit (v / 2 ^ 8 % 16), hexDigit (v / 2 ^ 4 % 16),
    hexDigit (v % 16)], ?_, ?_, ?_⟩
  · rw [u4Text, hnibble, hnibble, hnibble, hlow]
    rfl
  · have hunit := Rfc.CodeUnit.mk _ _ _ _ _ _ _ _ (hexDigit_hexDigit (hmod (v / 2 ^ 12)))
      (hexDigit_hexDigit (hmod (v / 2 ^ 8))) (hexDigit_hexDigit (hmod (v / 2 ^ 4)))
      (hexDigit_hexDigit (hmod v))
    have hvalue : ((v / 2 ^ 12 % 16 * 16 + v / 2 ^ 8 % 16) * 16 + v / 2 ^ 4 % 16) * 16 + v % 16 = v := by
      omega
    rwa [hvalue] at hunit
  · intro c hc
    simp only [List.mem_cons, List.not_mem_nil, or_false] at hc
    rcases hc with rfl | rfl | rfl | rfl <;> exact hexDigit_ascii (hmod _)

/-- The escaped form of an ASCII byte is ASCII, and stands for the byte. -/
theorem esc_character {b : UInt8} (h : b < 0x80) :
    (∀ c ∈ esc b, c < 0x80) ∧ Rfc.Character (esc b) [b] := by
  have hnamed : ∀ letter, b < 0x80 → letter < 0x80 → Rfc.ShortEscape letter b →
      esc b = [ascii '\\', letter] →
      (∀ c ∈ esc b, c < 0x80) ∧ Rfc.Character (esc b) [b] := by
    intro letter hb hletter hshort heq
    rw [heq]
    refine ⟨fun c hc => ?_, .short letter b hshort⟩
    simp only [List.mem_cons, List.not_mem_nil, or_false] at hc
    rcases hc with rfl | rfl
    · decide
    · exact hletter
  by_cases hquote : b = ascii '"'
  · subst hquote; exact hnamed (ascii '"') h (by decide) .quote (by decide +kernel)
  by_cases hbackslash : b = ascii '\\'
  · subst hbackslash; exact hnamed (ascii '\\') h (by decide) .backslash (by decide +kernel)
  by_cases hcontrol : b < 0x20
  · by_cases h8 : b = 0x08
    · subst h8; exact hnamed (ascii 'b') h (by decide) .backspace (by decide +kernel)
    by_cases hC : b = 0x0C
    · subst hC; exact hnamed (ascii 'f') h (by decide) .formFeed (by decide +kernel)
    by_cases hA : b = 0x0A
    · subst hA; exact hnamed (ascii 'n') h (by decide) .lineFeed (by decide +kernel)
    by_cases hD : b = 0x0D
    · subst hD; exact hnamed (ascii 'r') h (by decide) .carriageReturn (by decide +kernel)
    by_cases h9 : b = 0x09
    · subst h9; exact hnamed (ascii 't') h (by decide) .tab (by decide +kernel)
    have hlt : b.toNat < 32 := UInt8.lt_iff_toNat_lt.mp hcontrol
    have hesc : esc b = ascii '\\' :: ascii 'u' ::
        [ascii '0', ascii '0', hexDigit (b.toNat / 16), hexDigit (b.toNat % 16)] := by
      unfold esc namedEscapes
      simp only [List.lookup_cons, List.lookup_nil]
      simp only [hquote, hbackslash, h8, hC, hA, hD, h9, beq_false_of_ne, ne_eq, not_false_eq_true,
        if_pos hcontrol]
      rfl
    obtain ⟨c, hc, hencode⟩ := @Unicode.encoding_one b (by omega)
    have hzero : Rfc.HexDigit (ascii '0') 0 := .digit _ (by decide) (by decide)
    have hunit := Rfc.CodeUnit.mk _ _ _ _ _ _ _ _ hzero hzero
      (@hexDigit_hexDigit (b.toNat / 16) (by omega)) (@hexDigit_hexDigit (b.toNat % 16) (by omega))
    have hvalue : ((0 * 16 + 0) * 16 + b.toNat / 16) * 16 + b.toNat % 16 = c.toNat := by omega
    rw [hvalue] at hunit
    rw [hesc]
    refine ⟨fun c hc => ?_, hencode ▸ .unicode _ c hunit⟩
    simp only [List.mem_cons, List.not_mem_nil, or_false] at hc
    rcases hc with rfl | rfl | rfl | rfl | rfl | rfl
    · decide
    · decide
    · decide
    · decide
    · exact hexDigit_ascii (by omega)
    · exact hexDigit_ascii (by omega)
  · rw [esc_plain (by simp [needsEscape, hquote, hbackslash, hcontrol])]
    exact ⟨fun c hc => List.mem_singleton.mp hc ▸ h,
      .unescaped b (UInt8.not_lt.mp hcontrol) hquote hbackslash⟩

/-- The ASCII form of a character is ASCII, and stands for the encoding of the character. -/
theorem asciiForm_character (c : Char) :
    (∀ b ∈ asciiForm c, b < 0x80) ∧ Rfc.Character (asciiForm c) (String.utf8EncodeChar c) := by
  have hstart : ∀ digits : Bytes, (∀ b ∈ digits, b < 0x80) →
      ∀ b ∈ ascii '\\' :: ascii 'u' :: digits, b < 0x80 := fun digits h =>
    List.forall_mem_cons.mpr ⟨by decide, List.forall_mem_cons.mpr ⟨by decide, h⟩⟩
  have hmax : c.toNat < 0x110000 := by
    have hvalid : c.toNat.isValidChar := c.valid
    rw [Nat.isValidChar] at hvalid
    omega
  unfold asciiForm
  split
  · rename_i hascii
    obtain ⟨hencode, hlt⟩ := encode_toUInt8 hascii
    rw [hencode]
    exact esc_character hlt
  · unfold codePointText
    split
    · rename_i hplane
      obtain ⟨digits, htext, hunit, hdigits⟩ := @u4Text_codeUnit c.toNat (by omega)
      rw [htext]
      exact ⟨hstart digits hdigits, .unicode digits c hunit⟩
    · have hhigh : (c.toNat - 0x10000) >>> 10 = (c.toNat - 0x10000) / 1024 := Nat.shiftRight_eq_div_pow _ 10
      have hlow : (c.toNat - 0x10000) &&& 0x3FF = (c.toNat - 0x10000) % 1024 :=
        Nat.and_two_pow_sub_one_eq_mod _ 10
      rw [hhigh, hlow]
      obtain ⟨digits, htext, hunit, hdigits⟩ :=
        @u4Text_codeUnit (0xD800 + (c.toNat - 0x10000) / 1024) (by omega)
      obtain ⟨digits', htext', hunit', hdigits'⟩ :=
        @u4Text_codeUnit (0xDC00 + (c.toNat - 0x10000) % 1024) (by omega)
      rw [htext, htext']
      refine ⟨?_, .pair digits digits' _ _ c hunit hunit' (by omega) (by omega) (by omega) (by omega)
        (by omega)⟩
      intro b hb
      rcases List.mem_append.mp hb with hb | hb
      · exact hstart digits hdigits b hb
      · exact hstart digits' hdigits' b hb

theorem asciiForm_characters (chars : List Char) :
    (∀ b ∈ chars.flatMap asciiForm, b < 0x80) ∧
      Rfc.Characters (chars.flatMap asciiForm) (chars.flatMap String.utf8EncodeChar) := by
  induction chars with
  | nil => exact ⟨fun b hb => absurd hb List.not_mem_nil, .nil⟩
  | cons c chars ih =>
      obtain ⟨hascii, hcharacter⟩ := asciiForm_character c
      refine ⟨fun b hb => ?_, .cons _ _ _ _ hcharacter ih.2⟩
      rcases List.mem_append.mp (List.flatMap_cons ▸ hb) with hb | hb
      · exact hascii b hb
      · exact ih.1 b hb

/-- `out` is ASCII, and `parse_string` reads the text between its quotes as `text`. -/
structure ReadsBack (out text : Bytes) : Prop where
  ascii : ∀ c ∈ out, c < 0x80
  parse : ∀ (platform : Platform) (cfg : Config), cfg.json5 = false → cfg.strictUtf8 = false →
    DecodesAs (literalAlone (out ++ [PjhJson.ascii '"']))
      ((literalAlone (out ++ [PjhJson.ascii '"'])).parseString platform cfg) (.ok (text, []))

theorem readsBack_characters {out text : Bytes} (hascii : ∀ c ∈ out, c < 0x80)
    (h : Rfc.Characters out text) : ReadsBack out text := by
  refine ⟨hascii, fun platform cfg hjson5 hutf8 => ?_⟩
  have hnaive := decodeLiteral_quote h []
  rcases @parseString_ends platform cfg _ _ _ hjson5 hutf8 (atLiteral_alone (out ++ [PjhJson.ascii '"']))
    with ⟨value, rest, hok, hdecodes⟩ | ⟨failure, p', herror, -⟩
  · rw [hnaive] at hok
    cases hok
    exact hdecodes
  · rw [hnaive] at herror
    cases herror

/-- The three implementations of UTF-8 agree on a text without control bytes: they take it if it is
well-formed. What `write_escaped_ascii` then writes is ASCII, and is read back as the text. -/
theorem utf8_agrees {text : Bytes} (htext : ∀ c ∈ text, 0x20 ≤ c) (w : Writer) :
    ((checkUtf8Strict text).failed = false ↔ WellFormed text) ∧
    (Unicode.decodesAll (text.length + 1) text = true ↔ WellFormed text) ∧
    ((∃ w', writeEscapedAscii (text.length + 1) text w = .ok ((), w')) ↔ WellFormed text) ∧
    ∀ w', writeEscapedAscii (text.length + 1) text w = .ok ((), w') →
      ∃ out, w' = { w with sink := w.sink ++ out } ∧ ReadsBack out text := by
  refine ⟨checkUtf8Strict_iff htext, Unicode.decodesAll_iff (Nat.lt_succ_self _),
    writeEscapedAscii_iff w, fun w' h => ?_⟩
  obtain ⟨chars, rfl⟩ := chars_of_writeEscapedAscii h
  rw [writeEscapedAscii_chars chars (Nat.lt_succ_self _)] at h
  cases h
  obtain ⟨hascii, hcharacters⟩ := asciiForm_characters chars
  exact ⟨_, rfl, readsBack_characters hascii hcharacters⟩

/-- `U+1F600` between two letters. -/
theorem utf8_agrees_emoji :
    let text : Bytes := [0x61, 0xF0, 0x9F, 0x98, 0x80, 0x62]
    ((∀ c ∈ text, 0x20 ≤ c) ∧ (checkUtf8Strict text).failed = false) ∧
      ∃ w', writeEscapedAscii 7 text {} = .ok ((), w') ∧
        ∃ out, w' = { sink := [] ++ out } ∧ ReadsBack out text := by
  have htext : ∀ c ∈ ([0x61, 0xF0, 0x9F, 0x98, 0x80, 0x62] : Bytes), 0x20 ≤ c := by decide +kernel
  obtain ⟨hgate, -, hwrites, hback⟩ := utf8_agrees htext {}
  have hfailed : (checkUtf8Strict [0x61, 0xF0, 0x9F, 0x98, 0x80, 0x62]).failed = false := by
    decide +kernel
  obtain ⟨w', hw'⟩ := hwrites.mpr (hgate.mp hfailed)
  exact ⟨⟨htext, hfailed⟩, w', hw', hback w' hw'⟩

end Writer

end PjhJson
