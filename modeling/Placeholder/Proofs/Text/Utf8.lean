import Placeholder.Text.Utf8
/-!
The bytes of a character are read back as that character: the first of them tells how many there
are, and together they spell the code point in the range of their width. Nothing else is read: bytes
that are decoded are the bytes of the character they are decoded to.
-/
namespace Placeholder.Utf8

theorem toNat_ofNat_of_lt {n : Nat} (h : n < 256) : (UInt8.ofNat n).toNat = n := by
  rw [UInt8.toNat_ofNat']
  exact Nat.mod_eq_of_lt h

theorem continuation?_ofNat {n : Nat} (h : n < 64) :
    continuation? (UInt8.ofNat (n + 0x80)) = some n := by
  have hByte : (UInt8.ofNat (n + 0x80)).toNat = n + 0x80 := toNat_ofNat_of_lt (by omega)
  rw [continuation?, hByte, if_pos (by omega)]
  simp

theorem scalar?_toNat (c : Char) {least : Nat} (h : least ≤ c.toNat) :
    scalar? least c.toNat = some c := by
  have hValid : least ≤ c.toNat ∧ c.toNat.isValidChar := ⟨h, c.valid⟩
  rw [scalar?, dif_pos hValid]
  exact congrArg some (Char.ext (UInt32.toNat_inj.mp rfl))

theorem toNat_lt (c : Char) : c.toNat < 0x110000 := by
  have hValid : c.toNat.isValidChar := c.valid
  rcases hValid with hLow | ⟨_, hHigh⟩
  · omega
  · exact hHigh

/-- A lead byte with the number of continuation bytes that its width leaves. -/
theorem encode_eq_lead_cons (c : Char) :
    ∃ lead rest, encode c = lead :: rest ∧ width lead = (encode c).length := by
  have hMax := toNat_lt c
  unfold encode String.utf8EncodeChar
  have hVal : c.val.toNat = c.toNat := rfl
  simp only [hVal]
  split
  · refine ⟨_, _, rfl, ?_⟩
    rw [width, toNat_ofNat_of_lt (by omega), if_pos (by omega)]
    rfl
  · split
    · refine ⟨_, _, rfl, ?_⟩
      rw [width, toNat_ofNat_of_lt (by omega), if_neg (by omega), if_neg (by omega),
        if_pos (by omega)]
      rfl
    · split
      · refine ⟨_, _, rfl, ?_⟩
        rw [width, toNat_ofNat_of_lt (by omega), if_neg (by omega), if_neg (by omega),
          if_neg (by omega), if_pos (by omega)]
        rfl
      · refine ⟨_, _, rfl, ?_⟩
        rw [width, toNat_ofNat_of_lt (by omega), if_neg (by omega), if_neg (by omega),
          if_neg (by omega), if_neg (by omega), if_pos (by omega)]
        rfl

theorem decode?_encode (c : Char) : decode? (encode c) = some c := by
  have hMax := toNat_lt c
  unfold encode String.utf8EncodeChar
  have hVal : c.val.toNat = c.toNat := rfl
  simp only [hVal]
  split
  · rw [decode?, toNat_ofNat_of_lt (by omega), if_pos (by omega)]
    exact scalar?_toNat c (by omega)
  · split
    · rw [decode?, continuation?_ofNat (by omega), toNat_ofNat_of_lt (by omega)]
      have hCode : (c.toNat / 64 % 0x20 + 0xc0 - 0xC0) * 64 + c.toNat % 64 = c.toNat := by omega
      simp only [Option.bind_eq_bind, Option.bind_some, hCode]
      exact scalar?_toNat c (by omega)
    · split
      · rw [decode?, continuation?_ofNat (by omega), continuation?_ofNat (by omega),
          toNat_ofNat_of_lt (by omega)]
        have hCode : ((c.toNat / 4096 % 0x10 + 0xe0 - 0xE0) * 64 + c.toNat / 64 % 64) * 64 +
            c.toNat % 64 = c.toNat := by omega
        simp only [Option.bind_eq_bind, Option.bind_some, hCode]
        exact scalar?_toNat c (by omega)
      · rw [decode?, continuation?_ofNat (by omega), continuation?_ofNat (by omega),
          continuation?_ofNat (by omega), toNat_ofNat_of_lt (by omega)]
        have hCode : (((c.toNat / 262144 % 0x08 + 0xf0 - 0xF0) * 64 + c.toNat / 4096 % 64) * 64 +
            c.toNat / 64 % 64) * 64 + c.toNat % 64 = c.toNat := by omega
        simp only [Option.bind_eq_bind, Option.bind_some, hCode]
        exact scalar?_toNat c (by omega)

theorem continuation?_eq_some {byte : UInt8} {n : Nat} (h : continuation? byte = some n) :
    byte.toNat = n + 0x80 ∧ n < 64 := by
  rw [continuation?] at h
  split at h
  · have hEq := Option.some.inj h
    omega
  · cases h

theorem scalar?_eq_some {least n : Nat} {c : Char} (h : scalar? least n = some c) :
    least ≤ n ∧ c.toNat = n := by
  by_cases hScalar : least ≤ n ∧ n.isValidChar
  · rw [scalar?, dif_pos hScalar] at h
    obtain rfl := Option.some.inj h
    exact ⟨hScalar.1, rfl⟩
  · rw [scalar?, dif_neg hScalar] at h
    cases h

theorem ofNat_eq_of_toNat (byte : UInt8) {n : Nat} (h : byte.toNat = n) : UInt8.ofNat n = byte := by
  rw [← h, UInt8.ofNat_toNat]

/-- Bytes of the number that the first of them tells are decoded only if they are those of the
character. -/
theorem encode_of_decode? {lead : UInt8} {rest : Bytes} {c : Char}
    (hWidth : width lead = (lead :: rest).length) (h : decode? (lead :: rest) = some c) :
    encode c = lead :: rest := by
  have hVal : c.val.toNat = c.toNat := rfl
  simp only [width, List.length_cons] at hWidth
  unfold encode String.utf8EncodeChar
  simp only [hVal]
  match rest with
  | [] =>
      rw [decode?] at h
      split at h
      · obtain ⟨_, hCode⟩ := scalar?_eq_some h
        rw [if_pos (by omega), ofNat_eq_of_toNat lead hCode.symm]
      · cases h
  | [second] =>
      obtain ⟨x, hx, hScalar⟩ := Option.bind_eq_some_iff.mp h
      obtain ⟨hSecond, hxLt⟩ := continuation?_eq_some hx
      obtain ⟨hLeast, hCode⟩ := scalar?_eq_some hScalar
      have hLead : 0xC2 ≤ lead.toNat ∧ lead.toNat < 0xE0 := by
        simp only [List.length_cons, List.length_nil] at hWidth
        repeat' split at hWidth
        all_goals omega
      rw [if_neg (by omega), if_pos (by omega), ofNat_eq_of_toNat lead (by omega),
        ofNat_eq_of_toNat second (by omega)]
  | [second, third] =>
      obtain ⟨x, hx, hRest⟩ := Option.bind_eq_some_iff.mp h
      obtain ⟨y, hy, hScalar⟩ := Option.bind_eq_some_iff.mp hRest
      obtain ⟨hSecond, hxLt⟩ := continuation?_eq_some hx
      obtain ⟨hThird, hyLt⟩ := continuation?_eq_some hy
      obtain ⟨hLeast, hCode⟩ := scalar?_eq_some hScalar
      have hLead : 0xE0 ≤ lead.toNat ∧ lead.toNat < 0xF0 := by
        simp only [List.length_cons, List.length_nil] at hWidth
        repeat' split at hWidth
        all_goals omega
      rw [if_neg (by omega), if_neg (by omega), if_pos (by omega),
        ofNat_eq_of_toNat lead (by omega), ofNat_eq_of_toNat second (by omega),
        ofNat_eq_of_toNat third (by omega)]
  | [second, third, fourth] =>
      obtain ⟨x, hx, hRest⟩ := Option.bind_eq_some_iff.mp h
      obtain ⟨y, hy, hRest⟩ := Option.bind_eq_some_iff.mp hRest
      obtain ⟨z, hz, hScalar⟩ := Option.bind_eq_some_iff.mp hRest
      obtain ⟨hSecond, hxLt⟩ := continuation?_eq_some hx
      obtain ⟨hThird, hyLt⟩ := continuation?_eq_some hy
      obtain ⟨hFourth, hzLt⟩ := continuation?_eq_some hz
      obtain ⟨hLeast, hCode⟩ := scalar?_eq_some hScalar
      have hMax := toNat_lt c
      have hLead : 0xF0 ≤ lead.toNat ∧ lead.toNat < 0xF5 := by
        simp only [List.length_cons, List.length_nil] at hWidth
        repeat' split at hWidth
        all_goals omega
      rw [if_neg (by omega), if_neg (by omega), if_neg (by omega),
        ofNat_eq_of_toNat lead (by omega), ofNat_eq_of_toNat second (by omega),
        ofNat_eq_of_toNat third (by omega), ofNat_eq_of_toNat fourth (by omega)]
  | _ :: _ :: _ :: _ :: _ => cases h

theorem width_ofNat_continuation {n : Nat} (h : n < 64) : width (UInt8.ofNat (n + 0x80)) = 0 := by
  rw [width, toNat_ofNat_of_lt (by omega), if_neg (by omega), if_pos (by omega)]

/-- No sequence starts inside the bytes of a character. -/
theorem width_eq_zero_of_encode {c : Char} {lead : UInt8} {rest : Bytes}
    (h : encode c = lead :: rest) {byte : UInt8} (hMem : byte ∈ rest) : width byte = 0 := by
  unfold encode String.utf8EncodeChar at h
  have hVal : c.val.toNat = c.toNat := rfl
  simp only [hVal] at h
  repeat' split at h
  all_goals
    obtain ⟨-, rfl⟩ := List.cons.inj h
    simp only [List.mem_cons, List.not_mem_nil, or_false] at hMem
  · rw [hMem]
    exact width_ofNat_continuation (by omega)
  · rcases hMem with rfl | rfl <;> exact width_ofNat_continuation (by omega)
  · rcases hMem with rfl | rfl | rfl <;> exact width_ofNat_continuation (by omega)

theorem encode_ne_nil (c : Char) : encode c ≠ [] := by
  obtain ⟨lead, rest, hEncode, _⟩ := encode_eq_lead_cons c
  rw [hEncode]
  exact List.cons_ne_nil lead rest

/-- The first character of some bytes is the one whose bytes stand at their front. -/
theorem first?_eq_some_iff {bytes : Bytes} {c : Char} {n : Nat} :
    first? bytes = some (c, n) ↔ encode c <+: bytes ∧ n = (encode c).length := by
  constructor
  · intro h
    cases bytes with
    | nil => cases h
    | cons lead rest =>
        simp only [first?] at h
        split at h
        · rename_i hWhole
          obtain ⟨d, hDecode, hEq⟩ := Option.map_eq_some_iff.mp h
          obtain ⟨rfl, rfl⟩ := Prod.mk.inj hEq
          cases hWidth : width lead with
          | zero =>
              rw [hWidth] at hDecode
              cases hDecode
          | succ k =>
              rw [hWidth, List.take_succ_cons] at hWhole hDecode
              have hEncode := encode_of_decode? (hWidth.trans hWhole.symm) hDecode
              refine ⟨?_, hWhole.symm.trans (congrArg List.length hEncode.symm)⟩
              rw [hEncode, ← List.take_succ_cons]
              exact List.take_prefix _ _
        · cases h
  · rintro ⟨⟨rest, rfl⟩, rfl⟩
    obtain ⟨lead, more, hEncode, hWidth⟩ := encode_eq_lead_cons c
    have hFirst : first? (lead :: (more ++ rest)) =
        if ((lead :: (more ++ rest)).take (width lead)).length = width lead then
          (decode? ((lead :: (more ++ rest)).take (width lead))).map fun c => (c, width lead)
        else none := rfl
    rw [hEncode, List.cons_append, hFirst, hWidth, ← List.cons_append, ← hEncode, List.take_left,
      if_pos rfl, decode?_encode]
    rfl

theorem first?_encode (c : Char) (rest : Bytes) :
    first? (encode c ++ rest) = some (c, (encode c).length) :=
  first?_eq_some_iff.mpr ⟨List.prefix_append _ _, rfl⟩

/-- No character starts with a byte that no sequence starts with. -/
theorem first?_of_width_zero {byte : UInt8} (h : width byte = 0) (rest : Bytes) :
    first? (byte :: rest) = none := by
  simp only [first?, h, List.take_zero]
  rfl

@[simp] theorem encodeText_nil : encodeText [] = [] := rfl

@[simp] theorem encodeText_cons (c : Char) (text : Text) :
    encodeText (c :: text) = encode c ++ encodeText text := rfl

end Placeholder.Utf8
