import Placeholder.Proofs.Text.Utf8
/-!
What text some bytes spell when they need not be well-formed throughout: that of their longest
well-formed beginning. A beginning is well-formed when it is the coded form of characters, so it
holds no overlong form, no surrogate and no code point above U+10FFFF.
-/
namespace Placeholder.Utf8

/-- The text of the longest well-formed beginning of some bytes. -/
structure Spelling (bytes : Bytes) where
  text : Text
  front : encodeText text <+: bytes
  longest : ∀ other, encodeText other <+: bytes → other <+: text

theorem first?_shorter {bytes : Bytes} {c : Char} {n : Nat} (h : first? bytes = some (c, n)) :
    (bytes.drop n).length < bytes.length := by
  obtain ⟨hPrefix, rfl⟩ := first?_eq_some_iff.mp h
  have hPos := List.length_pos_iff.mpr (encode_ne_nil c)
  have hFits := hPrefix.length_le
  rw [List.length_drop]
  omega

/-- The characters at the front of some bytes, up to the first place where none stands. -/
def leading (bytes : Bytes) : Text :=
  match _h : first? bytes with
  | none => []
  | some (c, n) => c :: leading (bytes.drop n)
termination_by bytes.length
decreasing_by exact first?_shorter _h

theorem leading_of_none {bytes : Bytes} (h : first? bytes = none) : leading bytes = [] := by
  rw [leading]
  split
  · rfl
  · rename_i hSome
    rw [h] at hSome
    cases hSome

theorem leading_of_some {bytes : Bytes} {c : Char} {n : Nat} (h : first? bytes = some (c, n)) :
    leading bytes = c :: leading (bytes.drop n) := by
  rw [leading]
  split
  · rename_i hNone
    rw [h] at hNone
    cases hNone
  · rename_i d m hSome
    obtain ⟨rfl, rfl⟩ := Prod.mk.inj (Option.some.inj (h.symm.trans hSome))
    rfl

@[simp] theorem leading_encode (c : Char) (rest : Bytes) :
    leading (encode c ++ rest) = c :: leading rest := by
  rw [leading_of_some (first?_encode c rest), List.drop_left]

theorem isPrefix_encodeText_leading (bytes : Bytes) : encodeText (leading bytes) <+: bytes := by
  induction bytes using leading.induct with
  | case1 bytes hNone =>
      rw [leading_of_none hNone]
      exact List.nil_prefix
  | case2 bytes c n hSome ih =>
      obtain ⟨⟨rest, rfl⟩, rfl⟩ := first?_eq_some_iff.mp hSome
      rw [leading_of_some hSome, encodeText_cons]
      rw [List.drop_left] at ih ⊢
      exact (List.prefix_append_right_inj _).mpr ih

/-- Every character takes up at least one byte. -/
theorem length_le_encodeText (text : Text) : text.length ≤ (encodeText text).length := by
  induction text with
  | nil => exact Nat.le_refl 0
  | cons c text ih =>
      have hPos := List.length_pos_iff.mpr (encode_ne_nil c)
      rw [encodeText_cons, List.length_append, List.length_cons]
      omega

theorem prefix_leading {bytes : Bytes} {text : Text} (h : encodeText text <+: bytes) :
    text <+: leading bytes := by
  induction text generalizing bytes with
  | nil => exact List.nil_prefix
  | cons c text ih =>
      obtain ⟨rest, rfl⟩ := h
      rw [encodeText_cons, List.append_assoc, leading_encode]
      exact List.cons_prefix_cons.mpr ⟨rfl, ih (List.prefix_append _ _)⟩

/-- Every row of bytes spells a text. -/
def spell (bytes : Bytes) : Spelling bytes where
  text := leading bytes
  front := isPrefix_encodeText_leading bytes
  longest _ := prefix_leading

/-- Bytes spell one text only. -/
theorem Spelling.text_unique {bytes : Bytes} (one two : Spelling bytes) : one.text = two.text :=
  List.IsPrefix.eq_of_length_le (two.longest _ one.front) (one.longest _ two.front).length_le

theorem Spelling.text_eq_leading {bytes : Bytes} (spelling : Spelling bytes) :
    spelling.text = leading bytes :=
  spelling.text_unique (spell bytes)

@[simp] theorem leading_nil : leading [] = [] :=
  leading_of_none rfl

@[simp] theorem leading_encodeText (text : Text) (rest : Bytes) :
    leading (encodeText text ++ rest) = text ++ leading rest := by
  induction text with
  | nil => rfl
  | cons c text ih => rw [encodeText_cons, List.append_assoc, leading_encode, ih, List.cons_append]

theorem decodeOnto_encodeText {n : Nat} {text : Text} (hRoom : text.length ≤ n) (seen : Text) :
    decodeOnto n seen (encodeText text) = some (text.reverse ++ seen) := by
  induction text generalizing n seen with
  | nil => simp [decodeOnto]
  | cons c text ih =>
      cases n with
      | zero => cases hRoom
      | succ n =>
          obtain ⟨lead, more, hEncode, _⟩ := encode_eq_lead_cons c
          have hFirst := first?_encode c (encodeText text)
          have hRest : (encode c ++ encodeText text).drop (encode c).length = encodeText text :=
            List.drop_left
          rw [encodeText_cons]
          generalize (encode c).length = used at hFirst hRest
          rw [hEncode, List.cons_append] at hFirst hRest ⊢
          simp only [decodeOnto, hFirst, hRest]
          rw [ih (Nat.le_of_succ_le_succ hRoom), List.reverse_cons, List.append_assoc,
            List.singleton_append]

theorem exists_text_of_decodeOnto {n : Nat} {seen found : Text} {bytes : Bytes}
    (h : decodeOnto n seen bytes = some found) :
    ∃ text, found = text.reverse ++ seen ∧ bytes = encodeText text := by
  induction n, seen, bytes using decodeOnto.induct with
  | case1 n seen =>
      rw [decodeOnto] at h
      exact ⟨[], (Option.some.inj h).symm, rfl⟩
  | case2 seen byte rest => cases h
  | case3 n seen byte rest c used hFirst ih =>
      simp only [decodeOnto, hFirst] at h
      obtain ⟨text, hFound, hRest⟩ := ih h
      obtain ⟨⟨back, hBytes⟩, rfl⟩ := first?_eq_some_iff.mp hFirst
      rw [← hBytes, List.drop_left] at hRest
      exact ⟨c :: text, by simp [hFound], by rw [← hBytes, hRest, encodeText_cons]⟩
  | case4 n seen byte rest hFirst =>
      simp only [decodeOnto, hFirst] at h
      cases h

/-- Bytes are read as a text exactly if they are the bytes of that text. -/
theorem decodeText?_eq_some_iff {bytes : Bytes} {text : Text} :
    decodeText? bytes = some text ↔ bytes = encodeText text := by
  constructor
  · intro h
    obtain ⟨found, hDecode, rfl⟩ := Option.map_eq_some_iff.mp h
    obtain ⟨text, rfl, hBytes⟩ := exists_text_of_decodeOnto hDecode
    rw [hBytes, List.append_nil, List.reverse_reverse]
  · rintro rfl
    rw [decodeText?, decodeOnto_encodeText (length_le_encodeText text), List.append_nil, Option.map_some,
      List.reverse_reverse]

end Placeholder.Utf8
