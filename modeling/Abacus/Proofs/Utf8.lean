import Mathlib.Data.String.Basic
import Abacus.Text.Line

/-!
Texts and their bytes in UTF-8. Bytes are valid when they are the encoding of some
characters, and then they decode to these characters. A newline byte encodes the
newline character and is part of no other encoding. Encodings are ordered byte by byte
as texts are ordered character by character.
-/

namespace Abacus.Text

/-- The bytes of a run of characters. -/
def encode (chars : List Char) : List UInt8 :=
  chars.flatMap String.utf8EncodeChar

@[simp]
theorem encode_nil : encode [] = [] := rfl

@[simp]
theorem encode_cons (c : Char) (chars : List Char) :
    encode (c :: chars) = String.utf8EncodeChar c ++ encode chars := rfl

@[simp]
theorem encode_append (chars others : List Char) :
    encode (chars ++ others) = encode chars ++ encode others :=
  List.flatMap_append

theorem utf8Encode_eq (chars : List Char) :
    chars.utf8Encode = ⟨(encode chars).toArray⟩ := by
  rw [List.utf8Encode, ← encode]
  apply ByteArray.ext
  simp

theorem decode?_eq_some_iff {bytes : List UInt8} {text : String} :
    decode? bytes = some text ↔ encode text.toList = bytes := by
  have hbytes : text.toByteArray = ⟨(encode text.toList).toArray⟩ := by
    rw [← utf8Encode_eq, ← String.toByteArray_ofList, String.ofList_toList]
  have htext : encode text.toList = bytes ↔ text.toByteArray = ⟨bytes.toArray⟩ := by
    rw [hbytes, ByteArray.mk.injEq]
    simp
  rw [htext, decode?, String.fromUTF8?]
  split
  · rename_i hvalid
    rw [Option.some.injEq, ← String.toByteArray_inj, eq_comm]
    rfl
  · rename_i hinvalid
    constructor
    · intro h
      contradiction
    · intro h
      rw [← h] at hinvalid
      exact absurd text.isValidUTF8 hinvalid

theorem decode?_encode (chars : List Char) :
    decode? (encode chars) = some (String.ofList chars) := by
  rw [decode?_eq_some_iff, String.toList_ofList]

/-- The four lengths of an encoding. -/
theorem utf8EncodeChar_cases (c : Char) :
    (c.toNat < 128 ∧ String.utf8EncodeChar c = [UInt8.ofNat c.toNat]) ∨
    (128 ≤ c.toNat ∧ c.toNat < 2048 ∧ String.utf8EncodeChar c =
      [UInt8.ofNat (c.toNat / 64 + 192), UInt8.ofNat (c.toNat % 64 + 128)]) ∨
    (2048 ≤ c.toNat ∧ c.toNat < 65536 ∧ String.utf8EncodeChar c =
      [UInt8.ofNat (c.toNat / 4096 + 224), UInt8.ofNat (c.toNat / 64 % 64 + 128),
        UInt8.ofNat (c.toNat % 64 + 128)]) ∨
    (65536 ≤ c.toNat ∧ c.toNat < 1114112 ∧ String.utf8EncodeChar c =
      [UInt8.ofNat (c.toNat / 262144 + 240), UInt8.ofNat (c.toNat / 4096 % 64 + 128),
        UInt8.ofNat (c.toNat / 64 % 64 + 128), UInt8.ofNat (c.toNat % 64 + 128)]) := by
  have hval : c.val.toNat = c.toNat := rfl
  rw [String.utf8EncodeChar, hval]
  split
  · left
    exact ⟨by omega, rfl⟩
  · right
    split
    · left
      have hlead : c.toNat / 64 % 32 = c.toNat / 64 := by omega
      exact ⟨by omega, by omega, by rw [hlead]⟩
    · right
      split
      · left
        have hlead : c.toNat / 4096 % 16 = c.toNat / 4096 := by omega
        exact ⟨by omega, by omega, by rw [hlead]⟩
      · right
        have hmax : c.toNat < 1114112 := by
          rcases c.valid with h | h <;> omega
        have hlead : c.toNat / 262144 % 8 = c.toNat / 262144 := by omega
        exact ⟨by omega, hmax, by rw [hlead]⟩

theorem ofNat_cons_lt {m n : Nat} {s t : List UInt8} (hm : m < 256) (hn : n < 256) :
    UInt8.ofNat m :: s < UInt8.ofNat n :: t ↔ m < n ∨ m = n ∧ s < t := by
  rw [List.cons_lt_cons_iff, UInt8.lt_iff_toNat_lt, ← UInt8.toNat_inj, UInt8.toNat_ofNat',
    UInt8.toNat_ofNat', Nat.mod_eq_of_lt hm, Nat.mod_eq_of_lt hn]

theorem utf8EncodeChar_newline : String.utf8EncodeChar '\n' = [newline] := by
  decide

theorem newline_notMem_utf8EncodeChar {c : Char} (h : c ≠ '\n') :
    newline ∉ String.utf8EncodeChar c := by
  have hc : c.toNat ≠ 10 := by
    intro hval
    exact h (Char.toNat_inj.mp hval)
  have hbyte : ∀ {n : Nat}, n < 256 → n ≠ 10 → newline ≠ UInt8.ofNat n := by
    intro n hn hne heq
    apply hne
    rw [← Nat.mod_eq_of_lt hn, ← UInt8.toNat_ofNat', ← heq]
    rfl
  rcases utf8EncodeChar_cases c with ⟨hlt, henc⟩ | ⟨hle, hlt, henc⟩ | ⟨hle, hlt, henc⟩ |
    ⟨hle, hlt, henc⟩
  all_goals
    rw [henc]
    simp only [List.mem_cons, List.not_mem_nil, or_false, not_or]
  · exact hbyte (by omega) (by omega)
  · exact ⟨hbyte (by omega) (by omega), hbyte (by omega) (by omega)⟩
  · exact ⟨hbyte (by omega) (by omega), hbyte (by omega) (by omega), hbyte (by omega) (by omega)⟩
  · exact ⟨hbyte (by omega) (by omega), hbyte (by omega) (by omega), hbyte (by omega) (by omega),
      hbyte (by omega) (by omega)⟩

/-- Characters of a lower code point have lower bytes. -/
theorem utf8EncodeChar_append_lt {c d : Char} (h : c < d) (s t : List UInt8) :
    String.utf8EncodeChar c ++ s < String.utf8EncodeChar d ++ t := by
  have hlt : c.toNat < d.toNat := h
  rcases utf8EncodeChar_cases c with ⟨hc, henc⟩ | ⟨hc, hc', henc⟩ | ⟨hc, hc', henc⟩ |
    ⟨hc, hc', henc⟩ <;>
  rcases utf8EncodeChar_cases d with ⟨hd, henc'⟩ | ⟨hd, hd', henc'⟩ | ⟨hd, hd', henc'⟩ |
    ⟨hd, hd', henc'⟩ <;>
  first
  | omega
  | rw [henc, henc']
    simp (disch := omega) only [List.cons_append, List.nil_append, ofNat_cons_lt]
    omega

theorem utf8EncodeChar_ne_nil (c : Char) : String.utf8EncodeChar c ≠ [] := by
  rcases utf8EncodeChar_cases c with ⟨-, henc⟩ | ⟨-, -, henc⟩ | ⟨-, -, henc⟩ | ⟨-, -, henc⟩ <;>
    simp [henc]

theorem encode_lt_encode {chars others : List Char} (h : chars < others) :
    encode chars < encode others := by
  induction List.lex_lt.mpr h with
  | @nil c chars =>
    obtain ⟨b, rest, hbytes⟩ := List.exists_cons_of_ne_nil (utf8EncodeChar_ne_nil c)
    rw [encode_cons, hbytes]
    exact List.nil_lt_cons _ _
  | rel hlt => exact utf8EncodeChar_append_lt hlt _ _
  | cons htail ih => exact List.append_left_lt (ih (List.lex_lt.mp htail))

/-- Texts in the order of their characters are in the order of their bytes. -/
theorem encode_lt_of_lt {text other : String} (h : text < other) :
    encode text.toList < encode other.toList :=
  encode_lt_encode (String.lt_iff_toList_lt.mp h)

end Abacus.Text
