import NikitaFirmware.Foundations.Bytes

/-!
# Text as the bridge reads it

`bytes.decode("utf-8", "replace")` and `str.strip`. A byte that cannot continue the pending
sequence ends it with one replacement character and is read again as the start of the next.
-/

namespace NikitaFirmware.Bridge
open Foundations

/-- A Python `str` without surrogates. -/
abbrev Text := List Char

def text (s : String) : Text := s.toList

def replacementChar : Char := Char.ofNat 0xFFFD

/-- A started sequence: the bits read so far, how many bytes follow the next one, and the
range of the next one. -/
structure Pending where
  value : Nat
  left : Nat
  lo : UInt8
  hi : UInt8

/-- The reading of a byte that starts a sequence. -/
def leadByte (b : UInt8) : Char ⊕ Pending :=
  if b < 0x80 then .inl (Char.ofNat b.toNat)
  else if b < 0xC2 then .inl replacementChar
  else if b < 0xE0 then .inr ⟨b.toNat % 32, 0, 0x80, 0xBF⟩
  else if b = 0xE0 then .inr ⟨b.toNat % 16, 1, 0xA0, 0xBF⟩
  else if b = 0xED then .inr ⟨b.toNat % 16, 1, 0x80, 0x9F⟩
  else if b < 0xF0 then .inr ⟨b.toNat % 16, 1, 0x80, 0xBF⟩
  else if b = 0xF0 then .inr ⟨b.toNat % 8, 2, 0x90, 0xBF⟩
  else if b < 0xF4 then .inr ⟨b.toNat % 8, 2, 0x80, 0xBF⟩
  else if b = 0xF4 then .inr ⟨b.toNat % 8, 2, 0x80, 0x8F⟩
  else .inl replacementChar

def decodeFrom : Option Pending → Bytes → Text
  | none, [] => []
  | some _, [] => [replacementChar]
  | none, b :: bs =>
    match leadByte b with
    | .inl c => c :: decodeFrom none bs
    | .inr p => decodeFrom (some p) bs
  | some p, b :: bs =>
    if p.lo ≤ b ∧ b ≤ p.hi then
      let value := p.value * 64 + b.toNat % 64
      if p.left = 0 then Char.ofNat value :: decodeFrom none bs
      else decodeFrom (some ⟨value, p.left - 1, 0x80, 0xBF⟩) bs
    else
      replacementChar :: match leadByte b with
        | .inl c => c :: decodeFrom none bs
        | .inr p => decodeFrom (some p) bs

def decodeUtf8 (bytes : Bytes) : Text := decodeFrom none bytes

/-- `str.isspace` of one character. -/
def isSpace (c : Char) : Bool :=
  let n := c.toNat
  (9 ≤ n && n ≤ 13) || (28 ≤ n && n ≤ 32) || n == 0x85 || n == 0xA0 || n == 0x1680 ||
    (0x2000 ≤ n && n ≤ 0x200A) || n == 0x2028 || n == 0x2029 || n == 0x202F || n == 0x205F ||
    n == 0x3000

def strip (s : Text) : Text := (s.dropWhile isSpace).rdropWhile isSpace

def commandOf (payload : Bytes) : Text := strip (decodeUtf8 payload)

@[simp] theorem commandOf_nil : commandOf [] = [] := rfl

example : decodeUtf8 [0x6C, 0xC3, 0xA9, 0xE2, 0x82, 0x41, 0xFF] =
    [Char.ofNat 0x6C, Char.ofNat 0xE9, replacementChar, Char.ofNat 0x41, replacementChar] := by decide

end NikitaFirmware.Bridge
