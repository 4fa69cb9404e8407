import VolumeCodec.EscapedRanges

namespace VolumeCodec

/-- How many bytes follow a lead byte, the range of the first of them, and the bits the lead byte
contributes. -/
def leadByte (b : Nat) : Option (Nat × Nat × Nat × Nat) :=
  if 0xc2 ≤ b ∧ b ≤ 0xdf then some (1, 0x80, 0xbf, b % 32)
  else if b = 0xe0 then some (2, 0xa0, 0xbf, 0)
  else if b = 0xed then some (2, 0x80, 0x9f, 13)
  else if 0xe1 ≤ b ∧ b ≤ 0xef then some (2, 0x80, 0xbf, b % 16)
  else if b = 0xf0 then some (3, 0x90, 0xbf, 0)
  else if 0xf1 ≤ b ∧ b ≤ 0xf3 then some (3, 0x80, 0xbf, b % 8)
  else if b = 0xf4 then some (3, 0x80, 0x8f, 4)
  else none

/-- Takes up to `n` continuation bytes, the first within the given range. Answers the code point,
if all were there, and how many bytes belong to the sequence. -/
def continuation (low high code : Nat) : Nat → List UInt8 → Option Nat × Nat
  | 0, _ => (some code, 0)
  | _ + 1, [] => (none, 0)
  | n + 1, b :: rest =>
    if low ≤ b.toNat ∧ b.toNat ≤ high then
      let (found, used) := continuation 0x80 0xbf (code * 64 + b.toNat % 64) n rest
      (found, used + 1)
    else (none, 0)

/-- Reads UTF-8. Each longest start of a sequence that goes wrong becomes one replacement
character. -/
def lossyText : List UInt8 → List Char
  | [] => []
  | b :: rest =>
    if b.toNat < 128 then Char.ofNat b.toNat :: lossyText rest
    else
      match leadByte b.toNat with
      | none => '\uFFFD' :: lossyText rest
      | some (n, low, high, code) =>
        let (found, used) := continuation low high code n rest
        (found.map Char.ofNat).getD '\uFFFD' :: lossyText (rest.drop used)
termination_by bytes => bytes.length

def quotedChar (c : Char) : List Char :=
  if c = '\x00' then ['\\', '0']
  else if c = '\t' then ['\\', 't']
  else if c = '\r' then ['\\', 'r']
  else if c = '\n' then ['\\', 'n']
  else if c = '\\' ∨ c = '"' then ['\\', c]
  else if isShown c then [c]
  else ['\\', 'u', '\x7b'] ++ Nat.toDigits 16 c.toNat ++ ['\x7d']

def quotedText (text : List Char) : String :=
  String.ofList ('"' :: text.flatMap quotedChar ++ ['"'])

end VolumeCodec
